import SchemaGraph.Proofs.Resolution.Scope

/-! Resolution inside a scope, one lemma for each step from the entries up to whole types. -/
namespace SchemaGraph.Scope

open Stateful

variable {c : ResolveContext} {S : Scope c} {F : ResolveError → Prop} {n D : Nat} {α : Type}
  {s : ResolveState}

section Entries

theorem bind_lookup {key : String} {f : Option TypeId → Resolve α} {Q : α → ResolveState → Prop}
    (h : Proceeds c F n (f (s.types.lookup key)) s Q) :
    Proceeds c F n (Resolve.lookup key >>= f) s Q := by
  unfold Proceeds
  rw [ends_bind]
  exact h

theorem entryAt_proceeds {id : TypeId} (hs : s.Sound c) (hid : s.types.Has id) :
    Proceeds c F n (Resolve.entryAt id) s fun t s' => s' = s ∧ s.types.get? id = some t := by
  obtain ⟨t, ht⟩ := Registry.has_iff.1 hid
  unfold Resolve.entryAt
  refine Proceeds.bind_get ?_
  rw [ht]
  exact Proceeds.pure hs ⟨rfl, rfl⟩

theorem modifyType_proceeds {id : TypeId} {f : TypeEntry → TypeEntry}
    (keeps : ∀ t, (f t).key = t.key) (hs : s.Sound c) (hid : s.types.Has id) (hn : n ≤ id.index)
    (head : ∀ t, (f t).head = t.head)
    (hf : ∀ t, (∀ id ∈ t.handles, s.types.Has id) → ∀ id ∈ (f t).handles, s.types.Has id) :
    Proceeds c F n (Resolve.modifyType id f keeps) s fun _ _ => True := by
  unfold Resolve.modifyType
  refine Proceeds.bind (Q := fun _ s' => s' = s) ?_ ?_
  · exact Proceeds.map ((entryAt_proceeds hs hid).weaken fun _ _ _ _ h => h.1)
  · rintro _ _ - - rfl
    exact Proceeds.modify (.modify keeps hn head) (hs.modify keeps head hf) trivial

theorem reserve_proceeds {name : QName} {isAbstract : Bool} (hs : s.Sound c) (hn : n ≤ s.types.size)
    (hname : c.isKnown name = true ∨ name.IsSynthesized) (hnew : s.types.lookup name.clark = none) :
    Proceeds c F n (Resolve.reserve name isAbstract) s fun id t =>
      id = ⟨s.types.size⟩ ∧ t.types.lookup name.clark = some id ∧ t.anonymous = s.anonymous := by
  unfold Resolve.reserve
  refine Proceeds.bind_get ?_
  cases hr : s.types.reserve? { name, isAbstract } with
  | none =>
    have := Registry.reserve?_eq_none_iff.1 hr
    rw [show TypeEntry.key { name, isAbstract } = name.clark from rfl, hnew] at this
    cases this
  | some p =>
    obtain ⟨id, r⟩ := p
    obtain ⟨-, rfl, -⟩ := Registry.of_reserve?_eq_some hr
    refine Proceeds.bind (Q := fun _ t => t = { s with types := r })
      (Proceeds.modify (.reserve hn hr) (hs.reserve hname hr) rfl) ?_
    rintro _ _ - ht rfl
    exact Proceeds.pure ht ⟨rfl, Registry.lookup_reserve hr, rfl⟩

theorem diagnose_proceeds {kind : DiagnosticKind} {subject message : String} (hs : s.Sound c) :
    Proceeds c F n (Resolve.diagnose kind subject message) s fun _ _ => True :=
  Proceeds.modify (.diagnose n s _) (hs.diagnose _) trivial

end Entries

/-- A state from which the scope can be walked: sound, with the first `n` entries in place and at most
`D` keys left. -/
structure Ready (S : Scope c) (D n : Nat) (s : ResolveState) : Prop where
  size : n ≤ s.types.size
  sound : s.Sound c
  left : S.left s ≤ D

theorem Ready.after {t : ResolveState} (h : S.Ready D n s) (hg : s.Grows n t) (ht : t.Sound c) :
    S.Ready D n t :=
  ⟨Nat.le_trans h.size hg.size_le, ht, Nat.le_trans (left_mono hg) h.left⟩

def Answers (S : Scope c) (F : ResolveError → Prop) (D : Nat) (resolve : ResolveType) : Prop :=
  ∀ {n s} d site context, S.Ready D n s → S.Holds d context →
    Proceeds c F n (resolve d site context) s fun id t => t.types.Has id

/-- Any entry can be filled while fewer than `D` keys are left. -/
def Fills (S : Scope c) (F : ResolveError → Prop) (D : Nat) (fill : Fill) : Prop :=
  ∀ {n s} id d site, n ≤ id.index → s.types.Has id → s.Sound c → S.left s < D →
    d.mentions ⊆ S.refs → Proceeds c F n (fill id d site) s fun _ _ => True

section Content

variable {resolve : ResolveType} (hF : S.Allows F) (hresolve : S.Answers F D resolve)
include hF hresolve

theorem resolveNamed_proceeds {name : QName} (hs : S.Ready D n s)
    (hm : Mention.named .type name ∈ S.refs) :
    Proceeds c F n (resolveNamed c resolve name) s fun id t => t.types.Has id := by
  unfold resolveNamed
  refine Proceeds.bind (Q := fun d _ => c.set.type? name = some d) ?_ ?_
  · exact Proceeds.ofExcept hs.sound
      ((DeclarationSet.type_settles hm).mono (fun _ h => h) hF.lost)
  · intro d t hg ht hd
    exact hresolve d (siteOfType name) none (hs.after hg ht) (holds_of_type? hd)

theorem resolveRef_proceeds {r : TypeRef} {site : Site} {context : Option QName}
    (hs : S.Ready D n s) (hr : r.mentions context ⊆ S.refs) :
    Proceeds c F n (resolveRef c resolve site context r) s
      fun answer t => ∀ id, answer = some id → t.types.Has id := by
  cases r with
  | named name =>
    have hm : Mention.named .type name ∈ S.refs := hr (by simp [TypeRef.mentions])
    refine Proceeds.map ((resolveNamed_proceeds hF hresolve hs hm).weaken ?_)
    rintro _ _ - - hid _ ⟨⟩
    exact hid
  | inline d =>
    have hm : Mention.inline d context ∈ S.refs := hr (by simp [TypeRef.mentions])
    refine Proceeds.map ((hresolve d site context hs (.inr hm)).weaken ?_)
    rintro _ _ - - hid _ ⟨⟩
    exact hid
  | unspecified =>
    refine Proceeds.pure hs.sound ?_
    rintro _ ⟨⟩

theorem addElement_proceeds {elements : ElementMap} {decl : ElementDecl} {site : Site}
    {occurs : Occurs} {owner : String} (hs : S.Ready D n s) (he : s.types.Covers elements)
    (hd : decl.mentions ⊆ S.refs) :
    Proceeds c F n (addElement c resolve elements decl site occurs owner) s
      fun p t => t.types.Covers p.1 ∧ elements.entries <+: p.1.entries := by
  unfold addElement
  refine Proceeds.bind
    (resolveRef_proceeds hF hresolve hs (List.Subset.trans decl.typeRef_mentions hd)) ?_
  intro answer t hg ht hid
  have he' := he.mono fun _ => hg.has
  cases answer with
  | none =>
    dsimp only
    split
    · refine Proceeds.bind (Q := fun _ t' => t'.types = t.types)
        (Proceeds.modify (.skip n t _) (ht.skip _) rfl) ?_
      rintro _ t' - ht' htypes
      refine Proceeds.bind (diagnose_proceeds ht') fun _ t'' hg'' ht'' _ => ?_
      refine Proceeds.pure ht'' ⟨he'.mono fun id h => hg''.has ?_, List.prefix_rfl⟩
      rwa [htypes]
    · exact Proceeds.throw ht (hF.content _ trivial)
  | some id =>
    dsimp only
    split
    · refine Proceeds.bind (diagnose_proceeds ht) fun _ t' hg' ht' _ => ?_
      exact Proceeds.pure ht' ⟨he'.mono fun _ => hg'.has, List.prefix_rfl⟩
    · next hnew =>
      refine Proceeds.pure ht ⟨he'.insert (hid id rfl), ?_⟩
      rw [OrderedMap.entries_insert (Bool.eq_false_iff.2 hnew)]
      exact List.prefix_append _ _

theorem addSubtype_proceeds {decl : ElementDecl} {descriptor : ElementDescriptor}
    {acc : ElementMap × Nat} {abstractName subtype : QName} {owner : String} (hs : S.Ready D n s)
    (hbelow : subtype ∈ c.hierarchy.descendants abstractName) (he : s.types.Covers acc.1) :
    Proceeds c F n (addSubtype c resolve decl descriptor owner acc subtype) s
      fun acc t => t.types.Covers acc.1 := by
  unfold addSubtype
  refine Proceeds.bind (Q := fun d t => t = s ∧ c.set.type? subtype = some d)
    (Proceeds.ofExcept hs.sound ?_) ?_
  · unfold DeclarationSet.type
    cases hd : c.set.type? subtype with
    | none => exact hF.subtype abstractName subtype owner hbelow hd
    | some d => exact ⟨rfl, rfl⟩
  · rintro d s - - ⟨rfl, hd⟩
    split
    · exact Proceeds.pure hs.sound he
    · refine Proceeds.bind (hresolve d (siteOfType subtype) none hs (holds_of_type? hd)) ?_
      intro id t hg ht hid
      dsimp only
      split
      · exact Proceeds.throw_bind ht (hF.content _ trivial)
      · exact Proceeds.pure ht ((he.mono fun _ => hg.has).insert hid)

theorem addConcrete_proceeds {elements : ElementMap} {decl : ElementDecl}
    {descriptor : ElementDescriptor} {abstractName : QName} {owner : String} (hs : S.Ready D n s)
    (he : s.types.Covers elements) :
    Proceeds c F n (addConcrete c resolve elements decl descriptor abstractName owner) s
      fun elements t => t.types.Covers elements := by
  unfold addConcrete
  refine Proceeds.bind (Q := fun acc t => t.types.Covers acc.1) ?_ ?_
  · exact Proceeds.foldlM hs.sound he fun name hname acc t hg ht hacc =>
      addSubtype_proceeds hF hresolve (hs.after hg ht) hname hacc
  · rintro ⟨elements', count⟩ t - ht hacc
    dsimp only at hacc ⊢
    split
    · refine Proceeds.bind (diagnose_proceeds ht) fun _ t' hg' ht' _ => ?_
      exact Proceeds.pure ht' (hacc.mono fun _ => hg'.has)
    · exact Proceeds.pure ht hacc

theorem addSubstitute_proceeds {elements : ElementMap} {head name : QName} {owner : String}
    (hname : name ∈ c.set.substitutes head) (hs : S.Ready D n s) (he : s.types.Covers elements) :
    Proceeds c F n (addSubstitute c resolve head owner elements name) s
      fun elements t => t.types.Covers elements := by
  unfold addSubstitute
  refine Proceeds.bind (Q := fun d t => t = s ∧ c.set.element? name = some d)
    (Proceeds.ofExcept hs.sound ?_) ?_
  · unfold DeclarationSet.element
    cases hd : c.set.element? name with
    | none => exact hF.member head name owner hname hd
    | some d => exact ⟨rfl, rfl⟩
  · rintro decl s - - ⟨rfl, hd⟩
    have hm := List.Subset.trans (DeclarationSet.mentions_of_element? hd) S.declared
    refine Proceeds.bind (addElement_proceeds hF hresolve hs he hm) ?_
    rintro ⟨elements', key⟩ t - ht ⟨hc, -⟩
    dsimp only at hc ⊢
    split
    · exact Proceeds.pure ht (hc.modify fun _ => rfl)
    · exact Proceeds.pure ht hc

theorem addSubstitutes_proceeds {elements : ElementMap} {head : QName} {owner : String}
    (hs : S.Ready D n s) (he : s.types.Covers elements) :
    Proceeds c F n (addSubstitutes c resolve elements head (c.set.substitutes head) owner) s
      fun elements t => t.types.Covers elements :=
  Proceeds.foldlM hs.sound he fun _ hname _ _ hg ht hacc =>
    addSubstitute_proceeds hF hresolve hname (hs.after hg ht) hacc

omit hF hresolve in
theorem covers_nameEntry {elements : ElementMap} {key name : Option String} {r : Registry}
    (h : r.Covers elements) : r.Covers (nameEntry elements key name) := by
  unfold nameEntry
  split
  · split
    · exact h
    · exact h.modify fun _ => rfl
  · exact h

theorem addContentElement_proceeds {found : Found} {decl : ElementDecl} {site : Site}
    {occurs : Occurs} {choiceName : Option String} {owner : String} (hs : S.Ready D n s)
    (he : s.types.Covers found.elements) (hd : decl.mentions ⊆ S.refs) :
    Proceeds c F n (addContentElement c resolve found decl site occurs choiceName owner) s
      fun found t => t.types.Covers found.elements := by
  unfold addContentElement
  refine Proceeds.bind (addElement_proceeds hF hresolve hs he hd) ?_
  rintro ⟨elements, key⟩ t hg ht ⟨hc, -⟩
  dsimp only at hc ⊢
  have hc : t.types.Covers (nameEntry elements key choiceName) := covers_nameEntry hc
  split
  · refine Proceeds.bind (addSubstitutes_proceeds hF hresolve (hs.after hg ht) hc) fun elements' t' _ ht' hc' => Proceeds.pure ht' hc'
  · split
    · exact Proceeds.pure ht hc
    · next descriptor hdesc =>
      obtain ⟨key, -, hkey⟩ := Option.bind_eq_some_iff.1 hdesc
      refine Proceeds.bind (entryAt_proceeds ht (hc.get? hkey)) ?_
      rintro type _ - - ⟨rfl, -⟩
      split
      · refine Proceeds.bind (addConcrete_proceeds hF hresolve (hs.after hg ht) hc) ?_
        exact fun elements' t' _ ht' hc' => Proceeds.pure ht' hc'
      · exact Proceeds.pure ht hc

theorem run_proceeds {owner : String} {found : Found} {p : Plan} (hs : S.Ready D n s)
    (he : s.types.Covers found.elements)
    (within : ∀ leaf ∈ p.leaves, ∀ decl site occurs, leaf.2 = .element decl site occurs → decl.mentions ⊆ S.refs)
    (faults : ∀ e, p.fault = some e → F e) :
    Proceeds c F n (p.run c resolve owner found) s fun found t => t.types.Covers found.elements := by
  refine Proceeds.bind (Q := fun found t => t.types.Covers found.elements) (Proceeds.foldlM hs.sound he ?_) ?_
  · rintro ⟨name, leaf⟩ planned found t hg ht hc
    cases leaf with
    | element decl site occurs =>
      exact addContentElement_proceeds hF hresolve (hs.after hg ht) hc (within _ planned _ _ _ rfl)
    | wildcard =>
      refine Proceeds.bind (diagnose_proceeds ht) fun _ t' hg' ht' _ => ?_
      exact Proceeds.pure ht' (hc.mono fun _ => hg'.has)
  · intro found t _ ht hc
    split
    · exact Proceeds.pure ht hc
    · next e fault => exact Proceeds.throw ht (faults e fault)

theorem fillComplex_proceeds {id : TypeId} {d : ComplexDef} {site : Site} (hn : n ≤ id.index)
    (hid : s.types.Has id) (hs : S.Ready D n s) (hd : d.mentions ⊆ S.refs) :
    Proceeds c F n (fillComplex c resolve id d site) s fun _ _ => True := by
  rw [fillComplex_eq]
  refine Proceeds.bind (entryAt_proceeds hs.sound hid) ?_
  rintro entry s - - ⟨rfl, -⟩
  refine Proceeds.bind (Q := fun l t => t = s ∧ ElementsWithin S.refs l.leaves)
    (Proceeds.ofExcept hs.sound ?_) ?_
  · exact (DeclarationSet.layout_settles (.of_mentions S.declared) _ [] site d hd).mono
      (fun _ h => ⟨rfl, h⟩) hF.lost
  rintro layout s - - ⟨rfl, hl⟩
  refine Proceeds.bind (run_proceeds hF hresolve hs (Registry.covers_empty _) ?_ fun e fault => ?_) ?_
  · intro leaf planned decl site occurs same
    exact hl decl site occurs (same ▸ Layout.mem_leaves_of_plan planned)
  · obtain rfl | ⟨index, rfl⟩ := PassedChoices.fault_plan_of_content fault <;> exact hF.content _ trivial
  · intro found t hg ht hc
    refine modifyType_proceeds _ ht (hg.has hid) hn (fun _ => rfl) fun entry hentry => ?_
    rw [TypeEntry.forall_handles] at hentry ⊢
    exact ⟨hc, hentry.2⟩

theorem fillScalar_proceeds {id : TypeId} {d : TypeDef} (hn : n ≤ id.index) (hid : s.types.Has id)
    (hs : S.Ready D n s) (hd : d.mentions ⊆ S.refs) :
    Proceeds c F n (fillScalar c resolve id d) s fun _ _ => True := by
  unfold fillScalar
  refine Proceeds.bind (Q := fun x t => t = s ∧ DeclarationSet.ItemWithin S.refs x)
    (Proceeds.ofExcept hs.sound ?_) ?_
  · exact (DeclarationSet.classify_settles S.declared [] d hd).mono (fun _ h => ⟨rfl, h⟩) hF.lost
  rintro scalar s - - ⟨rfl, hitem⟩
  have fill : ∀ (t : ResolveState) (item : Option TypeId), s.Grows n t → t.Sound c →
      (∀ i, item = some i → t.types.Has i) →
      Proceeds c F n (Resolve.modifyType id fun e =>
        { e with simpleKind := some scalar.kind, enumValues := scalar.enumValues, listItem := item })
        t fun _ _ => True := by
    intro t item hg ht hi
    refine modifyType_proceeds _ ht (hg.has hid) hn (fun _ => rfl) fun entry hentry => ?_
    rw [TypeEntry.forall_handles] at hentry ⊢
    exact ⟨hentry.1, hentry.2.1, hi⟩
  dsimp only
  split
  · next item hx =>
    refine Proceeds.bind (Q := fun answer t => ∀ i, answer = some i → t.types.Has i)
      (Proceeds.map ((resolveNamed_proceeds hF hresolve hs (hitem item hx)).weaken ?_)) ?_
    · rintro i t - - hi _ ⟨⟩
      exact hi
    · exact fun answer t hg ht hi => fill t answer hg ht hi
  · refine fill s none (.refl n s) hs.sound ?_
    rintro _ ⟨⟩

theorem fillAttribute_proceeds {id : TypeId} {site : Site} {name : String} {r : TypeRef}
    (hn : n ≤ id.index) (hid : s.types.Has id) (hs : S.Ready D n s) (hr : r.mentions none ⊆ S.refs) :
    Proceeds c F n (fillAttribute c resolve id site (name, r)) s fun _ _ => True := by
  unfold fillAttribute
  refine Proceeds.bind (resolveRef_proceeds hF hresolve hs hr) fun typeId t hg ht htype => ?_
  refine modifyType_proceeds _ ht (hg.has hid) hn (fun _ => rfl) fun entry hentry => ?_
  rw [TypeEntry.forall_handles] at hentry ⊢
  refine ⟨hentry.1, fun i hi => ?_, hentry.2.2⟩
  rcases OrderedMap.of_mem_values_insert hi with hi | hi
  · exact htype i hi.symm
  · exact hentry.2.1 i hi

theorem fillWith_fills : S.Fills F (D + 1) (fillWith c resolve) := by
  intro n s id d site hn hid hsound hleft hd
  have hs : S.Ready D n s := ⟨Nat.le_of_lt (Nat.lt_of_le_of_lt hn hid), hsound, Nat.le_of_lt_succ hleft⟩
  unfold fillWith
  refine Proceeds.bind (Q := fun l t => t = s ∧ DeclarationSet.AttributesWithin S.refs l)
    (Proceeds.ofExcept hs.sound ?_) ?_
  · exact (DeclarationSet.inheritedAttributes_settles S.declared [] d hd).mono
      (fun _ h => ⟨rfl, h⟩) hF.lost
  rintro list s - - ⟨rfl, hl⟩
  refine Proceeds.bind (Q := fun _ _ => True) (Proceeds.forM hs.sound trivial ?_) ?_
  · rintro ⟨name, r⟩ ha t hg ht -
    exact fillAttribute_proceeds hF hresolve hn (hg.has hid) (hs.after hg ht) (hl _ ha)
  intro _ t hg ht _
  refine Proceeds.bind (Q := fun _ _ => True)
    (modifyType_proceeds _ ht (hg.has hid) hn (fun _ => rfl) fun entry hentry => ?_) ?_
  · rwa [TypeEntry.forall_handles] at hentry ⊢
  intro _ t' hg' ht' _
  have hid' := hg'.has (hg.has hid)
  have hs' := (hs.after hg ht).after hg' ht'
  split
  · exact fillScalar_proceeds hF hresolve hn hid' hs' hd
  · split
    · next x hx =>
      rw [TypeDef.mentions_of_complex? hx] at hd
      exact fillComplex_proceeds hF hresolve hn hid' hs' hd
    · exact Proceeds.pure ht' trivial

end Content

section Types

variable {fill : Fill} (hF : S.Allows F) (hfill : S.Fills F D fill)
include hfill

theorem enterNamed_proceeds {name : QName} {d : TypeDef} {site : Site} (hs : S.Ready D n s)
    (hname : c.isKnown name = true) (hkey : name.clark ∈ S.keys)
    (hnew : s.types.lookup name.clark = none) (hd : d.mentions ⊆ S.refs) :
    Proceeds c F n (enterNamed fill name d site) s fun id t => t.types.Has id := by
  unfold enterNamed
  refine Proceeds.bind (reserve_proceeds hs.sound hs.size (.inl hname) hnew) ?_
  rintro _ t hg ht ⟨rfl, hid, -⟩
  have left := left_lt hg hkey hnew (by rw [hid]; rfl)
  refine Proceeds.bind (hfill _ d site hs.size (Registry.has_of_lookup hid) ht
    (Nat.lt_of_lt_of_le left hs.left) hd) ?_
  exact fun _ t' hg' ht' _ => Proceeds.pure ht' (hg'.has (Registry.has_of_lookup hid))

include hF

theorem placeholder_proceeds {d : TypeDef} (hs : S.Ready D n s) (hd : d.mentions ⊆ S.refs) :
    Proceeds c F n (placeholder c fill d) s fun id t => t.types.Has id := by
  unfold placeholder
  refine Proceeds.bind (Q := fun _ t => t = s) (Proceeds.ofExcept hs.sound ?_) ?_
  · exact (DeclarationSet.primitiveOfType_settles S.declared d hd).mono (fun _ _ => rfl) hF.lost
  rintro primitive s - - rfl
  refine bind_lookup ?_
  cases hl : s.types.lookup (QName.xsd primitive.builtinName).clark with
  | some id => exact Proceeds.pure hs.sound (Registry.has_of_lookup hl)
  | none =>
    obtain ⟨builtin, hb⟩ := Option.isSome_iff_exists.1 (c.set.isSome_type?_primitive primitive)
    refine Proceeds.bind (Q := fun x t => t = s ∧ x = builtin) (Proceeds.ofExcept hs.sound ?_) ?_
    · rw [DeclarationSet.type, hb]
      exact ⟨rfl, rfl⟩
    · rintro _ s - - ⟨rfl, rfl⟩
      exact enterNamed_proceeds hfill hs (c.isKnown_xsd _) (mem_keys_builtin primitive.builtinName_mem)
        hl (List.Subset.trans (DeclarationSet.mentions_of_type? hb) S.declared)

theorem resolveType_answers : S.Answers F D (resolveType c fill) := by
  intro n s d site context hs hd
  have hm := hd.mentions
  unfold resolveType
  cases hname : d.name with
  | some name =>
    refine bind_lookup ?_
    cases hl : s.types.lookup name.clark with
    | some id => exact Proceeds.pure hs.sound (Registry.has_of_lookup hl)
    | none =>
      dsimp only
      split
      · next hk => exact enterNamed_proceeds hfill hs hk (hd.mem_keys hname) hl hm
      · next unknown =>
        split
        · exact placeholder_proceeds hF hfill hs hm
        · next complex =>
          exact Proceeds.throw hs.sound
            (hF.foreign d context name hd hname (Bool.eq_false_iff.2 unknown) (Bool.eq_false_iff.2 complex))
  | none =>
    dsimp only
    split
    · exact placeholder_proceeds hF hfill hs hm
    cases context with
    | none => exact Proceeds.throw hs.sound (hF.content _ trivial)
    | some element =>
      refine bind_lookup ?_
      cases hl : s.types.lookup (element.localName ++ "AnonType") with
      | some id =>
        refine Proceeds.bind_get ?_
        split
        · exact Proceeds.pure hs.sound (Registry.has_of_lookup hl)
        · exact Proceeds.throw hs.sound (hF.content _ trivial)
      | none =>
        refine Proceeds.bind (reserve_proceeds hs.sound hs.size (.inr ⟨element, rfl⟩) hl) ?_
        rintro _ t hg ht ⟨rfl, hid, same⟩
        have has := Registry.has_of_lookup hid
        have unowned : ∀ p ∈ t.anonymous, p.1 ≠ ⟨s.types.size⟩ := by
          rw [same]
          intro p hp last
          have inside := hs.sound.anonymous p hp
          rw [last] at inside
          exact Nat.lt_irrefl _ inside
        have left := left_lt hg (hd.mem_keys_inline hname) hl (by
          rw [show element.localName ++ "AnonType" =
            (⟨none, element.localName ++ "AnonType"⟩ : QName).clark from rfl, hid]
          rfl)
        refine Proceeds.bind (Q := fun _ _ => True)
          (Proceeds.modify (.recordAnonymous n t _) (ht.recordAnonymous has unowned) trivial)
          fun _ t' hg' ht' _ => ?_
        refine Proceeds.bind (hfill _ d site hs.size (hg'.has has) ht' ?_ hm)
          fun _ t'' hg'' ht'' _ => Proceeds.pure ht'' (hg''.has (hg'.has has))
        exact Nat.lt_of_le_of_lt (left_mono hg') (Nat.lt_of_lt_of_le left hs.left)

end Types

/-- The bound on open types is not reached where it exceeds the number of keys that are left. -/
theorem fillTo_fills (hF : S.Allows F) (depth : Nat) : S.Fills F depth (fillTo c depth) := by
  induction depth with
  | zero => exact fun _ _ _ _ _ _ hleft => absurd hleft (Nat.not_lt_zero _)
  | succ depth ih => exact fillWith_fills hF (resolveType_answers hF ih)

theorem length_keys_le (S : Scope c) :
    S.keys.length ≤ builtinNames.length + c.set.types.size + S.refs.length := by
  unfold keys
  have declared := List.length_filterMap_le (fun d : TypeDef => d.name.map QName.clark)
    c.set.types.values
  have inline := List.length_filterMap_le Mention.key? S.refs
  simp only [List.length_append, List.length_map, OrderedMap.values, OrderedMap.size] at declared ⊢
  omega

def ofDefinition (c : ResolveContext) (d : TypeDef) (context : Option QName) : Scope c :=
  around c ((TypeRef.inline d).mentions context) (TypeRef.closedInward context _)

theorem Holds.of_ofDefinition {d d' : TypeDef} {context context' : Option QName} (hd : S.Holds d context)
    (h : (ofDefinition c d context).Holds d' context') : S.Holds d' context' := by
  rcases h with named | inline
  · exact .inl named
  · simp only [ofDefinition, around, TypeRef.mentions, List.mem_append, List.mem_cons] at inline
    rcases inline with (⟨⟨⟩⟩ | inner) | declared
    · exact hd
    · exact .inr (hd.mentions inner)
    · exact .inr (S.declared declared)

theorem resolve_answers (hF : S.Allows F) (D : Nat) : S.Answers F D c.resolve := by
  intro n s d site context hs hd
  have allows : (ofDefinition c d context).Allows F := hF.mono (fun kind name h => by
    simp only [ofDefinition, around, TypeRef.mentions, List.mem_append, List.mem_cons,
      reduceCtorEq, false_or] at h
    exact h.elim (hd.mentions ·) (S.declared ·)) fun _ _ => hd.of_ofDefinition
  have bound := length_keys_le (ofDefinition c d context)
  have left := left_le_length (ofDefinition c d context) s
  -- The scope of the definition alone is smaller and has few enough keys for the bound.
  refine resolveType_answers allows (fillTo_fills allows _) d site context
    ⟨hs.size, hs.sound, ?_⟩ (.inr ?_)
  · simp only [ofDefinition, around, TypeRef.mentions, List.length_append, List.length_cons,
      DeclarationSet.depthBound] at bound left ⊢
    omega
  · simp [ofDefinition, around, TypeRef.mentions]

end SchemaGraph.Scope
