import SchemaGraph.Proofs.Resolution.Lockstep

/-! Filling an entry keeps in step with another filling of the same definition, one lemma for each step from a
single reference up to the whole entry. -/
namespace SchemaGraph

open Stateful ResolveState

namespace Twins

variable {c : ResolveContext} {W : Twins c} {s t : ResolveState} {owner : String}
  (hL : Faithful c W.left) (hR : Faithful c W.right)
include hL hR

theorem resolveNamed_lockstep {name : QName}
    (simple : c.set.LeadsToSimple W.d → ∀ d, c.set.type? name = some d → c.set.LeadsToSimple d) :
    W.Lockstep (resolveNamed c W.left name) (resolveNamed c W.right name) s t
      fun a b s' t' => SameOwner c s' t' a b := by
  refine .ofExcept_bind fun d hd => ?_
  have declared := DeclarationSet.type_eq_ok_iff.1 hd
  exact ask hL hR (.named declared) fun h => simple h d declared

theorem resolveRef_lockstep {r : TypeRef} {site : Site} {context : Option QName}
    (stands : ∀ d, r = .inline d → c.set.Stands d site context)
    (named : c.set.LeadsToSimple W.d → ∀ name d, r = .named name → c.set.type? name = some d →
      c.set.LeadsToSimple d)
    (inline : c.set.LeadsToSimple W.d → ∀ d, r = .inline d → c.set.LeadsToSimple d) :
    W.Lockstep (resolveRef c W.left site context r) (resolveRef c W.right site context r) s t
      fun a b s' t' => Option.Rel (SameOwner c s' t') a b := by
  cases r with
  | named name =>
    refine .map ((resolveNamed_lockstep hL hR fun h d => named h name d rfl).weaken ?_)
    exact fun _ _ _ _ => .some
  | inline d =>
    refine .map ((ask hL hR (stands d rfl) fun h => inline h d rfl).weaken ?_)
    exact fun _ _ _ _ => .some
  | unspecified => exact .pure .none

section Content

variable (hi : c.set.Indexed) (complex : W.d.isSimple = false) {m m' : ElementMap}

include complex in
theorem addElement_lockstep {decl : ElementDecl} {site : Site} {occurs : Occurs}
    (hd : c.set.StandsElement decl site) (he : ElementsAlike c s t m m') :
    W.Lockstep (addElement c W.left m decl site occurs owner) (addElement c W.right m' decl site occurs owner) s t
      fun p q s' t' => ElementsAlike c s' t' p.1 q.1 ∧ p.2 = q.2 := by
  have never : ¬ c.set.LeadsToSimple W.d := fun h => by cases complex.symm.trans h.isSimple
  unfold addElement
  refine .bind (resolveRef_lockstep hL hR (fun d inline => hd.stands inline)
    (fun h => absurd h never) fun h => absurd h never) fun a b s' t' step answers => ?_
  have he := he.later step.grows_left step.grows_right
  cases answers with
  | none =>
    dsimp only
    split
    · refine .bind (quiet (fun s => ⟨.skip 0 s _, rfl, rfl⟩) fun s => ⟨.skip 0 s _, rfl, rfl⟩) ?_
      intro _ _ u v step' _
      refine .bind diagnose fun _ _ u' v' step'' _ => .pure ⟨?_, rfl⟩
      exact (he.later step'.grows_left step'.grows_right).later step''.grows_left step''.grows_right
    · exact .throw
  | some same =>
    dsimp only
    rw [he.contains_eq]
    split
    · exact .bind diagnose fun _ _ _ _ step' _ => .pure ⟨he.later step'.grows_left step'.grows_right, rfl⟩
    · exact .pure ⟨he.insert _ ⟨_, same, rfl⟩, rfl⟩

include complex in
theorem addSubtype_lockstep {decl : ElementDecl} {d d' : ElementDescriptor} {acc acc' : ElementMap × Nat}
    {subtype : QName} (hd : ∃ id, d' = { d with typeId := id })
    (he : ElementsAlike c s t acc.1 acc'.1 ∧ acc.2 = acc'.2) :
    W.Lockstep (addSubtype c W.left decl d owner acc subtype) (addSubtype c W.right decl d' owner acc' subtype)
      s t fun p q s' t' => ElementsAlike c s' t' p.1 q.1 ∧ p.2 = q.2 := by
  obtain ⟨_, rfl⟩ := hd
  unfold addSubtype
  refine .ofExcept_bind fun type htype => ?_
  have declared := DeclarationSet.type_eq_ok_iff.1 htype
  split
  · exact .pure he
  · refine .bind (ask hL hR (.named declared) fun h => ?_) fun a b s' t' step same => ?_
    · cases complex.symm.trans h.isSimple
    have alike := he.1.later step.grows_left step.grows_right
    dsimp only
    rw [alike.contains_eq]
    split
    · exact .throw_bind
    · exact .pure ⟨alike.insert _ ⟨_, same, rfl⟩, congrArg (· + 1) he.2⟩

include complex in
theorem addConcrete_lockstep {decl : ElementDecl} {d d' : ElementDescriptor} {abstractName : QName}
    (hd : ∃ id, d' = { d with typeId := id }) (he : ElementsAlike c s t m m') :
    W.Lockstep (addConcrete c W.left m decl d abstractName owner)
      (addConcrete c W.right m' decl d' abstractName owner) s t
      fun l l' s' t' => ElementsAlike c s' t' l l' := by
  unfold addConcrete
  refine .bind (.foldlM ⟨he, rfl⟩ fun _ _ _ _ _ _ h => addSubtype_lockstep hL hR complex hd h) ?_
  rintro ⟨l, n⟩ ⟨l', _⟩ u v - ⟨he, rfl⟩
  dsimp only at he ⊢
  split
  · exact .bind diagnose fun _ _ _ _ step _ => .pure (he.later step.grows_left step.grows_right)
  · exact .pure he

include complex in
theorem addSubstitute_lockstep {head name : QName} (he : ElementsAlike c s t m m') :
    W.Lockstep (addSubstitute c W.left head owner m name) (addSubstitute c W.right head owner m' name) s t
      fun l l' s' t' => ElementsAlike c s' t' l l' := by
  unfold addSubstitute
  refine .ofExcept_bind fun decl hdecl => ?_
  have stands := DeclarationSet.standsElement_of_element? (DeclarationSet.element_eq_ok_iff.1 hdecl)
  refine .bind (addElement_lockstep hL hR complex stands he) ?_
  rintro ⟨l, key⟩ ⟨l', _⟩ u v - ⟨he, rfl⟩
  dsimp only at he ⊢
  split
  · refine .pure (he.modify _ ?_)
    rintro d _ ⟨id, same, rfl⟩
    exact ⟨id, same, rfl⟩
  · exact .pure he

include complex in
theorem addSubstitutes_lockstep {head : QName} {members : List QName} (he : ElementsAlike c s t m m') :
    W.Lockstep (addSubstitutes c W.left m head members owner) (addSubstitutes c W.right m' head members owner) s t
      fun l l' s' t' => ElementsAlike c s' t' l l' :=
  .foldlM (I := fun l l' s t => ElementsAlike c s t l l') he fun _ _ _ _ _ _ h =>
    addSubstitute_lockstep hL hR complex h

omit hL hR in
theorem nameEntry_alike {key name : Option String} (he : ElementsAlike c s t m m') :
    ElementsAlike c s t (nameEntry m key name) (nameEntry m' key name) := by
  unfold nameEntry
  split
  · split
    · exact he
    · refine he.modify _ ?_
      rintro d _ ⟨id, same, rfl⟩
      exact ⟨id, same, rfl⟩
  · exact he

def FoundAlike (c : ResolveContext) (x y : Found) (s t : ResolveState) : Prop :=
  ElementsAlike c s t x.elements y.elements ∧ x.listName = y.listName

include hi complex in
theorem addContentElement_lockstep {x y : Found} {decl : ElementDecl} {site : Site} {occurs : Occurs}
    {choiceName : Option String} (hd : c.set.StandsElement decl site) (he : FoundAlike c x y s t) :
    W.Lockstep (addContentElement c W.left x decl site occurs choiceName owner)
      (addContentElement c W.right y decl site occurs choiceName owner) s t (FoundAlike c) := by
  obtain ⟨m, name⟩ := x
  obtain ⟨m', name'⟩ := y
  obtain ⟨he, rfl⟩ : ElementsAlike c s t m m' ∧ name = name' := he
  unfold addContentElement
  refine .bind (addElement_lockstep hL hR complex hd he) ?_
  rintro ⟨l, key⟩ ⟨l', _⟩ u v - ⟨he, rfl⟩
  dsimp only at he ⊢
  have he : ElementsAlike c u v (nameEntry l key choiceName) (nameEntry l' key choiceName) := nameEntry_alike he
  split
  · refine .bind (addSubstitutes_lockstep hL hR complex he) fun _ _ _ _ _ he => .pure ⟨he, rfl⟩
  · have found : Option.Rel (DescriptorsAlike c u v) (key.bind (nameEntry l key choiceName).get?)
        (key.bind (nameEntry l' key choiceName).get?) := by
      cases key with
      | none => exact .none
      | some key => exact he.get? key
    generalize key.bind (nameEntry l key choiceName).get? = p, key.bind (nameEntry l' key choiceName).get? = q
      at found ⊢
    cases found with
    | none => exact .pure ⟨he, rfl⟩
    | some alike =>
      obtain ⟨id, same, rfl⟩ := alike
      refine entryAt_bind hi same fun e e' hname hread => ?_
      rw [hread complex, hname]
      split
      · exact .bind (addConcrete_lockstep hL hR complex ⟨_, rfl⟩ he) fun _ _ _ _ _ he => .pure ⟨he, rfl⟩
      · exact .pure ⟨he, rfl⟩

include hi complex in
/-- Both sides follow one plan, so that they stop at one place or not at all. -/
theorem run_lockstep {x y : Found} {p : Plan}
    (stand : ∀ leaf ∈ p.leaves, ∀ decl site occurs, leaf.2 = .element decl site occurs → c.set.StandsElement decl site)
    (he : FoundAlike c x y s t) :
    W.Lockstep (p.run c W.left owner x) (p.run c W.right owner y) s t (FoundAlike c) := by
  refine .bind (.foldlM he ?_) fun _ _ _ _ _ he => ?_
  · rintro ⟨name, leaf⟩ planned x y u v he
    cases leaf with
    | element decl site occurs =>
      exact addContentElement_lockstep hL hR hi complex (stand _ planned _ _ _ rfl) he
    | wildcard =>
      refine .bind diagnose fun _ _ _ _ step _ => .pure ⟨?_, he.2⟩
      exact he.1.later step.grows_left step.grows_right
  · split
    · exact .pure he
    · exact .throw

include hi complex in
theorem fillComplex_lockstep {x : ComplexDef} (hx : W.d.complex? = some x) :
    W.Lockstep (fillComplex c W.left W.i x W.site) (fillComplex c W.right W.j x W.site) s t
      fun _ _ _ _ => True := by
  refine .of_paired fun paired => ?_
  have same : SameOwner c s t W.i W.j := ⟨W.d, W.site, paired.owned_left, paired.owned_right⟩
  rw [fillComplex_eq, fillComplex_eq]
  refine entryAt_bind hi same fun e e' name _ => ?_
  have key : e.key = e'.key := by rw [TypeEntry.key, name, TypeEntry.key]
  rw [key]
  refine .ofExcept_bind fun layout hlayout => ?_
  refine .bind (run_lockstep hL hR hi complex ?_ ⟨.empty, rfl⟩) ?_
  · intro leaf planned decl site occurs same
    exact paired.owned_left.standsElement hx hlayout (same ▸ Layout.mem_leaves_of_plan planned)
  · rintro ⟨m, name⟩ ⟨m', _⟩ u v - ⟨he, rfl⟩
    dsimp only at he
    refine fill (fun _ => ⟨rfl, .inl rfl⟩) (fun _ => ⟨rfl, .inl rfl⟩) fun f f' alike => ?_
    have lists : m.values.all (·.isList) = m'.values.all (·.isList) := by
      refine he.all_eq ?_
      rintro d _ ⟨id, -, rfl⟩
      rfl
    unfold TypeEntry.withContent
    rw [he.size_eq, lists, alike.attributes.isEmpty_eq]
    refine ⟨?_, he, alike.attributes, alike.listItem⟩
    generalize (layout.isList || _) = isList
    exact congrArg (fun b : TypeEntry =>
      { b with isList, listName := name.orElse fun _ => b.listName }) alike.bare

end Content

theorem fillScalar_lockstep (simple : W.d.isSimple = true) :
    W.Lockstep (fillScalar c W.left W.i W.d) (fillScalar c W.right W.j W.d) s t fun _ _ _ _ => True := by
  unfold fillScalar
  refine .ofExcept_bind fun scalar hscalar => ?_
  have finish : ∀ {a b u v}, Option.Rel (SameOwner c u v) a b →
      W.Lockstep (Resolve.modifyType W.i fun e =>
          { e with simpleKind := some scalar.kind, enumValues := scalar.enumValues, listItem := a })
        (Resolve.modifyType W.j fun e =>
          { e with simpleKind := some scalar.kind, enumValues := scalar.enumValues, listItem := b }) u v
        fun _ _ _ _ => True := by
    intro a b u v item
    refine fill (fun _ => ⟨rfl, .inr ⟨rfl, simple⟩⟩) (fun _ => ⟨rfl, .inr ⟨rfl, simple⟩⟩) fun f f' alike => ?_
    refine ⟨?_, alike.elements, alike.attributes, item⟩
    exact congrArg (fun b : TypeEntry =>
      { b with simpleKind := some scalar.kind, enumValues := scalar.enumValues }) alike.bare
  dsimp only
  cases hitem : scalar.listItem with
  | none => exact .bind (.pure .none) fun _ _ _ _ _ item => finish item
  | some item =>
    refine .bind (.map ((resolveNamed_lockstep hL hR fun h d declared => h.part ?_).weaken ?_))
      fun _ _ _ _ _ item => finish item
    · unfold DeclarationSet.simpleParts
      rw [hscalar]
      exact List.mem_append_right _ (by simp [hitem, declared])
    · exact fun _ _ _ _ => .some

theorem fillAttribute_lockstep {list : DeclarationSet.AttributeList} {entry : String × TypeRef}
    (hlist : c.set.inheritedAttributes [] W.d = .ok list) (hentry : entry ∈ list.attributes)
    (mentioned : entry.2.mentions none ⊆ c.set.mentions) :
    W.Lockstep (fillAttribute c W.left W.i W.site entry) (fillAttribute c W.right W.j W.site entry) s t
      fun _ _ _ _ => True := by
  obtain ⟨name, r⟩ := entry
  dsimp only at mentioned
  refine .bind (resolveRef_lockstep hL hR ?_ ?_ ?_) fun a b u v _ answers => ?_
  · rintro d rfl
    exact .bare (mentioned (by simp [TypeRef.mentions]))
  · rintro h name d rfl declared
    exact h.part (DeclarationSet.mem_simpleParts_of_attribute hlist hentry declared)
  · rintro h d rfl
    exact h.part (DeclarationSet.mem_simpleParts_of_attribute hlist hentry rfl)
  · refine fill (fun _ => ⟨rfl, .inl rfl⟩) (fun _ => ⟨rfl, .inl rfl⟩) fun f f' alike => ?_
    exact ⟨alike.bare, alike.elements, alike.attributes.insert name answers, alike.listItem⟩

theorem fillWith_lockstep (hi : c.set.Indexed) :
    W.Lockstep (fillWith c W.left W.i W.d W.site) (fillWith c W.right W.j W.d W.site) s t fun _ _ _ _ => True := by
  refine .of_paired fun paired => ?_
  unfold fillWith
  refine .ofExcept_bind fun list hlist => ?_
  have within := (DeclarationSet.inheritedAttributes_settles (List.Subset.refl _) [] W.d
    paired.owned_left.mentions).answer hlist
  refine .bind (.forM fun entry hentry _ _ => fillAttribute_lockstep hL hR hlist hentry (within entry hentry))
    fun _ _ _ _ _ _ => ?_
  refine .bind (fill (fun _ => ⟨rfl, .inl rfl⟩) (fun _ => ⟨rfl, .inl rfl⟩) fun f f' alike => ?_) fun _ _ _ _ _ _ => ?_
  · refine ⟨?_, alike.elements, alike.attributes, alike.listItem⟩
    exact congrArg (fun b : TypeEntry => { b with anyAttribute := list.anyAttribute }) alike.bare
  · split
    · next simple => exact fillScalar_lockstep hL hR simple
    · next complex =>
      split
      · next x hx => exact fillComplex_lockstep hL hR hi (Bool.eq_false_iff.2 complex) hx
      · exact .pure trivial

end Twins

end SchemaGraph
