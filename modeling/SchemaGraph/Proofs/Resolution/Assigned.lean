import SchemaGraph.Proofs.Resolution.Filling
import SchemaGraph.Proofs.Resolution.Lockstep

/-! Entries while they are being filled.  An entry has the name of its definition and is abstract if that is; the entry
of a complex type is never one of simple values. -/
namespace SchemaGraph

open Stateful ResolveState

/-- Every entry belongs to a definition, and that of a complex type says nothing of a class of values. -/
def ResolveState.Assigned (c : ResolveContext) (s : ResolveState) : Prop :=
  ∀ id, s.types.Has id → ∃ d site, s.Owned c id d site ∧
    (d.isSimple = false → (s.types.get? id).map (·.simpleKind) = some none)

section Assigned

variable {c : ResolveContext} {s t : ResolveState} {id : TypeId} {d : TypeDef} {site : Site}

theorem ResolveState.Enters.assigned (h : s.Enters c id d site t) (hs : s.Assigned c) : t.Assigned c := by
  intro i there
  rcases h.has_or_eq there with here | rfl
  · obtain ⟨d', site', owned, kind⟩ := hs i here
    refine ⟨d', site', owned.later h.grows, fun complex => ?_⟩
    rw [h.grows.get?_eq here, kind complex]
  · obtain ⟨name, blank⟩ := h.blank
    exact ⟨d, site, h.owned, fun _ => by rw [blank]; rfl⟩

theorem complex_of_resolveNamed {depth : Nat} {name : QName} (hk : c.set.KeysApart) (hi : c.set.Indexed)
    (declared : c.set.type? name = some d) (complex : d.isSimple = false)
    (h : Yields (resolveNamed c (resolveType c (fillTo c depth)) name) s id t) (ht : t.Assigned c) :
    ∃ type, t.types.get? id = some type ∧ type.name = name ∧ type.isAbstract = d.isAbstract ∧
      type.isSimple = false := by
  have found : t.types.lookup name.clark = some id := by
    obtain ⟨d', declared', h⟩ := yields_ofExcept_bind.1 h
    obtain rfl := Option.some.inj (declared.symm.trans (DeclarationSet.type_eq_ok_iff.1 declared'))
    have own := hi.name_of_type? declared
    cases resolved_of_resolveType h with
    | named own' found =>
      obtain rfl := Option.some.inj (own.symm.trans own')
      exact found
    | enterNamed own' _ entered =>
      obtain rfl := Option.some.inj (own.symm.trans own')
      exact (enterNamed_enters (fillTo_adds c depth) name).answer entered
    | standIn _ simple | enterStandIn _ simple => cases complex.symm.trans simple
  obtain ⟨d', site', owned, blank⟩ := ht id (Registry.has_of_lookup found)
  obtain ⟨-, own⟩ := owned.of_lookup hk declared found
  obtain ⟨type, entry⟩ := Registry.has_iff.1 own.has
  have name_eq : type.name = name := by
    generalize same : siteOfType name = site at own
    cases own with
    | named declared' _ head =>
      rw [entry] at head
      have own : type.name = _ := congrArg Prod.fst (Option.some.inj head)
      exact own.trans (Option.some.inj ((hi.name_of_type? declared').symm.trans (hi.name_of_type? declared)))
    | inline _ placed _ _ _ =>
      subst same
      cases placed
  obtain rfl := owned.eq_of_type? hk entry (name_eq ▸ declared)
  have kind := blank complex
  rw [entry, Option.map_some, Option.some.injEq] at kind
  refine ⟨type, entry, name_eq, own.isAbstract_eq entry, ?_⟩
  rw [TypeEntry.isSimple, kind]
  rfl

end Assigned

structure ResolveState.Assigns (c : ResolveContext) (s t : ResolveState) : Prop where
  grows : s.Grows 0 t
  assigned : t.Assigned c

section Standing

variable {c : ResolveContext} {s t u : ResolveState} {id : TypeId} {d : TypeDef} {site : Site}
  {context : Option QName} {fill : Fill} {name : QName}

theorem ResolveState.Assigned.of_eq (h : s.Assigned c) (types : t.types = s.types)
    (anonymous : t.anonymous = s.anonymous) : t.Assigned c := by
  intro id there
  rw [types] at there
  obtain ⟨d, site, owned, kind⟩ := h id there
  exact ⟨d, site, owned.of_eq types anonymous, fun complex => by rw [types, kind complex]⟩

theorem ResolveState.Assigns.trans (h : s.Assigns c t) (h' : t.Assigns c u) : s.Assigns c u :=
  ⟨h.grows.trans h'.grows, h'.assigned⟩

theorem keeps_of_assigns {α : Type} {x : Resolve α} (h : ∀ s : ResolveState, Keeps (s.Assigns c) x) :
    Keeps (Assigned c) x := fun s hs =>
  (h s s ⟨.refl 0 s, hs⟩).mono (fun _ _ ht => ht.assigned) fun _ _ ht => ht.assigned

/-- Filling the entry of a definition leaves all entries to their definitions, whatever comes of it. -/
def Assigning (c : ResolveContext) (fill : Fill) : Prop :=
  ∀ ⦃s : ResolveState⦄ ⦃id d site⦄, s.Owned c id d site → Keeps (s.Assigns c) (fill id d site)

theorem Assigning.entering (hfill : Assigning c fill) (hs : s.Assigns c t) (h : t.Enters c id d site u) :
    Ends (fill id d site) u (fun _ => s.Assigns c) fun _ => s.Assigns c := by
  have entered : s.Assigns c u :=
    hs.trans ⟨h.grows.of_le (Nat.zero_le _), h.assigned hs.assigned⟩
  exact (hfill h.owned u ⟨.refl 0 u, entered.assigned⟩).mono (fun _ _ => entered.trans) fun _ _ => entered.trans

theorem enterNamed_assigns (hfill : Assigning c fill) (declared : c.set.type? name = some d)
    (known : c.isKnown name = true) : Keeps (s.Assigns c) (enterNamed fill name d (siteOfType name)) := by
  intro t ht
  unfold enterNamed
  rw [ends_bind]
  refine ends_iff.2 ⟨fun id u reserved => ?_, fun e u full => ?_⟩
  · rw [ends_bind]
    exact hfill.entering ht (enters_of_yields_reserve declared known reserved)
  · rw [((reserve_ends name d.isAbstract t).fault full).1]
    exact ht

theorem placeholder_assigns (hfill : Assigning c fill) : Keeps (s.Assigns c) (placeholder c fill d) := by
  refine .bind (.ofExcept _) fun p => .bind Reach.lookup_keeps fun found => ?_
  split
  · exact .pure _
  · exact .bind_ofExcept fun b declared =>
      enterNamed_assigns hfill (DeclarationSet.type_eq_ok_iff.1 declared) (c.isKnown_xsd _)

variable (unnamed : ∀ d context, Mention.inline d context ∈ c.set.mentions → d.name = none)
include unnamed

def ResolveContext.standing : Reach c where
  asked := c.set.Stands
  filled d site := d.mentions ⊆ c.set.mentions ∧ c.set.groupAt site.owner site.path = d.group?
  elements := c.set.StandsElement
  named := .named
  global := DeclarationSet.standsElement_of_element?
  inline h := h.stands
  standIn declared := ⟨DeclarationSet.mentions_of_type? declared, DeclarationSet.groupAt_of_type? declared⟩
  own stands own := by
    cases stands with
    | named declared => exact ⟨DeclarationSet.mentions_of_type? declared, DeclarationSet.groupAt_of_type? declared⟩
    | inline mentioned _ | bare mentioned => cases (unnamed _ _ mentioned).symm.trans own
  anonymous stands := by
    cases stands with
    | inline mentioned placed =>
      exact ⟨c.set.closedInward _ _ mentioned, DeclarationSet.groupAt_of_inlineAt placed⟩
  attributes there := DeclarationSet.stands_of_attribute there.1
  content there := DeclarationSet.standsElement_of_layout there.1 there.2

/-- No step of a filling takes an entry from its definition.  Where the class of values is filled in, the entry belongs
to the simple definition from which it is read. -/
theorem stable_assigns :
    (ResolveContext.standing unnamed).Stable (s.Assigns c) fun id d => ∃ site, s.Owned c id d site where
  diagnose t remark h := h.trans ⟨.diagnose 0 t remark, h.assigned.of_eq rfl rfl⟩
  skip t decl _ _ _ _ h := h.trans ⟨.skip 0 t _, h.assigned.of_eq rfl rfl⟩
  fill := by
    rintro t id d f keeps ⟨site, own⟩ fills kind h
    have step : t.Grows 0 { t with types := t.types.modify id f keeps } :=
      .modify keeps (Nat.zero_le _) fun type => head_eq_of_start (fills type).start
    refine h.trans ⟨step, fun i there => ?_⟩
    have here : t.types.Has i := (Registry.has_modify keeps).1 there
    obtain ⟨d', site', owned, blank⟩ := h.assigned i here
    by_cases same : i = id
    · subst same
      cases simple : d.isSimple with
      | true => exact ⟨d, site, (own.later h.grows).later step, fun complex => by cases simple.symm.trans complex⟩
      | false =>
        refine ⟨d', site', owned.later step, fun complex => ?_⟩
        obtain ⟨type, found⟩ := Registry.has_iff.1 here
        have blank := blank complex
        rw [found, Option.map_some] at blank
        rw [Registry.get?_modify_self keeps found, Option.map_some, kind simple, blank]
    · refine ⟨d', site', owned.later step, fun complex => ?_⟩
      rw [Registry.get?_modify_of_ne keeps same, blank complex]

variable (hi : c.set.Indexed)
include hi

theorem resolveType_assigns (hfill : Assigning c fill) (stands : c.set.Stands d site context) :
    Keeps (s.Assigns c) (resolveType c fill d site context) := by
  unfold resolveType
  split
  · next name own =>
    obtain ⟨declared, rfl⟩ := stands.declared unnamed hi own
    refine .bind Reach.lookup_keeps fun found => ?_
    split
    · exact .pure _
    · split
      · next known => exact enterNamed_assigns hfill declared known
      · split
        · exact placeholder_assigns hfill
        · exact .throw _
  split
  · exact placeholder_assigns hfill
  next complex =>
  split
  · exact .throw _
  refine .bind Reach.lookup_keeps fun found => ?_
  split
  · refine .bind_get fun t => ?_
    split
    · exact .pure _
    · exact .throw _
  · cases stands with
    | inline mentioned placed =>
      intro t ht
      rw [ends_bind]
      refine ends_iff.2 ⟨fun id u reserved => ?_, fun e u full => ?_⟩
      · obtain ⟨types, new, rfl⟩ := yields_reserve reserved
        rw [ends_bind, ends_modify, ends_bind]
        exact hfill.entering ht (enters_of_reserve mentioned placed (Bool.eq_false_iff.2 complex) new)
      · rw [((reserve_ends _ _ t).fault full).1]
        exact ht

theorem fillTo_assigns (depth : Nat) : Assigning c (fillTo c depth) := by
  induction depth with
  | zero => exact fun _ _ _ _ _ => .throw _
  | succ depth ih =>
    intro s id d site owned
    exact Reach.fillWith_keeps (fun _ _ _ => resolveType_assigns unnamed hi ih) (stable_assigns unnamed) ⟨site, owned⟩
      ⟨owned.mentions, owned.groupAt⟩

theorem fillLeaves_assigns {depth : Nat} {x : ComplexDef} {layout : Layout} {owner key : String}
    {leaves : List (Option String × Leaf)} (owned : s.Owned c id d site) (hx : d.complex? = some x)
    (hlayout : c.set.layout key [] site x = .ok layout) (within : ∀ leaf ∈ leaves, leaf.2 ∈ layout.leaves) :
    Keeps (s.Assigns c) (fillLeaves c (resolveType c (fillTo c depth)) id d site owner leaves) := by
  have asks : ∀ d site context, (ResolveContext.standing unnamed).asked d site context →
      Keeps (s.Assigns c) (resolveType c (fillTo c depth) d site context) := fun _ _ _ =>
    resolveType_assigns unnamed hi (fillTo_assigns unnamed hi depth)
  have stable := stable_assigns (s := s) unnamed
  refine .bind (.bind_ofExcept fun list hlist => .bind (.forM fun entry listed => ?_) fun _ => ?_) fun _ =>
    .foldlM fun leaf listed _ => ?_
  · refine Reach.fillAttribute_keeps asks stable ⟨site, owned⟩ fun e inline => ?_
    obtain ⟨name, r⟩ := entry
    obtain rfl : r = .inline e := inline
    exact DeclarationSet.stands_of_attribute owned.mentions hlist listed
  · exact stable.filling _ ⟨site, owned⟩ (fun _ => ⟨rfl, fun simple => simple⟩) fun _ _ => rfl
  · refine Reach.addLeaf_keeps asks stable fun decl place occurs same => ?_
    exact owned.standsElement hx hlayout (same ▸ within leaf listed)

omit unnamed in
theorem entry_of_typed {depth : Nat} {i : TypeId} {b : TypeDef} {x : ComplexDef} {layout : Layout} {owner key : String}
    {before : List (Option String × Leaf)} {found : Found} {place : Site} {base : QName} {r : TypeRef}
    (apart : c.set.KeysApart) (assigned : s.Assigned c) (owned : s.Owned c id d site) (hx : d.complex? = some x)
    (hlayout : c.set.layout key [] site x = .ok layout) (within : ∀ leaf ∈ before, leaf.2 ∈ layout.leaves)
    (added : Yields (fillLeaves c (resolveType c (fillTo c depth)) id d site owner before) s found t)
    (typed : r = .named base) (declared : c.set.type? base = some b) (complex : b.isSimple = false)
    (h : Yields (resolveRef c (resolveType c (fillTo c depth)) place context r) t (some i) u) :
    ∃ type, u.types.get? i = some type ∧ type.name = base ∧ type.isAbstract = b.isAbstract ∧
      type.isSimple = false := by
  subst typed
  obtain ⟨_, h, same⟩ := yields_map.1 h
  cases same
  have filled : s.Assigns c t :=
    (fillLeaves_assigns apart.unnamed hi owned hx hlayout within s ⟨.refl 0 s, assigned⟩).answer added
  have asked : s.Assigns c u := (Reach.resolveNamed_keeps (R := ResolveContext.standing apart.unnamed)
    (fun _ _ _ => resolveType_assigns apart.unnamed hi (fillTo_assigns apart.unnamed hi depth)) t filled).answer h
  exact complex_of_resolveNamed apart hi declared complex h asked.assigned

end Standing

section Requests

variable {c : ResolveContext} (unnamed : ∀ d context, Mention.inline d context ∈ c.set.mentions → d.name = none)
  (hi : c.set.Indexed)
include unnamed hi

theorem resolve_assigned {d : TypeDef} {site : Site} {context : Option QName} (stands : c.set.Stands d site context) :
    Keeps (Assigned c) (c.resolve d site context) :=
  keeps_of_assigns fun _ => resolveType_assigns unnamed hi (fillTo_assigns unnamed hi _) stands

theorem resolveName_assigned {name : QName} : Keeps (Assigned c) (c.resolveName name) :=
  .bind_ofExcept fun _ declared => resolve_assigned unnamed hi (.named (DeclarationSet.type_eq_ok_iff.1 declared))

theorem load_assigned (a : Load) : Keeps (Assigned c) (c.load a) := by
  cases a with
  | type name => exact .map _ (resolveName_assigned unnamed hi)
  | element name =>
    refine .bind_ofExcept fun decl declared => .bind_get fun _ => .bind (keeps_of_assigns fun s => ?_) fun _ => ?_
    · exact Reach.addElement_keeps (fun _ _ _ => resolveType_assigns unnamed hi (fillTo_assigns unnamed hi _))
        (stable_assigns unnamed) (DeclarationSet.standsElement_of_element? (DeclarationSet.element_eq_ok_iff.1 declared))
    · exact .modify fun _ hs => hs.of_eq rfl rfl

theorem answer_assigned {r : Request}
    (within : ∀ d site context, r = .definition d site context → c.set.Stands d site context) :
    Keeps (Assigned c) (c.answer r) := by
  cases r with
  | all =>
    refine .bind ?_ fun _ => .pure _
    rw [resolveAll_eq_forM]
    exact .forM fun a _ => load_assigned unnamed hi a
  | named name => exact .map _ (resolveName_assigned unnamed hi)
  | definition d site context => exact .map _ (resolve_assigned unnamed hi (within d site context rfl))

/-- Wherever requests for definitions of the set lead to, also failing ones, the entries belong to definitions. -/
theorem assigned_stateAfter {requests : List Request}
    (within : ∀ d site context, .definition d site context ∈ requests → c.set.Stands d site context) :
    (c.stateAfter requests).Assigned c := by
  have fresh : c.fresh.Assigned c :=
    Ends.left ((Keeps.forM fun _ _ => .map _ (resolveName_assigned unnamed hi)) .empty fun _ => nofun)
  exact List.foldlRecOn requests c.next fresh fun s hs r listed =>
    Ends.left (answer_assigned unnamed hi (fun d site context same => within d site context (same ▸ listed)) s hs)

theorem owned_of_reserve_stateAfter {requests : List Request} {name : QName} {d : TypeDef} {id : TypeId}
    {s : ResolveState} (within : ∀ d site context, .definition d site context ∈ requests → c.set.Stands d site context)
    (declared : c.set.type? name = some d) (known : c.isKnown name = true)
    (h : Yields (Resolve.reserve name d.isAbstract) (c.stateAfter requests) id s) :
    s.Assigned c ∧ s.Owned c id d (siteOfType name) :=
  have entered := enters_of_yields_reserve declared known h
  ⟨entered.assigned (assigned_stateAfter unnamed hi within), entered.owned⟩

end Requests

end SchemaGraph
