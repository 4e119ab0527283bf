import SchemaGraph.Proofs.Resolution.Content

/-! What filling an entry comes to.  The attributes come first, then the items of the plan of the content, and then
there is the fault of the plan, if it has one; all other faults come from the attributes and from the items. -/
namespace SchemaGraph

open Stateful

section Filling

def TypeEntry.withAnyAttribute (anyAttribute : Bool) (t : TypeEntry) : TypeEntry := { t with anyAttribute }

def fillAttributes (c : ResolveContext) (resolve : ResolveType) (id : TypeId) (d : TypeDef) (site : Site) :
    Resolve Unit := do
  let list ← ofExcept (c.set.inheritedAttributes [] d)
  list.attributes.forM (fillAttribute c resolve id site)
  Resolve.modifyType id (TypeEntry.withAnyAttribute list.anyAttribute)

/-- Fills in the attributes of an entry and adds items of its content. -/
def fillLeaves (c : ResolveContext) (resolve : ResolveType) (id : TypeId) (d : TypeDef) (site : Site)
    (owner : String) (leaves : List (Option String × Leaf)) : Resolve Found := do
  fillAttributes c resolve id d site
  addLeaves c resolve owner ⟨∅, none⟩ leaves

variable {c : ResolveContext} {resolve : ResolveType} {id : TypeId} {d : TypeDef} {x : ComplexDef} {site : Site}
  {type : TypeEntry} {layout : Layout} {owner : String} {s t : ResolveState} {e : ResolveError}

theorem fillWith_eq (hd : d.isSimple = false) (hx : d.complex? = some x) :
    fillWith c resolve id d site =
      fillAttributes c resolve id d site >>= fun _ => fillComplex c resolve id x site := by
  unfold fillWith fillAttributes
  simp only [bind_assoc, hd, hx, Bool.false_eq_true, if_false]
  rfl

theorem fillAttributes_keeps {I : ResolveState → Prop} {P : TypeId → Prop}
    (hresolve : ∀ d site context, Keeps I (resolve d site context)) (stable : Stable I P) (hid : P id) :
    Keeps I (fillAttributes c resolve id d site) := by
  refine .bind (.ofExcept _) fun list => .bind (.forM fun _ _ => fillAttribute_keeps hresolve stable hid) fun _ => ?_
  exact stable.filling _ hid fun _ => ⟨rfl, fun simple => simple⟩

theorem fillLeaves_keeps {I : ResolveState → Prop} {P : TypeId → Prop}
    (hresolve : ∀ d site context, Keeps I (resolve d site context)) (stable : Stable I P) (hid : P id)
    {leaves : List (Option String × Leaf)} : Keeps I (fillLeaves c resolve id d site owner leaves) :=
  .bind (fillAttributes_keeps hresolve stable hid) fun _ => .foldlM fun _ _ _ => addLeaf_keeps hresolve stable

theorem yields_fillLeaves_iff {found : Found} {leaves : List (Option String × Leaf)} :
    Yields (fillLeaves c resolve id d site owner leaves) s found t ↔ ∃ u,
      Yields (fillAttributes c resolve id d site) s () u ∧
        Through (LeafAdded c resolve owner) leaves (⟨∅, none⟩, u) (found, t) := by
  simp only [fillLeaves, yields_bind, yields_addLeaves_iff]
  exact ⟨fun ⟨_, u, h⟩ => ⟨u, h⟩, fun ⟨u, h⟩ => ⟨(), u, h⟩⟩

theorem fillLeaves_append (l l' : List (Option String × Leaf)) :
    fillLeaves c resolve id d site owner (l ++ l') =
      fillLeaves c resolve id d site owner l >>= fun found => addLeaves c resolve owner found l' := by
  simp only [fillLeaves, addLeaves_append, bind_assoc]

theorem exists_leafAdded_of_fillLeaves {before after : List (Option String × Leaf)} {leaf : Option String × Leaf}
    {found : Found} (h : Yields (fillLeaves c resolve id d site owner (before ++ leaf :: after)) s found t) :
    ∃ p q : Found × ResolveState, Yields (fillLeaves c resolve id d site owner before) s p.1 p.2 ∧
      LeafAdded c resolve owner leaf p q ∧ Through (LeafAdded c resolve owner) after q (found, t) := by
  obtain ⟨u, attributes, through⟩ := yields_fillLeaves_iff.1 h
  obtain ⟨p, first, through⟩ := Through.append_iff.1 through
  obtain ⟨q, added, rest⟩ := Through.cons_iff.1 through
  exact ⟨p, q, yields_fillLeaves_iff.2 ⟨u, attributes, first⟩, added, rest⟩

/-- A complex type has been filled with its attributes, then with the items of its content from left to right, and
the content has been put into the entry at the end. -/
theorem exists_filled
    (hresolve : ∀ {s : ResolveState} d site context, Keeps (s.Grows 0) (resolve d site context))
    (hd : d.isSimple = false) (h : Yields (fillWith c resolve id d site) s () t) :
    ∃ (x : ComplexDef) (layout : Layout) (entry before : TypeEntry) (found : Found) (u v : ResolveState),
      d.complex? = some x ∧ c.set.layout entry.key [] site x = .ok layout ∧
      Yields (fillAttributes c resolve id d site) s () u ∧
      Through (LeafAdded c resolve entry.key) (layout.namedLeaves c entry.key) (⟨∅, none⟩, u) (found, v) ∧
      Yields (Resolve.modifyType id (TypeEntry.withContent layout found)) v () t ∧
      t.types.get? id = some entry ∧ entry = before.withContent layout found := by
  obtain ⟨x, hx⟩ := TypeDef.exists_complex? hd
  rw [fillWith_eq hd hx] at h
  obtain ⟨_, u, attributes, h⟩ := yields_bind.1 h
  have content : u.Grows 0 t := (fillComplex_grows hresolve (Nat.zero_le _) u (.refl 0 u)).answer h
  obtain ⟨old, layout, found, v, hold, hlayout, through, last⟩ := leavesAdded_of_fillComplex h
  obtain ⟨has, rfl⟩ := yields_modifyType.1 last
  obtain ⟨before, hbefore⟩ := Option.isSome_iff_exists.1 has
  have filled := Registry.get?_modify_self (f := TypeEntry.withContent layout found) (by intro _; rfl) hbefore
  have key : old.key = (before.withContent layout found).key := (content.key_eq hold filled).symm
  rw [key] at hlayout through
  exact ⟨x, layout, _, before, found, u, v, hx, hlayout, attributes, through, last, filled, rfl⟩

variable (hresolve : ∀ d site context, Keeps (s.Grows 0) (resolve d site context)) (hd : d.isSimple = false)
  (hx : d.complex? = some x) (entry : s.types.get? id = some type)
  (hlayout : c.set.layout type.key [] site x = .ok layout)
include hresolve hd hx entry hlayout

/-- Filling a complex type adds the items of the plan, and then there is the fault of the plan or the content is
put into the entry. -/
theorem exec_fillWith : exec (fillWith c resolve id d site) s = exec (do
    let found ← fillLeaves c resolve id d site type.key (layout.plan c type.key).leaves
    match (layout.plan c type.key).fault with
    | none => Resolve.modifyType id (TypeEntry.withContent layout found)
    | some e => throw e) s := by
  rw [fillWith_eq hd hx, fillLeaves, bind_assoc, exec_bind, exec_bind]
  rcases attributes : exec (fillAttributes c resolve id d site) s with ⟨_ | _, u⟩
  · rfl
  have grows : s.Grows 0 u :=
    (fillAttributes_keeps hresolve stable_grows (Nat.zero_le _) s (.refl 0 s)).answer attributes
  obtain ⟨type', entry', -⟩ := grows.get?_head entry
  have key : type'.key = type.key := grows.key_eq entry entry'
  dsimp only
  rw [fillComplex_eq, exec_bind, show exec (Resolve.entryAt id) u = _ from yields_entryAt.2 ⟨entry', rfl⟩]
  dsimp only
  rw [key, hlayout]
  change exec ((layout.plan c type.key).run c resolve type.key ⟨∅, none⟩ >>= _) u = _
  rw [Plan.run, bind_assoc]
  cases (layout.plan c type.key).fault <;> rfl

theorem yields_fillWith_iff : Yields (fillWith c resolve id d site) s () t ↔
    (layout.plan c type.key).fault = none ∧
      ∃ found v, Yields (fillLeaves c resolve id d site type.key (layout.plan c type.key).leaves) s found v ∧
        Yields (Resolve.modifyType id (TypeEntry.withContent layout found)) v () t := by
  rw [Yields, exec_fillWith hresolve hd hx entry hlayout]
  change Yields _ s () t ↔ _
  rw [yields_bind]
  cases (layout.plan c type.key).fault <;> simp

theorem fails_fillWith_iff : Fails (fillWith c resolve id d site) s e t ↔
    Fails (fillLeaves c resolve id d site type.key (layout.plan c type.key).leaves) s e t ∨
      (layout.plan c type.key).fault = some e ∧
        ∃ found, Yields (fillLeaves c resolve id d site type.key (layout.plan c type.key).leaves) s found t := by
  rw [Fails, exec_fillWith hresolve hd hx entry hlayout]
  change Fails _ s e t ↔ _
  rw [fails_bind]
  refine or_congr_right ?_
  cases (layout.plan c type.key).fault with
  | some e' =>
    simp only [fails_throw, Option.some.injEq]
    constructor
    · rintro ⟨found, v, added, rfl, rfl⟩
      exact ⟨rfl, found, added⟩
    · rintro ⟨rfl, found, added⟩
      exact ⟨found, t, added, rfl, rfl⟩
  | none =>
    -- The entry is still there when the content is put into it.
    simp only [reduceCtorEq, false_and, iff_false]
    rintro ⟨found, v, added, fails⟩
    have grows := (fillLeaves_keeps hresolve stable_grows (Nat.zero_le _) s (.refl 0 s)).answer added
    obtain ⟨type', entry', -⟩ := grows.get?_head entry
    have there : (v.types.get? id).isSome = true := by rw [entry']; rfl
    exact Yields.not_fails (a := ()) (yields_modifyType.2 ⟨there, rfl⟩) fails

section Blocked

variable {before after : List (Option String × Leaf)} {leaf : Option String × Leaf}
  (split : layout.namedLeaves c type.key = before ++ leaf :: after)
  (blocked : ∀ p q : Found × ResolveState, Yields (fillLeaves c resolve id d site type.key before) s p.1 p.2 →
    ¬ LeafAdded c resolve type.key leaf p q)
include split blocked

theorem not_yields_of_blocked : ¬ Yields (fillWith c resolve id d site) s () t := by
  intro h
  obtain ⟨fault, found, v, added, -⟩ := (yields_fillWith_iff hresolve hd hx entry hlayout).1 h
  rw [Layout.leaves_plan_of_fault fault, split] at added
  obtain ⟨p, q, first, added, -⟩ := exists_leafAdded_of_fillLeaves added
  exact blocked p q first added

theorem fails_of_blocked (h : Fails (fillWith c resolve id d site) s e t) :
    (∃ t', Fails (fillLeaves c resolve id d site type.key before) s e t') ∨
      (layout.plan c type.key).fault = some e ∧ (layout.plan c type.key).leaves <+: before ∨
      ∃ found u, Yields (fillLeaves c resolve id d site type.key before) s found u ∧
        Fails (addLeaf c resolve leaf.1 type.key found leaf.2) u e t := by
  have walked := layout.leaves_plan_prefix c type.key
  rw [split] at walked
  have fails := (fails_fillWith_iff hresolve hd hx entry hlayout).1 h
  rcases prefix_or_of_prefix walked with early | ⟨more, leaves⟩
  · rcases fails with fails | ⟨fault, -⟩
    · obtain ⟨rest, whole⟩ := early
      refine .inl ⟨t, ?_⟩
      rw [← whole, fillLeaves_append]
      exact fails_bind.2 (.inl fails)
    · exact .inr (.inl ⟨fault, early⟩)
  · rw [leaves] at fails
    rcases fails with fails | ⟨-, found, added⟩
    · rw [fillLeaves_append] at fails
      rcases fails_bind.1 fails with fails | ⟨found, u, first, fails⟩
      · exact .inl ⟨t, fails⟩
      rw [addLeaves, List.foldlM_cons] at fails
      rcases fails_bind.1 fails with fails | ⟨found', v, added, -⟩
      · exact .inr (.inr ⟨found, u, first, fails⟩)
      · exact absurd added (blocked (found, u) (found', v) first)
    · obtain ⟨p, q, first, added, -⟩ := exists_leafAdded_of_fillLeaves added
      exact absurd added (blocked p q first)

end Blocked

end Filling

/-- Whether a complex type that has the entry `id` passes a test on its entry and its layout. -/
def DeclarationSet.testLayout (set : DeclarationSet) (name : QName) (s : ResolveState) (id : TypeId)
    (p : TypeDef → ComplexDef → TypeEntry → Layout → Bool) : Bool :=
  (set.type? name).any fun d => !d.isSimple && d.complex?.any fun x => (s.types.get? id).any fun type =>
    (set.layout type.key [] (siteOfType name) x).toOption.any (p d x type)

theorem DeclarationSet.exists_of_testLayout {set : DeclarationSet} {name : QName} {s : ResolveState} {id : TypeId}
    {p : TypeDef → ComplexDef → TypeEntry → Layout → Bool} (h : set.testLayout name s id p = true) :
    ∃ d x type layout, set.type? name = some d ∧ d.isSimple = false ∧ d.complex? = some x ∧
      s.types.get? id = some type ∧ set.layout type.key [] (siteOfType name) x = .ok layout ∧
      p d x type layout = true := by
  obtain ⟨d, declared, h⟩ := (Option.any_eq_true _ _).1 h
  rw [Bool.and_eq_true, Bool.not_eq_true'] at h
  obtain ⟨complex, h⟩ := h
  obtain ⟨x, hx, h⟩ := (Option.any_eq_true _ _).1 h
  obtain ⟨type, entry, h⟩ := (Option.any_eq_true _ _).1 h
  obtain ⟨layout, hlayout, h⟩ := exists_eq_ok_of_any h
  exact ⟨d, x, type, layout, declared, complex, hx, entry, hlayout, h⟩

end SchemaGraph
