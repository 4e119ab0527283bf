import Mathlib.Logic.Relation
import SchemaGraph.Hierarchy
import SchemaGraph.Proofs.Linking.Built

/-! Which types extend which, in one or more steps.  The hierarchy lists under each type exactly the declared
types from which extensions lead to it, in declaration order, also where extensions come back to themselves. -/
namespace SchemaGraph

open Relation

namespace DeclarationSet

variable {s : DeclarationSet} {seen : List QName} {name base : QName} {d : TypeDef}

def ExtendsType (s : DeclarationSet) (name base : QName) : Prop :=
  ∃ d, s.type? name = some d ∧ d.extensionBase? = some base

theorem extensionBase?_of_builtinType? (h : builtinType? name = some d) : d.extensionBase? = none := by
  unfold builtinType? at h
  split at h
  · split at h
    · cases h
      rfl
    · obtain ⟨p, -, rfl⟩ := Option.map_eq_some_iff.1 h
      rfl
  · cases h

theorem ExtendsType.mem_keys (h : s.ExtendsType name base) : name ∈ s.types.keys := by
  obtain ⟨d, found, derived⟩ := h
  rw [OrderedMap.mem_keys_iff, OrderedMap.contains]
  unfold type? at found
  cases declared : s.types.get? name with
  | some d => rfl
  | none =>
    rw [declared] at found
    cases (extensionBase?_of_builtinType? found).symm.trans derived

section Equations

theorem ancestors_of_none (none : d.extensionBase? = none) : s.ancestors seen d = [] := by
  rw [ancestors.eq_def, none]

theorem ancestors_of_mem (derived : d.extensionBase? = some base) (back : base ∈ seen) :
    s.ancestors seen d = [] := by
  rw [ancestors.eq_def, derived]
  simp [back]

theorem ancestors_of_not_mem (derived : d.extensionBase? = some base) (new : base ∉ seen) :
    s.ancestors seen d = base :: (s.type? base).elim [] (s.ancestors (base :: seen)) := by
  rw [ancestors.eq_def, derived]
  simp only [new, dite_false]
  cases s.type? base <;> rfl

end Equations

theorem reflTransGen_of_mem_ancestors (h : base ∈ s.ancestors seen d) :
    ∃ first, d.extensionBase? = some first ∧ ReflTransGen s.ExtendsType first base := by
  induction seen, d using ancestors.induct s with
  | case1 seen d none =>
    rw [ancestors_of_none none] at h
    cases h
  | case2 seen d first derived back =>
    rw [ancestors_of_mem derived back] at h
    cases h
  | case3 seen d first derived new ih =>
    rw [ancestors_of_not_mem derived new] at h
    refine ⟨first, derived, ?_⟩
    rcases List.mem_cons.1 h with rfl | h
    · exact .refl
    · cases known : s.type? first with
      | none =>
        rw [known] at h
        cases h
      | some next =>
        rw [known] at h
        obtain ⟨second, derived', way⟩ := ih next known h
        exact .head ⟨next, known, derived'⟩ way

/-- If the steps from `seen` stay in `seen` or go to the base of `d`, then no step leads out of `seen` and the
ancestors of `d`. -/
theorem closed_ancestors
    (way : ∀ name ∈ seen, ∀ base, s.ExtendsType name base → base ∈ seen ∨ d.extensionBase? = some base) :
    (∀ base, d.extensionBase? = some base → base ∈ s.ancestors seen d ++ seen) ∧
      ∀ name ∈ s.ancestors seen d ++ seen, ∀ base, s.ExtendsType name base →
        base ∈ s.ancestors seen d ++ seen := by
  induction seen, d using ancestors.induct s with
  | case1 seen d none =>
    rw [ancestors_of_none none]
    refine ⟨fun base h => ?_, fun name hname base step => (way name hname base step).resolve_right fun h => ?_⟩
    all_goals cases none.symm.trans h
  | case2 seen d first derived back =>
    rw [ancestors_of_mem derived back]
    refine ⟨fun base h => ?_, fun name hname base step => (way name hname base step).elim id fun h => ?_⟩
    all_goals
      obtain rfl := Option.some.inj (derived.symm.trans h)
      exact back
  | case3 seen d first derived new ih =>
    rw [ancestors_of_not_mem derived new]
    have only : ∀ {base}, d.extensionBase? = some base → base = first := fun h =>
      Option.some.inj (h.symm.trans derived)
    have earlier : ∀ name ∈ seen, ∀ base, s.ExtendsType name base → base ∈ first :: seen :=
      fun name hname base step => List.mem_cons.2 ((way name hname base step).symm.imp only id)
    -- The ancestors beyond `first` are those of its definition, with `first` on the side of `seen`.
    have beyond : ∀ name ∈ (s.type? first).elim [] (s.ancestors (first :: seen)) ++ first :: seen,
        ∀ base, s.ExtendsType name base →
          base ∈ (s.type? first).elim [] (s.ancestors (first :: seen)) ++ first :: seen := by
      cases known : s.type? first with
      | none =>
        intro name hname base step
        rcases List.mem_cons.1 hname with rfl | hname
        · obtain ⟨_, known', -⟩ := step
          cases known.symm.trans known'
        · exact earlier name hname base step
      | some next =>
        refine (ih next known fun name hname base step => ?_).2
        rcases List.mem_cons.1 hname with rfl | hname
        · obtain ⟨_, known', derived'⟩ := step
          obtain rfl := Option.some.inj (known'.symm.trans known)
          exact .inr derived'
        · exact .inl (earlier name hname base step)
    have same : ∀ {l : List QName} {name}, name ∈ (first :: l) ++ seen ↔ name ∈ l ++ first :: seen :=
      List.perm_middle.symm.mem_iff
    refine ⟨fun base h => ?_, fun name hname base step => same.2 (beyond name (same.1 hname) base step)⟩
    rw [only h]
    exact List.mem_cons_self

theorem mem_ancestors_iff :
    base ∈ s.ancestors [] d ↔
      ∃ first, d.extensionBase? = some first ∧ ReflTransGen s.ExtendsType first base := by
  refine ⟨reflTransGen_of_mem_ancestors, ?_⟩
  rintro ⟨first, derived, way⟩
  have closed := closed_ancestors (s := s) (d := d) fun _ h => absurd h List.not_mem_nil
  rw [List.append_nil] at closed
  induction way with
  | refl => exact closed.1 first derived
  | tail _ step ih => exact closed.2 _ ih _ step

theorem mem_ancestors_iff_transGen (found : s.type? name = some d) :
    base ∈ s.ancestors [] d ↔ TransGen s.ExtendsType name base := by
  rw [mem_ancestors_iff, TransGen.head'_iff]
  constructor
  · rintro ⟨first, derived, way⟩
    exact ⟨first, ⟨d, found, derived⟩, way⟩
  · rintro ⟨first, ⟨d', found', derived⟩, way⟩
    obtain rfl := Option.some.inj (found'.symm.trans found)
    exact ⟨first, derived, way⟩

theorem nodup_ancestors : (s.ancestors seen d).Nodup ∧ ∀ name ∈ s.ancestors seen d, name ∉ seen := by
  induction seen, d using ancestors.induct s with
  | case1 seen d none =>
    rw [ancestors_of_none none]
    simp
  | case2 seen d first derived back =>
    rw [ancestors_of_mem derived back]
    simp
  | case3 seen d first derived new ih =>
    rw [ancestors_of_not_mem derived new]
    cases known : s.type? first with
    | none => simp [new]
    | some next =>
      obtain ⟨distinct, away⟩ := ih next known
      refine ⟨List.nodup_cons.2 ⟨fun h => away first h List.mem_cons_self, distinct⟩, ?_⟩
      refine List.forall_mem_cons.2 ⟨new, fun name h hs => ?_⟩
      exact away name h (List.mem_cons_of_mem _ hs)

end DeclarationSet

namespace ClassHierarchy

variable {s : DeclarationSet} {name base : QName}

theorem getD_foldl_record (name base : QName) {l : List QName} (distinct : l.Nodup)
    (below : OrderedMap QName (List QName)) :
    ((l.foldl (record name) below).get? base).getD [] =
      (below.get? base).getD [] ++ if base ∈ l then [name] else [] := by
  induction l generalizing below with
  | nil => simp
  | cons first rest ih =>
    obtain ⟨new, distinct⟩ := List.nodup_cons.1 distinct
    rw [List.foldl_cons, ih distinct, record, OrderedMap.get?_insert]
    by_cases h : base = first
    · subst h
      simp [new]
    · simp [h]

theorem getD_foldl_ancestors (s : DeclarationSet) (base : QName) (l : List (QName × TypeDef))
    (below : OrderedMap QName (List QName)) :
    ((l.foldl (fun below (name, d) => (s.ancestors [] d).foldl (record name) below) below).get? base).getD [] =
      (below.get? base).getD [] ++ (l.filter fun e => base ∈ s.ancestors [] e.2).map (·.1) := by
  induction l generalizing below with
  | nil => simp
  | cons e rest ih =>
    obtain ⟨name, d⟩ := e
    rw [List.foldl_cons, ih, getD_foldl_record name base DeclarationSet.nodup_ancestors.1, List.filter_cons]
    by_cases h : base ∈ s.ancestors [] d <;> simp [h]

theorem descendants_ofSet (s : DeclarationSet) (base : QName) :
    (ofSet s).descendants base =
      (s.types.entries.filter fun e => base ∈ s.ancestors [] e.2).map (·.1) :=
  getD_foldl_ancestors s base s.types.entries ∅

theorem mem_descendants_iff : name ∈ (ofSet s).descendants base ↔ TransGen s.ExtendsType name base := by
  rw [descendants_ofSet]
  have found : ∀ {d}, (name, d) ∈ s.types.entries → s.type? name = some d := by
    intro d h
    rw [OrderedMap.mem_entries_iff] at h
    rw [DeclarationSet.type?, h]
    rfl
  constructor
  · intro h
    obtain ⟨⟨name, d⟩, h', rfl⟩ := List.mem_map.1 h
    obtain ⟨listed, above⟩ := List.mem_filter.1 h'
    rw [← DeclarationSet.mem_ancestors_iff_transGen (found listed)]
    simpa using above
  · intro above
    obtain ⟨_, first, -⟩ := TransGen.head'_iff.1 above
    obtain ⟨⟨name, d⟩, entry, rfl⟩ := List.mem_map.1 first.mem_keys
    refine List.mem_map.2 ⟨(name, d), List.mem_filter.2 ⟨entry, ?_⟩, rfl⟩
    simpa using (DeclarationSet.mem_ancestors_iff_transGen (found entry)).2 above

end ClassHierarchy

end SchemaGraph
