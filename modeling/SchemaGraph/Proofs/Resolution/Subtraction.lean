import SchemaGraph.Proofs.Resolution.Inheritance

/-! What a choice keeps when inherited members are taken out.  The subtraction is a difference of multisets:
of equal members the first ones go, as many as are inherited, and the others stay in their order. -/
namespace SchemaGraph

variable {α : Type} [BEq α]

/-- A list without the first `n x` of the elements that equal `x`. -/
def withoutFirst (n : α → Nat) (l : List α) : List α :=
  (l.zipIdx.filter fun (x, i) => n x ≤ (l.take i).count x).map (·.1)

theorem withoutFirst_cons (n : α → Nat) (x : α) (l : List α) :
    withoutFirst n (x :: l) =
      (if n x = 0 then [x] else []) ++ withoutFirst (fun y => n y - if (x == y) = true then 1 else 0) l := by
  have behind : (l.zipIdx (0 + 1)).filter (fun (y, i) => n y ≤ ((x :: l).take i).count y) =
      (l.zipIdx.filter fun (y, i) => n y - (if (x == y) = true then 1 else 0) ≤ (l.take i).count y).map
        fun (y, i) => (y, 0 + 1 + i) := by
    rw [List.zipIdx_eq_map_add, List.filter_map]
    congr 1
    apply List.filter_congr
    rintro ⟨y, i⟩ -
    simp only [Function.comp_apply, Nat.zero_add, Nat.add_comm 1 i, List.take_succ_cons, List.count_cons,
      Nat.sub_le_iff_le_add]
  unfold withoutFirst
  rw [List.zipIdx_cons, List.filter_cons, behind]
  by_cases none : n x = 0 <;> simp [none, Function.comp_def]

theorem withoutFirst_congr {n n' : α → Nat} {l : List α}
    (h : ∀ x i, l[i]? = some x → (n x ≤ (l.take i).count x ↔ n' x ≤ (l.take i).count x)) :
    withoutFirst n l = withoutFirst n' l := by
  unfold withoutFirst
  congr 1
  apply List.filter_congr
  rintro ⟨x, i⟩ found
  simpa using h x i (List.mem_zipIdx_iff_getElem?.1 found)

variable [EquivBEq α]

theorem count_take_lt {x : α} {i : Nat} {l : List α} (h : l[i]? = some x) : (l.take i).count x < l.count x := by
  obtain ⟨inside, here⟩ := List.getElem?_eq_some_iff.1 h
  have cut : l = l.take i ++ x :: l.drop (i + 1) := by
    rw [← here, List.getElem_cons_drop, List.take_append_drop]
  calc (l.take i).count x
      < (l.take i).count x + ((l.drop (i + 1)).count x + 1) := by omega
    _ = (l.take i ++ x :: l.drop (i + 1)).count x := by rw [List.count_append, List.count_cons, if_pos BEq.rfl]
    _ = l.count x := by rw [← cut]

theorem count_eq_countP_beq (x : α) (l : List α) : l.count x = l.countP (x == ·) := by
  rw [List.count_eq_countP]
  exact List.countP_congr fun y _ => by rw [BEq.comm]

theorem count_erase_equal (x y : α) (l : List α) :
    (l.erase x).count y = l.count y - if (x == y) = true then 1 else 0 := by
  rw [count_eq_countP_beq, count_eq_countP_beq, countP_erase, BEq.comm]

/-- Along the first list: an inherited element goes, together with the one it is inherited from. -/
theorem subtractInherited_cons (x : α) (merged inherited : List α) :
    subtractInherited (x :: merged) inherited =
      if inherited.count x = 0 then x :: subtractInherited merged inherited
      else subtractInherited merged (inherited.erase x) := by
  unfold subtractInherited
  induction inherited generalizing merged with
  | nil => rfl
  | cons b rest ih =>
    rw [List.foldl_cons, List.erase_cons, List.count_cons, List.erase_cons, BEq.comm]
    by_cases same : (b == x) = true
    · simp [same]
    · simp only [same, Bool.false_eq_true, if_false, Nat.add_zero, List.foldl_cons]
      exact ih (merged.erase b)

theorem subtractInherited_eq (merged inherited : List α) :
    subtractInherited merged inherited = withoutFirst (fun x => inherited.count x) merged := by
  induction merged generalizing inherited with
  | nil =>
    exact List.sublist_nil.1 (subtractInherited_sublist [] inherited)
  | cons x merged ih =>
    rw [subtractInherited_cons, withoutFirst_cons]
    by_cases none : inherited.count x = 0
    · have still : (fun y => inherited.count y - if (x == y) = true then 1 else 0) = fun y => inherited.count y := by
        funext y
        split
        · next same =>
          have alike : inherited.count y = inherited.count x := by
            rw [List.count_eq_countP, List.count_eq_countP]
            exact List.countP_congr fun z _ => by rw [BEq.congr_right same]
          omega
        · rfl
      rw [if_pos none, if_pos none, still, ih]
      rfl
    · have fewer : (fun y => (inherited.erase x).count y) =
          fun y => inherited.count y - if (x == y) = true then 1 else 0 :=
        funext fun y => count_erase_equal x y inherited
      rw [if_neg none, if_neg none, ih, fewer]
      rfl

/-- Whatever is taken for equality, as long as it is an equivalence: each element stays as often as it stands in the
first list more than in the second, the first ones go, in the order of the second list or in any other, and all is
inherited just if no element stands in the first list more often than in the second. -/
theorem subtractInherited_exact (merged inherited : List α) :
    (∀ x, (subtractInherited merged inherited).count x = merged.count x - inherited.count x) ∧
      subtractInherited merged inherited =
        withoutFirst (fun x => min (merged.count x) (inherited.count x)) merged ∧
      (∀ reordered, inherited.Perm reordered →
        subtractInherited merged reordered = subtractInherited merged inherited) ∧
      ((subtractInherited merged inherited).isEmpty = true ↔ ∀ x, merged.count x ≤ inherited.count x) ∧
      (remainder merged inherited = .fullyInherited ↔ ∀ x, merged.count x ≤ inherited.count x) ∧
      ∀ rest, remainder merged inherited = .remaining rest ↔
        rest ≠ [] ∧ subtractInherited merged inherited = rest := by
  have counts (x : α) : (subtractInherited merged inherited).count x = merged.count x - inherited.count x := by
    rw [count_eq_countP_beq, countP_subtractInherited, ← count_eq_countP_beq, ← count_eq_countP_beq]
  have nothing : subtractInherited merged inherited = [] ↔ ∀ x, merged.count x ≤ inherited.count x := by
    constructor
    · intro none x
      have left := counts x
      rw [none, List.count_nil] at left
      omega
    · intro covered
      rw [List.eq_nil_iff_forall_not_mem]
      intro x left
      have some : 0 < (subtractInherited merged inherited).count x := by
        rw [List.count_eq_countP]
        exact List.countP_pos_iff.2 ⟨x, left, BEq.rfl⟩
      have none := counts x
      have few := covered x
      omega
  refine ⟨counts, ?_, fun reordered same => ?_, List.isEmpty_iff.trans nothing,
    remainder_eq_fullyInherited_iff.trans nothing, fun rest => remainder_eq_remaining_iff⟩
  · rw [subtractInherited_eq]
    apply withoutFirst_congr
    intro x i here
    have inside := count_take_lt here
    omega
  · rw [subtractInherited_eq, subtractInherited_eq]
    exact congrArg (withoutFirst · merged) (funext fun x => (same.count_eq x).symm)

theorem subtractInherited_repeated :
    subtractInherited ["P1", "P3", "P1", "P2", "P1", "P3"] ["P2", "P1", "P1", "P4"] = ["P3", "P1", "P3"] ∧
      subtractInherited ["P1", "P3", "P1", "P2", "P1", "P3"] ["P1", "P4", "P1", "P2"] = ["P3", "P1", "P3"] ∧
      remainder ["P1", "P3", "P1", "P2", "P1", "P3"] ["P2", "P1", "P1", "P4"] = .remaining ["P3", "P1", "P3"] ∧
      (subtractInherited ["P1", "P2", "P1"] ["P1", "P1", "P2", "P3"]).isEmpty = true ∧
      remainder ["P1", "P2", "P1"] ["P1", "P1", "P2", "P3"] = .fullyInherited := by
  obtain ⟨-, left, anyOrder, -, -, rest⟩ :=
    subtractInherited_exact ["P1", "P3", "P1", "P2", "P1", "P3"] ["P2", "P1", "P1", "P4"]
  have first : subtractInherited ["P1", "P3", "P1", "P2", "P1", "P3"] ["P2", "P1", "P1", "P4"] = ["P3", "P1", "P3"] :=
    left.trans (by decide)
  obtain ⟨-, -, -, empty, all, -⟩ := subtractInherited_exact ["P1", "P2", "P1"] ["P1", "P1", "P2", "P3"]
  have covered : ∀ x, ["P1", "P2", "P1"].count x ≤ ["P1", "P1", "P2", "P3"].count x := by
    intro x
    simp only [List.count_cons, List.count_nil]
    omega
  exact ⟨first, (anyOrder _ (by decide)).trans first, (rest _).2 ⟨by decide, first⟩, empty.2 covered, all.2 covered⟩

end SchemaGraph
