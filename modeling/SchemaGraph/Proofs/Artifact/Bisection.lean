import Mathlib.Data.String.Basic
import SchemaGraph.Artifact.Bisect

/-! What halving finds.  An entry that is found compares as equal, whatever the table; in a table in ascending order an
entry is found whenever there is one. -/
namespace SchemaGraph

variable {α : Type}

/-- Behind an entry that is too great all are, and before one that is too small all are. -/
structure Halving (compare : α → Ordering) (table : Array α) : Prop where
  greater {i j : Nat} {a b : α} : i ≤ j → table[i]? = some a → table[j]? = some b → compare a = .gt → compare b = .gt
  lesser {i j : Nat} {a b : α} : i ≤ j → table[i]? = some a → table[j]? = some b → compare b = .lt → compare a = .lt

def Within (compare : α → Ordering) (table : Array α) (base size : Nat) : Prop :=
  ∃ j a, base ≤ j ∧ j < base + size ∧ table[j]? = some a ∧ compare a = .eq

variable {compare : α → Ordering} {table : Array α} {base size : Nat}

theorem Within.halve (ordered : Halving compare table) (fits : base + size ≤ table.size) (long : 1 < size)
    (h : Within compare table base size) :
    Within compare table
      (if (table[base + size / 2]?.map compare == some .gt) = true then base else base + size / 2)
      (size - size / 2) := by
  obtain ⟨j, a, from_base, below, entry, equal⟩ := h
  have inside : base + size / 2 < table.size := by omega
  have middle : table[base + size / 2]? = some table[base + size / 2] := Array.getElem?_eq_getElem inside
  rw [middle, Option.map_some]
  split
  · next gt =>
    have greater : compare table[base + size / 2] = .gt := by simpa using gt
    have before : j < base + size / 2 := by
      by_contra behind
      have := ordered.greater (Nat.le_of_not_lt behind) middle entry greater
      rw [equal] at this
      cases this
    exact ⟨j, a, from_base, by omega, entry, equal⟩
  · next other =>
    have notGreater : compare table[base + size / 2] ≠ .gt := by simpa using other
    by_cases behind : base + size / 2 ≤ j
    · exact ⟨j, a, behind, by omega, entry, equal⟩
    · -- Before an entry that is not too great an equal one leaves it no choice but to be equal.
      refine ⟨base + size / 2, _, Nat.le_refl _, by omega, middle, ?_⟩
      cases compared : compare table[base + size / 2] with
      | eq => rfl
      | gt => exact absurd compared notGreater
      | lt =>
        have := ordered.lesser (Nat.le_of_not_le behind) entry middle compared
        rw [equal] at this
        cases this

theorem bisect_eq (ordered : Halving compare table) (fits : base + size ≤ table.size)
    (h : Within compare table base size) :
    ∃ a, table[bisect compare table base size]? = some a ∧ compare a = .eq := by
  fun_induction bisect compare table base size with
  | case1 base size long middle greater ih =>
    have halved := h.halve ordered fits long
    apply ih _ halved
    split <;> omega
  | case2 base size short =>
    obtain ⟨j, a, from_base, below, entry, equal⟩ := h
    obtain rfl : j = base := by omega
    exact ⟨a, entry, equal⟩

theorem of_bisect?_eq_some {a : α} (h : bisect? compare table = some a) : a ∈ table ∧ compare a = .eq := by
  unfold bisect? at h
  simp only [bind, Option.bind_eq_some_iff] at h
  obtain ⟨found, entry, h⟩ := h
  split at h
  · next equal =>
    cases h
    exact ⟨Array.mem_of_getElem? entry, by simpa using equal⟩
  · cases h

theorem exists_bisect? (ordered : Halving compare table) {a : α} (here : a ∈ table) (equal : compare a = .eq) :
    ∃ b, bisect? compare table = some b ∧ b ∈ table ∧ compare b = .eq := by
  obtain ⟨j, below, rfl⟩ := Array.mem_iff_getElem.1 here
  have within : Within compare table 0 table.size :=
    ⟨j, table[j], Nat.zero_le j, by omega, Array.getElem?_eq_getElem below, equal⟩
  obtain ⟨b, entry, same⟩ := bisect_eq ordered (by omega) within
  have found : bisect? compare table = some b := by
    simp [bisect?, entry, same]
  exact ⟨b, found, of_bisect?_eq_some found⟩

theorem halving_of_pairwise {key : α → String} {l : List α} (sorted : l.Pairwise fun a b => key a ≤ key b)
    (name : String) : Halving (fun a => Ord.compare (key a) name) l.toArray := by
  have ascending {i j : Nat} {a b : α} (le : i ≤ j) (first : l.toArray[i]? = some a) (second : l.toArray[j]? = some b) :
      key a ≤ key b := by
    rw [List.getElem?_toArray] at first second
    obtain ⟨hi, rfl⟩ := List.getElem?_eq_some_iff.1 first
    obtain ⟨hj, rfl⟩ := List.getElem?_eq_some_iff.1 second
    rcases Nat.eq_or_lt_of_le le with rfl | lt
    · exact le_refl _
    · exact List.pairwise_iff_getElem.1 sorted i j hi hj lt
  constructor
  · intro i j a b le first second greater
    rw [compare_gt_iff_gt] at greater ⊢
    exact lt_of_lt_of_le greater (ascending le first second)
  · intro i j a b le first second lesser
    rw [compare_lt_iff_lt] at lesser ⊢
    exact lt_of_le_of_lt (ascending le first second) lesser

theorem pairwise_mergeSort_key (key : α → String) (l : List α) :
    (l.mergeSort fun a b => decide (key a ≤ key b)).Pairwise fun a b => key a ≤ key b := by
  have sorted : (l.mergeSort fun a b => decide (key a ≤ key b)).Pairwise fun a b => decide (key a ≤ key b) = true := by
    apply List.pairwise_mergeSort
    · simpa using fun a b c => le_trans
    · simpa using fun a b => le_total _ _
  simpa using sorted

/-- In a table that has been sorted by a key the search for a key finds an entry under it, and nothing only if there
is none. -/
theorem bisect?_mergeSort (key : α → String) (l : List α) (name : String) :
    (∀ a, bisect? (fun a => Ord.compare (key a) name) (l.mergeSort fun a b => decide (key a ≤ key b)).toArray = some a →
        a ∈ l ∧ key a = name) ∧
      (bisect? (fun a => Ord.compare (key a) name) (l.mergeSort fun a b => decide (key a ≤ key b)).toArray = none →
        ∀ a ∈ l, key a ≠ name) := by
  constructor
  · intro a found
    obtain ⟨here, equal⟩ := of_bisect?_eq_some found
    exact ⟨List.mem_mergeSort.1 (List.mem_toArray.1 here), compare_eq_iff_eq.1 equal⟩
  · intro missing a here equal
    have ordered := halving_of_pairwise (pairwise_mergeSort_key key l) name
    obtain ⟨b, found, -⟩ := exists_bisect? ordered (List.mem_toArray.2 (List.mem_mergeSort.2 here))
      (compare_eq_iff_eq.2 equal)
    rw [missing] at found
    cases found

end SchemaGraph
