/-! Cutting a text at the first occurrence of a character. -/
namespace SchemaGraph.Text

def cut (c : Char) : List Char → Option (List Char × List Char)
  | [] => none
  | x :: r => if x = c then some ([], r) else (cut c r).map fun p => (x :: p.1, p.2)

theorem cut_append {c : Char} {a : List Char} (h : c ∉ a) (b : List Char) :
    cut c (a ++ c :: b) = some (a, b) := by
  induction a with
  | nil => simp [cut]
  | cons x a ih =>
    simp only [List.mem_cons, not_or] at h
    simp [cut, Ne.symm h.1, ih h.2]

theorem cut_eq_some_iff {c : Char} {s a b : List Char} :
    cut c s = some (a, b) ↔ s = a ++ c :: b ∧ c ∉ a := by
  refine ⟨fun h => ?_, fun h => h.1 ▸ cut_append h.2 b⟩
  induction s generalizing a with
  | nil => simp [cut] at h
  | cons x r ih =>
    by_cases hx : x = c
    · simp only [cut, hx, ↓reduceIte, Option.some.injEq, Prod.mk.injEq] at h
      obtain ⟨rfl, rfl⟩ := h
      simp [hx]
    · simp only [cut, hx, ↓reduceIte, Option.map_eq_some_iff] at h
      obtain ⟨⟨u, v⟩, huv, he⟩ := h
      simp only [Prod.mk.injEq] at he
      obtain ⟨rfl, rfl⟩ := he
      obtain ⟨rfl, hu⟩ := ih huv
      simp [Ne.symm hx, hu]

theorem cut_eq_none_iff {c : Char} {s : List Char} : cut c s = none ↔ c ∉ s := by
  induction s with
  | nil => simp [cut]
  | cons x r ih =>
    by_cases hx : x = c
    · simp [cut, hx]
    · simp [cut, hx, ih, Ne.symm hx]

theorem length_cut {c : Char} {s a b : List Char} (h : cut c s = some (a, b)) :
    b.length < s.length := by
  rw [(cut_eq_some_iff.1 h).1, List.length_append, List.length_cons]
  omega

def cutString (c : Char) (s : String) : Option (String × String) :=
  (cut c s.toList).map fun p => (String.ofList p.1, String.ofList p.2)

theorem cutString_eq_some_iff {c : Char} {s a b : String} :
    cutString c s = some (a, b) ↔ s.toList = a.toList ++ c :: b.toList ∧ c ∉ a.toList := by
  unfold cutString
  rw [Option.map_eq_some_iff]
  constructor
  · rintro ⟨⟨x, y⟩, split, same⟩
    cases same
    rw [String.toList_ofList, String.toList_ofList]
    exact cut_eq_some_iff.1 split
  · intro split
    exact ⟨_, cut_eq_some_iff.2 split, by rw [String.ofList_toList, String.ofList_toList]⟩

theorem cutString_eq_none_iff {c : Char} {s : String} : cutString c s = none ↔ c ∉ s.toList := by
  simp [cutString, cut_eq_none_iff]

end SchemaGraph.Text
