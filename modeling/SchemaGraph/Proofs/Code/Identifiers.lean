import Mathlib
import SchemaGraph.Code.Enumeration

/-! Identifiers of generated code.  Whatever text they are made from, they are well formed, and the numbering of taken
ones comes to an end: fresh names are allotted one by one, each apart from all that were taken before it. -/
namespace SchemaGraph.Code

/-- An upper-case letter and then letters, digits and underscores; `Self` is a keyword. -/
def IsIdentifier (s : String) : Prop :=
  (∃ c r, s.toList = c :: r ∧ c.isUpper = true ∧ ∀ d ∈ r, d.isAlphanum = true ∨ d = '_') ∧ s ≠ "Self"

section Words

theorem isUpper_or_isDigit_toUpper {c : Char} (h : c.isAlphanum = true) :
    c.toUpper.isUpper = true ∨ c.toUpper.isDigit = true := by
  rw [Char.isAlphanum, Bool.or_eq_true] at h
  by_cases letter : c.isAlpha = true
  · exact .inl ((Char.isUpper_toUpper_eq_isAlpha c).trans letter)
  · have same : c.toUpper = c := Char.toUpper_eq_of_not_isLower fun lower => letter (by simp [Char.isAlpha, lower])
    rw [same]
    exact .inr (h.resolve_left letter)

theorem isAlphanum_of_isUpper {c : Char} (h : c.isUpper = true) : c.isAlphanum = true := by
  simp [Char.isAlphanum, Char.isAlpha, h]

theorem isAlphanum_of_isDigit {c : Char} (h : c.isDigit = true) : c.isAlphanum = true := by
  simp [Char.isAlphanum, h]

theorem isAlphanum_of_mem_capitalized {start : Bool} {l : List Char} :
    ∀ d ∈ capitalized start l, d.isAlphanum = true := by
  fun_induction capitalized start l with
  | case1 => simp
  | case2 start c r letter ih =>
    rw [List.forall_mem_cons]
    refine ⟨?_, ih⟩
    cases start with
    | false => exact letter
    | true =>
      rcases isUpper_or_isDigit_toUpper letter with upper | digit
      · exact isAlphanum_of_isUpper upper
      · exact isAlphanum_of_isDigit digit
  | case3 start c r other ih => exact ih

theorem head_capitalized {l r : List Char} {c : Char} (h : capitalized true l = c :: r) :
    c.isUpper = true ∨ c.isDigit = true := by
  induction l with
  | nil => cases h
  | cons d l ih =>
    rw [capitalized] at h
    split at h
    · next letter =>
      cases h
      exact isUpper_or_isDigit_toUpper letter
    · exact ih h

end Words

/-- What an identifier is made of: a word for texts without letters and digits, a letter in front of a digit, and the
keyword made longer. -/
theorem identifier_cases (s : String) :
    (pascalCase s = "" ∧ identifier s = "Empty") ∨
      (∃ c r, (pascalCase s).toList = c :: r ∧ c.isDigit = true ∧ identifier s = "V" ++ pascalCase s) ∨
      (pascalCase s = "Self" ∧ identifier s = "Self_") ∨
      ∃ c r, (pascalCase s).toList = c :: r ∧ c.isUpper = true ∧ pascalCase s ≠ "Self" ∧ identifier s = pascalCase s := by
  cases name : (pascalCase s).toList with
  | nil => exact .inl ⟨String.toList_eq_nil_iff.1 name, by simp only [identifier, name]⟩
  | cons c r =>
    have begins : c.isUpper = true ∨ c.isDigit = true := by
      rw [pascalCase, String.toList_ofList] at name
      exact head_capitalized name
    have made : identifier s =
        if c.isDigit then "V" ++ pascalCase s else if pascalCase s = "Self" then "Self_" else pascalCase s := by
      simp only [identifier, name]
    by_cases digit : c.isDigit = true
    · exact .inr (.inl ⟨c, r, rfl, digit, by rw [made, if_pos digit]⟩)
    · rw [if_neg digit] at made
      by_cases keyword : pascalCase s = "Self"
      · exact .inr (.inr (.inl ⟨keyword, by rw [made, if_pos keyword]⟩))
      · exact .inr (.inr (.inr ⟨c, r, rfl, begins.resolve_right digit, keyword, by rw [made, if_neg keyword]⟩))

theorem isIdentifier_identifier (s : String) : IsIdentifier (identifier s) := by
  have letters : ∀ d ∈ (pascalCase s).toList, d.isAlphanum = true ∨ d = '_' := by
    intro d hd
    rw [pascalCase, String.toList_ofList] at hd
    exact .inl (isAlphanum_of_mem_capitalized d hd)
  rcases identifier_cases s with ⟨-, made⟩ | ⟨c, r, name, -, made⟩ | ⟨-, made⟩ | ⟨c, r, name, upper, other, made⟩
  · rw [made]
    exact ⟨⟨'E', "mpty".toList, rfl, rfl, by simp⟩, by decide⟩
  · rw [made]
    refine ⟨⟨'V', (pascalCase s).toList, by simp, by decide, letters⟩, fun same => ?_⟩
    have := congrArg String.toList same
    simp at this
  · rw [made]
    exact ⟨⟨'S', "elf_".toList, rfl, rfl, by simp⟩, by decide⟩
  · rw [made]
    rw [name, List.forall_mem_cons] at letters
    exact ⟨⟨c, r, name, upper, letters.2⟩, other⟩

section Numbering

def numbered (base : String) : Nat → String
  | 0 => base
  | n + 1 => base ++ toString (n + 2)

theorem exists_digits (base : String) (n : Nat) :
    ∃ l d, (numbered base (n + 1)).toList = base.toList ++ (l ++ [d]) ∧ ∀ x ∈ l ++ [d], x.isDigit = true := by
  have digits : ∀ x ∈ (toString (n + 2)).toList, x.isDigit = true := by
    intro x hx
    rw [Nat.toString_eq_repr, Nat.toList_repr] at hx
    exact Nat.isDigit_of_mem_toDigits (by decide) (by decide) hx
  rcases List.eq_nil_or_concat (toString (n + 2)).toList with none | ⟨l, d, some⟩
  · simp at none
  · rw [List.concat_eq_append] at some
    exact ⟨l, d, by rw [numbered, String.toList_append, some], some ▸ digits⟩

theorem numbered_succ_ne {base name : String} (plain : name.toList.getLast?.any Char.isDigit = false) (n : Nat) :
    numbered base (n + 1) ≠ name := by
  rintro rfl
  obtain ⟨l, d, last, digits⟩ := exists_digits base n
  have digit : d.isDigit = true := digits d (by simp)
  simp [last, digit] at plain

theorem numbered_injective (base : String) : Function.Injective (numbered base) := by
  have longer (n : Nat) : numbered base (n + 1) ≠ base := by
    intro same
    obtain ⟨l, d, more, -⟩ := exists_digits base n
    rw [same] at more
    simp at more
  intro m n same
  cases m with
  | zero =>
    cases n with
    | zero => rfl
    | succ n => exact absurd same.symm (longer n)
  | succ m =>
    cases n with
    | zero => exact absurd same (longer m)
    | succ n =>
      have numbers : toString (m + 2) = toString (n + 2) := (String.append_right_inj base).1 same
      have values := congrArg (fun s : String => Nat.ofDigitChars 10 s.toList 0) numbers
      simpa using values

theorem isIdentifier_numbered {base : String} (h : IsIdentifier base) (n : Nat) : IsIdentifier (numbered base n) := by
  cases n with
  | zero => exact h
  | succ n =>
    obtain ⟨⟨c, r, name, upper, rest⟩, -⟩ := h
    obtain ⟨l, d, more, digits⟩ := exists_digits base n
    refine ⟨⟨c, r ++ (l ++ [d]), by rw [more, name, List.cons_append], upper, ?_⟩, numbered_succ_ne (by decide) n⟩
    intro x hx
    rcases List.mem_append.1 hx with own | digit
    · exact rest x own
    · exact .inl (isAlphanum_of_isDigit (digits x digit))

def FirstFree (taken : List String) (base name : String) : Prop :=
  ∃ n, name = numbered base n ∧ numbered base n ∉ taken ∧ ∀ m < n, numbered base m ∈ taken

theorem FirstFree.not_mem {taken : List String} {base name : String} (h : FirstFree taken base name) : name ∉ taken := by
  obtain ⟨n, rfl, free, -⟩ := h
  exact free

theorem FirstFree.isIdentifier {taken : List String} {base name : String} (h : FirstFree taken base name)
    (valid : IsIdentifier base) : IsIdentifier name := by
  obtain ⟨n, rfl, -⟩ := h
  exact isIdentifier_numbered valid n

theorem firstFree_fresh (taken : List String) (base : String) : FirstFree taken base (fresh taken base) := by
  have all : base :: (List.range (taken.length + 1)).map (fun i => base ++ toString (i + 2)) =
      (List.range (taken.length + 2)).map (numbered base) := by
    rw [List.range_succ_eq_map (n := taken.length + 1), List.map_cons, List.map_map]
    rfl
  -- One of the names is free, since there are more of them than are taken.
  have free : ∃ n ∈ List.range (taken.length + 2), numbered base n ∉ taken := by
    by_contra none
    push Not at none
    have within : (List.range (taken.length + 2)).map (numbered base) ⊆ taken := by
      simpa [List.subset_def] using none
    have distinct := (List.nodup_range (n := taken.length + 2)).map (numbered_injective base)
    have few := (List.subperm_of_subset distinct within).length_le
    rw [List.length_map, List.length_range] at few
    omega
  obtain ⟨n, found⟩ : ∃ n, (List.range (taken.length + 2)).find? (fun n => !taken.contains (numbered base n)) = some n := by
    rw [← Option.isSome_iff_exists, List.find?_isSome]
    simpa using free
  refine ⟨n, ?_, ?_⟩
  · rw [fresh, all, List.find?_map]
    change (((List.range _).find? fun n => !taken.contains (numbered base n)).map _).getD base = _
    rw [found]
    rfl
  · obtain ⟨free, -, before⟩ := List.find?_range_eq_some.1 found
    exact ⟨by simpa using free, fun m below => by simpa using before m below⟩

end Numbering

end SchemaGraph.Code
