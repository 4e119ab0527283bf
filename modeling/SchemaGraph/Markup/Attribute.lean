import SchemaGraph.Text.Cut

/-! The attributes of a start tag as they are written.  A malformed one is passed over: a key without
a value, a value without quotes, a key that came before. -/
namespace SchemaGraph.Markup

def isSpace (c : Char) : Bool := c == ' ' || c == '\t' || c == '\n' || c == '\r'

/-- Reads key and quoted value pairs.  A repeated key and a value without quotes are passed over up to
the next blank, and a quote that is not closed ends the reading. -/
def attributes (seen : List (List Char)) (s : List Char) : List (List Char × List Char) :=
  match _hs : s.dropWhile isSpace with
  | [] => []
  | k :: r =>
    let inKey := fun c => c != '=' && !isSpace c
    let key := k :: r.takeWhile inKey
    match _hr : (r.dropWhile inKey).dropWhile isSpace with
    | [] => []
    | c :: t =>
      if c = '=' then
        if key ∈ seen then attributes seen (t.dropWhile (!isSpace ·))
        else
          match _ht : t.dropWhile isSpace with
          | [] => []
          | q :: u =>
            if q = '"' ∨ q = '\'' then
              match _hq : Text.cut q u with
              | some (value, rest) => (key, value) :: attributes (key :: seen) rest
              | none => []
            else attributes (key :: seen) (u.dropWhile (!isSpace ·))
      else attributes seen (c :: t)
termination_by s.length
decreasing_by
  all_goals
    have h₁ := (List.dropWhile_sublist (p := isSpace) (l := s)).length_le
    have h₂ := (List.dropWhile_sublist (p := inKey) (l := r)).length_le
    have h₃ := (List.dropWhile_sublist (p := isSpace) (l := r.dropWhile inKey)).length_le
    rw [_hs] at h₁
    rw [_hr] at h₃
    simp only [List.length_cons] at *
  · have h₄ := (List.dropWhile_sublist (p := (!isSpace ·)) (l := t)).length_le
    omega
  · have h₄ := (List.dropWhile_sublist (p := isSpace) (l := t)).length_le
    rw [_ht] at h₄
    obtain ⟨rfl, -⟩ := Text.cut_eq_some_iff.1 _hq
    simp only [List.length_append, List.length_cons] at h₄
    omega
  · have h₄ := (List.dropWhile_sublist (p := isSpace) (l := t)).length_le
    have h₅ := (List.dropWhile_sublist (p := (!isSpace ·)) (l := u)).length_le
    rw [_ht] at h₄
    simp only [List.length_cons] at h₄
    omega
  · omega

end SchemaGraph.Markup
