import SchemaGraph.Text.Invisible

/-! String literals of generated code. -/
namespace SchemaGraph.Code

/-- A character inside a literal.  Characters without a visible form are written by number. -/
def escaped (c : Char) : List Char :=
  match c with
  | '\x00' => ['\\', '0']
  | '\t' => ['\\', 't']
  | '\r' => ['\\', 'r']
  | '\n' => ['\\', 'n']
  | '"' => ['\\', '"']
  | '\\' => ['\\', '\\']
  | c => if Text.isInvisible c then ['\\', 'u', '{'] ++ Nat.toDigits 16 c.toNat ++ ['}'] else [c]

def literal (s : String) : String := "\"" ++ String.ofList (s.toList.flatMap escaped) ++ "\""

def optional : Option String → String
  | some s => "Some(" ++ literal s ++ ")"
  | none => "None"

def slice (l : List String) : String := "&[" ++ ", ".intercalate (l.map literal) ++ "]"

def truth (b : Bool) : String := if b then "true" else "false"

def lines (l : List String) : String := String.join (l.map (· ++ "\n"))

end SchemaGraph.Code
