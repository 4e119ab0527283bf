import SchemaGraph.Yaml.Plain

/-! The YAML text of a JSON value: blocks with two columns of indentation, scalars plain where they read back
as texts, and in quotes or as literal blocks otherwise. -/
namespace SchemaGraph.Yaml

def exponents : Decimal.ExponentStyle := ⟨false⟩

def isPrintable (c : Char) : Bool :=
  let n := c.toNat
  n == 10 || (0x20 ≤ n && n ≤ 0x7E) || (0xA0 ≤ n && n ≤ 0xFFFD && n != 0xFEFF) || 0x10000 ≤ n

/-! How a text is written. -/

inductive Quoting
  | plain
  | single
  | double
  | literal
deriving DecidableEq

def indicators : List Char :=
  ['#', ',', '[', ']', '{', '}', '&', '*', '!', '|', '>', '\'', '"', '%', '@', '\x60']

def endsLine (c : Char) : Bool := isBreak c || c == '\r' || c == '\x85'

def separates (c : Char) : Bool := isBlank c || endsLine c

def endsPlain (spaceBefore : Bool) : List Char → Bool
  | [] => false
  | c :: r =>
    (c == ':' && (r.isEmpty || r.head?.any separates)) || (c == '#' && spaceBefore) ||
      endsPlain (separates c) r

/-- Whether a text that is written plain outside of brackets reads as something else. -/
def hasIndicators : List Char → Bool
  | [] => false
  | c :: r =>
    let followed := r.isEmpty || r.head?.any separates
    [['-', '-', '-'], ['.', '.', '.']].contains ((c :: r).take 3) || indicators.contains c ||
      (['?', ':', '-'].contains c && followed) || endsPlain (separates c) r

def hasPair (first second : Char → Bool) : List Char → Bool
  | a :: b :: r => (first a && second b) || hasPair first second (b :: r)
  | _ => false

def isAmbiguous (text : String) : Bool :=
  match Atom.ofPlain? text with
  | some (.text _) => hasLeadingZero text.toList
  | _ => true

def quoting (text : String) : Quoting :=
  let s := text.toList
  let isSpace := fun c => c == ' '
  let special := s.any (!isPrintable ·) || hasPair isSpace endsLine s
  if s.contains '\n' then
    if special || s.getLast?.any isSpace then .double else .literal
  else
    let spaced := s.head?.any isSpace || s.getLast?.any isSpace
    let plainAllowed := !special && !s.any endsLine && !spaced && !hasIndicators s
    if plainAllowed && !isAmbiguous text then .plain
    else if special || hasPair endsLine isSpace s then .double
    else .single

/-! Written scalars.  Lines behind the first one begin at column `margin`. -/

def spaces (n : Nat) : List Char := List.replicate n ' '

def singleQuoted (margin : Nat) (newLine : Bool) : List Char → List Char
  | [] => if newLine then spaces margin else []
  | c :: r =>
    if isBreak c then c :: singleQuoted margin true r
    else
      (if newLine then spaces margin else []) ++ (if c = '\'' then ['\'', '\''] else [c]) ++
        singleQuoted margin false r

def escapeLetters : List (Char × Char) :=
  [('\x00', '0'), ('\x07', 'a'), ('\x08', 'b'), ('\t', 't'), ('\n', 'n'), ('\x0b', 'v'), ('\x0c', 'f'),
    ('\r', 'r'), ('\x1b', 'e'), ('"', '"'), ('\\', '\\'), ('\x85', 'N'), ('\u2028', 'L'),
    ('\u2029', 'P')]

def hexadecimal (width n : Nat) : List Char :=
  let digits := (Nat.toDigits 16 n).map Char.toUpper
  List.replicate (width - digits.length) '0' ++ digits

def doubleEscaped (c : Char) : List Char :=
  match escapeLetters.lookup c with
  | some letter => ['\\', letter]
  | none =>
    if isPrintable c then [c]
    else if c.toNat ≤ 0xFF then '\\' :: 'x' :: hexadecimal 2 c.toNat
    else if c.toNat ≤ 0xFFFF then '\\' :: 'u' :: hexadecimal 4 c.toNat
    else '\\' :: 'U' :: hexadecimal 8 c.toNat

/-- The indicators of a literal block: the indentation if the text does not show it, and what becomes of
the line ends behind it. -/
def literalHints (s : List Char) : List Char :=
  let indentation := if s.head?.any (fun c => c == ' ' || isBreak c) then ['2'] else []
  let chomping :=
    match s.reverse with
    | [] => ['-']
    | c :: r =>
      if !isBreak c then ['-'] else if r.isEmpty || r.head?.any isBreak then ['+'] else []
  indentation ++ chomping

def literalLines (margin : Nat) (newLine : Bool) : List Char → List Char
  | [] => []
  | c :: r =>
    if isBreak c then c :: literalLines margin true r
    else (if newLine then spaces margin else []) ++ c :: literalLines margin false r

def textScalar (margin : Nat) (text : String) : String :=
  let s := text.toList
  match quoting text with
  | .plain => text
  | .single => String.ofList ('\'' :: singleQuoted margin false s ++ ['\''])
  | .double => String.ofList ('"' :: s.flatMap doubleEscaped ++ ['"'])
  | .literal => String.ofList ('|' :: literalHints s ++ '\n' :: literalLines margin true s)

/-! Written values. -/

def endLine (text : String) : String :=
  if text.toList.getLast?.any isBreak then text else text ++ "\n"

def isSimpleKey (key : String) : Bool := !key.toList.any endsLine && key.utf8ByteSize ≤ 128

def pad (n : Nat) : String := String.ofList (spaces n)

mutual

def valueText (margin : Nat) : Json → String
  | .null => "null\n"
  | .bool b => (if b then "true" else "false") ++ "\n"
  | .int n => toString n ++ "\n"
  | .float x => Decimal.floatText exponents x ++ "\n"
  | .string s => endLine (textScalar margin s)
  | .list [] => "[]\n"
  | .list (v :: rest) => "- " ++ valueText (margin + 2) v ++ itemsText margin rest
  | .object [] => "\x7b\x7d\n"
  | .object ((key, v) :: rest) => entryText margin key v ++ entriesText margin rest
termination_by v => (sizeOf v, 0)

def itemsText (margin : Nat) : List Json → String
  | [] => ""
  | v :: rest => pad margin ++ "- " ++ valueText (margin + 2) v ++ itemsText margin rest
termination_by items => (sizeOf items, 0)

/-- A key with its value.  Behind a key on the same line, lists begin at its column and mappings two
columns further right, both on a line of their own. -/
def entryText (margin : Nat) (key : String) (v : Json) : String :=
  if isSimpleKey key then
    textScalar (margin + 2) key ++ ":" ++
      match v with
      | .list (v :: rest) => "\n" ++ itemsText margin (v :: rest)
      | .object (e :: rest) => "\n" ++ entriesText (margin + 2) (e :: rest)
      | v => " " ++ valueText (margin + 2) v
  else
    "? " ++ endLine (textScalar (margin + 2) key) ++ pad margin ++ ": " ++
      valueText (margin + 2) v
termination_by (sizeOf v, 1)

def entriesText (margin : Nat) : List (String × Json) → String
  | [] => ""
  | (key, v) :: rest => pad margin ++ entryText margin key v ++ entriesText margin rest
termination_by entries => (sizeOf entries, 0)

end

end SchemaGraph.Yaml

def SchemaGraph.Json.yaml : SchemaGraph.Json → String
  | .string s => SchemaGraph.Yaml.valueText 2 (.string s)
  | v => SchemaGraph.Yaml.valueText 0 v
