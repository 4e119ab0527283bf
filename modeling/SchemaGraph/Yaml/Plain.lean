import SchemaGraph.Json.Value
import SchemaGraph.Yaml.Node

/-! What scalars mean.  Plain scalars can be null, truth values and numbers; any other scalar is a text,
unless a tag says what it has to be. -/
namespace SchemaGraph.Yaml

def isNull (text : String) : Bool := ["null", "Null", "NULL", "~"].contains text

def truth? (text : String) : Option Bool :=
  if ["true", "True", "TRUE"].contains text then some true
  else if ["false", "False", "FALSE"].contains text then some false
  else none

/-! Integers. -/

def digit? (base : Nat) (c : Char) : Option Nat := do
  let d ← hexDigit? c
  if d < base then some d else none

def digits? (base : Nat) (digits : List Char) : Option Nat :=
  if digits.isEmpty then none
  else digits.foldlM (fun n c => (digit? base c).map (n * base + ·)) 0

def unsigned : List Char → List Char
  | '+' :: r | '-' :: r => r
  | r => r

/-- Whether a text looks like a number with zeros in front; those are texts. -/
def hasLeadingZero (s : List Char) : Bool :=
  match unsigned s with
  | '0' :: c :: r => (c :: r).all Char.isDigit
  | _ => false

def radix? : List Char → Option (Nat × List Char)
  | '0' :: 'x' :: r => some (16, r)
  | '0' :: 'o' :: r => some (8, r)
  | '0' :: 'b' :: r => some (2, r)
  | _ => none

def magnitude? (s : List Char) : Option Nat :=
  match radix? s with
  | some (base, digits) => digits? base digits
  | none => digits? 10 s

def natural? (text : String) : Option Nat :=
  let s := text.toList
  if hasLeadingZero s then none
  else
    match s with
    | '+' :: r => magnitude? r
    | r => magnitude? r

def integer? (text : String) : Option Int :=
  let s := text.toList
  match s with
  | '-' :: r => if hasLeadingZero s then none else (magnitude? r).map fun n => -Int.ofNat n
  | _ => (natural? text).map Int.ofNat

/-! Numbers with a point or an exponent. -/

def exponent? : List Char → Option Int
  | [] => some 0
  | c :: r =>
    if c = 'e' ∨ c = 'E' then do
      let n ← digits? 10 (unsigned r)
      return if startsWith ['-'] r then -Int.ofNat n else Int.ofNat n
    else none

/-- Digits with or without a point, and an exponent.  One digit at least stands before the exponent. -/
def decimal? (negative : Bool) (s : List Char) : Option Float := do
  let whole := s.takeWhile Char.isDigit
  let (fraction, r) :=
    match s.dropWhile Char.isDigit with
    | '.' :: r => (r.takeWhile Char.isDigit, r.dropWhile Char.isDigit)
    | r => ([], r)
  let mantissa ← digits? 10 (whole ++ fraction)
  let exponent ← exponent? r
  let x := Decimal.nearestFloat negative mantissa (exponent - fraction.length)
  if x.isFinite then some x else none

def float? (text : String) : Option Float :=
  match text.toList with
  | '-' :: r => decimal? true r
  | '+' :: r => decimal? false r
  | r => decimal? false r

def isNonFinite (text : String) : Bool :=
  [".inf", ".Inf", ".INF", "+.inf", "+.Inf", "+.INF", "-.inf", "-.Inf", "-.INF", ".nan", ".NaN",
    ".NAN"].contains text

/-! Scalars without an expected type. -/

inductive Atom
  | null
  | bool (value : Bool)
  | int (value : Int)
  | float (value : Float)
  /-- A number that is not finite. -/
  | nonFinite
  | text (value : String)

namespace Atom

/-- An integer of 64 bits, with or without a sign.  Other integers of up to 128 bits cannot be held;
larger ones are not taken as integers. -/
def ofInt (n : Int) (otherwise : Option Atom) : Option Atom :=
  if -(Nat.pow 2 63 : Int) ≤ n ∧ n < Nat.pow 2 64 then some (.int n)
  else if -(Nat.pow 2 127 : Int) ≤ n ∧ n < Nat.pow 2 128 then none
  else otherwise

def ofFloat? (text : String) : Option Atom :=
  if isNonFinite text then some .nonFinite else (float? text).map .float

def ofPlain? (text : String) : Option Atom :=
  if text.isEmpty || isNull text then some .null
  else
    match truth? text with
    | some b => some (.bool b)
    | none =>
      let number : Atom :=
        if hasLeadingZero text.toList then .text text else (ofFloat? text).getD (.text text)
      match integer? text with
      | some n => ofInt n (some number)
      | none => some number

def ofScalar? (s : Scalar) : Option Atom :=
  match s.tag with
  | none | some .illegible => if s.style = .plain then ofPlain? s.text else some (.text s.text)
  | some .bool => (truth? s.text).map .bool
  | some .int => do ofInt (← integer? s.text) none
  | some .float => ofFloat? s.text
  | some .null => if isNull s.text then some .null else none
  | some (.own _) => none
  | some .other => some (.text s.text)

end Atom

def isLocal : Option Tag → Bool
  | some (.own _) => true
  | _ => false

def Node.text? : Node → Option String
  | .scalar s => some s.text
  | .list .. | .map .. => none

mutual

/-- A node without an expected type.  The keys of a mapping are scalars and count by their text; of
repeated keys the last one counts, in the place of the first. -/
def Node.json? : Node → Option Json
  | .scalar s =>
    (Atom.ofScalar? s).map fun
      | .null | .nonFinite => .null
      | .bool b => .bool b
      | .int n => .int n
      | .float x => .float x
      | .text t => .string t
  | .list tag items => if isLocal tag then none else do return .list (← jsonItems? items)
  | .map tag entries =>
    if isLocal tag then none
    else do return .object (OrderedMap.ofList (← jsonEntries? entries)).entries

def Node.jsonItems? : List Node → Option (List Json)
  | [] => some []
  | n :: r => do return (← n.json?) :: (← jsonItems? r)

def Node.jsonEntries? : List (Node × Node) → Option (List (String × Json))
  | [] => some []
  | (k, v) :: r => do return (← k.text?, ← v.json?) :: (← jsonEntries? r)

end

mutual

def Node.isReadable : Node → Bool
  | .scalar s => (Atom.ofScalar? s).isSome
  | .list tag items => !isLocal tag && areReadable items
  | .map tag entries => !isLocal tag && entriesAreReadable entries

def Node.areReadable : List Node → Bool
  | [] => true
  | n :: r => n.isReadable && areReadable r

def Node.entriesAreReadable : List (Node × Node) → Bool
  | [] => true
  | (k, v) :: r => k.isReadable && v.isReadable && entriesAreReadable r

end

end SchemaGraph.Yaml
