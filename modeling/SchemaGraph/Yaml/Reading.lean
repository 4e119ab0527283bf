import SchemaGraph.Yaml.Plain

/-! Reading nodes of an expected type. -/
namespace SchemaGraph.Yaml

namespace Scalar

def isAbsent (s : Scalar) : Bool := s.style == .plain && s.text.isEmpty

def isNone? (s : Scalar) : Option Bool :=
  if s.style ≠ .plain then some false
  else
    match s.tag with
    | none => some (s.text.isEmpty || isNull s.text)
    | some .null => if isNull s.text then some true else none
    | some _ => some false

end Scalar

namespace Node

variable {α : Type}

def optional? (read : Node → Option α) (n : Node) : Option (Option α) :=
  match n with
  | .scalar s => do if ← s.isNone? then some none else some <$> read n
  | n => some <$> read n

/-- A number of at most 64 bits.  A literal block has to be tagged as an integer. -/
def natural? : Node → Option Nat
  | .scalar s =>
    if s.style = .plain ∨ (s.style = .literal ∧ s.tag = some .int) then do
      let n ← Yaml.natural? s.text
      if n < Nat.pow 2 64 then some n else none
    else none
  | .list .. | .map .. => none

def items? (read : Node → Option α) : Node → Option (List α)
  | .list _ items => items.mapM read
  | .scalar s => if s.isAbsent then some [] else none
  | .map .. => none

def pairs? : Node → Option (List (String × Node))
  | .map _ entries => entries.mapM fun (k, v) => do return (← k.text?, v)
  | .scalar s => if s.isAbsent then some [] else none
  | .list .. => none

def entries? (read : Node → Option α) (n : Node) : Option (OrderedMap String α) := do
  let pairs ← (← n.pairs?).mapM fun (k, v) => do return (k, ← read v)
  return .ofList pairs

end Node

abbrev Fields := OrderedMap String Node

def Node.fields? (names : List String) (n : Node) : Option Fields := do
  let pairs ← n.pairs?
  let fields : Fields := .ofList pairs
  if pairs.all (names.contains ·.1) ∧ fields.size = pairs.length then some fields else none

namespace Fields

variable {α : Type}

def required? (f : Fields) (name : String) (read : Node → Option α) : Option α := do
  read (← f.get? name)

def getD? (f : Fields) (name : String) (default : α) (read : Node → Option α) : Option α :=
  match f.get? name with
  | some n => read n
  | none => some default

def optional? (f : Fields) (name : String) (read : Node → Option α) : Option (Option α) :=
  f.getD? name none (Node.optional? read)

end Fields

/-! Records of one variant among several, whose fields can have keys of any kind. -/

inductive FieldKey
  | field (index : Nat)
  | unknown

/-- Which of `names` the key of an untyped mapping means; only texts and numbers without a minus sign,
not even that of `-0`, mean fields. -/
def fieldKey? (names : List String) (n : Node) : Option FieldKey :=
  match n with
  | .scalar s => do
    match ← Atom.ofScalar? s with
    | .text t =>
      return match names.findIdx? (· == t) with
        | some i => .field i
        | none => .unknown
    | .int i =>
      if startsWith ['-'] s.text.toList then none
      else return if i < names.length then .field i.toNat else .unknown
    | .null | .bool _ | .float _ | .nonFinite => none
  | .list .. | .map .. => none

def Node.untypedText? : Node → Option String
  | .scalar s => do
    match ← Atom.ofScalar? s with
    | .text t => some t
    | .null | .bool _ | .int _ | .float _ | .nonFinite => none
  | .list .. | .map .. => none

/-- The text under the only field of an untyped mapping, which occurs once.  Other fields are left
out of account. -/
def onlyText? (name : String) (entries : List (Node × Node)) : Option String := do
  let keys ← entries.mapM fun (k, v) => do return (← fieldKey? [name] k, v)
  match keys.filterMap fun (k, v) => match k with | .field _ => some v | .unknown => none with
  | [v] => v.untypedText?
  | _ => none

end SchemaGraph.Yaml
