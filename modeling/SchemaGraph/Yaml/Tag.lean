import SchemaGraph.Yaml.Scalar

/-! Tags.  They are sequences of octets, which can be written one by one with escapes.  Only the tags of
scalar types and tags of one's own, which begin with an exclamation mark, mean something. -/
namespace SchemaGraph.Yaml

inductive Tag
  | null
  | bool
  | int
  | float
  /-- A tag of one's own.  The exclamation mark alone is its own name. -/
  | own (name : String)
  /-- A tag of one's own whose octets are no text. -/
  | illegible
  | other
deriving DecidableEq

abbrev Octets := List UInt8

def octets (s : String) : Octets := s.toUTF8.toList

namespace Tag

def ofText (text : String) : Tag :=
  if text = "tag:yaml.org,2002:null" then .null
  else if text = "tag:yaml.org,2002:bool" then .bool
  else if text = "tag:yaml.org,2002:int" then .int
  else if text = "tag:yaml.org,2002:float" then .float
  else if text = "!" then .own text
  else if text.startsWith "!" then .own (text.drop 1).toString
  else .other

def ofOctets (o : Octets) : Tag :=
  match String.fromUTF8? ⟨o.toArray⟩ with
  | some text => ofText text
  | none => if o.head? = some 0x21 then .illegible else .other

end Tag

def counting (o : Octets) : Octets := o.takeWhile (· != 0)

abbrev Handles := List (String × Octets)

def Tag.ofHandle? (handles : Handles) (handle : String) (suffix : Octets) : Option Tag :=
  if handle.isEmpty then some (.ofOctets (counting suffix))
  else (handles.lookup handle).map fun meaning => .ofOctets (counting meaning ++ counting suffix)

/-! Written tags. -/

def isTagCharacter (verbatim : Bool) (c : Char) : Bool :=
  isWord c ||
    [';', '/', '?', ':', '@', '&', '=', '+', '$', '.', '!', '~', '*', '\'', '(', ')'].contains c ||
    (verbatim && [',', '[', ']'].contains c)

def trailing? (first : Nat) : Option Nat :=
  if first < 0x80 then some 0
  else if first / 0x20 = 6 then some 1
  else if first / 0x10 = 14 then some 2
  else if first / 8 = 30 then some 3
  else none

/-- The octets of a tag, and how many characters were read for them.  Of a character whose octets are
escaped, `pending` more have to follow. -/
def tagOctets (verbatim : Bool) (pending : Nat) : List Char → Option (Octets × Nat)
  | '%' :: a :: b :: r => do
    let octet ← hexNumber? [a, b]
    let pending ←
      if pending = 0 then trailing? octet
      else if octet / 0x40 = 2 then some (pending - 1) else none
    let (o, n) ← tagOctets verbatim pending r
    return (.ofNat octet :: o, n + 3)
  | s =>
    if pending ≠ 0 then none
    else
      match s with
      | [] => some ([], 0)
      | c :: r =>
        if c = '%' then none
        else if isTagCharacter verbatim c then do
          let (o, n) ← tagOctets verbatim 0 r
          return (.ofNat c.toNat :: o, n + 1)
        else some ([], 0)

def tagHandle (c : Cursor) : Option (String × Cursor) :=
  if startsWith ['!'] c.rest then
    let (name, c) := c.next.span isWord
    if startsWith ['!'] c.rest then some (String.ofList ('!' :: name ++ ['!']), c.next)
    else some (String.ofList ('!' :: name), c)
  else none

end SchemaGraph.Yaml
