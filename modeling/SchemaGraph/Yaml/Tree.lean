import SchemaGraph.Yaml.Token

/-! The one document of a YAML text as a tree, with anchors and aliases still in it.  Every function here
takes tokens from the front and tells how many are left, so that reading ends. -/
namespace SchemaGraph.Yaml

structure Scalar where
  tag : Option Tag
  style : Style
  text : String
deriving DecidableEq

inductive Tree (ι : Type)
  | alias (target : ι)
  | scalar (anchor : Option String) (s : Scalar)
  | list (anchor : Option String) (tag : Option Tag) (items : List (Tree ι))
  | map (anchor : Option String) (tag : Option Tag) (entries : List (Tree ι × Tree ι))
deriving Inhabited

inductive Position
  | flow
  | block
  /-- In a mapping, whose entries can be lists without indentation of their own. -/
  | entry
deriving DecidableEq

structure Parsed (α : Type) (ts : List Token) where
  value : α
  rest : List Token
  le : rest.length ≤ ts.length

namespace Parsed

variable {α β : Type} {t : Token} {ts us : List Token}

def map (f : α → β) (p : Parsed α ts) : Parsed β ts := ⟨f p.value, p.rest, p.le⟩

def after (t : Token) (p : Parsed α ts) : Parsed α (t :: ts) :=
  ⟨p.value, p.rest, Nat.le_succ_of_le p.le⟩

def widen (h : ts.length ≤ us.length) (p : Parsed α ts) : Parsed α us :=
  ⟨p.value, p.rest, Nat.le_trans p.le h⟩

end Parsed

def emptyScalar {ι : Type} : Tree ι := .scalar none ⟨none, .plain, ""⟩

def startsContent (position : Position) : List Token → Bool
  | .scalar .. :: _ | .flowList :: _ | .flowMap :: _ => true
  | .blockList :: _ | .blockMap :: _ => position != .flow
  | .entry :: _ => position == .entry
  | _ => false

def atOneOf (ends : List Token) : List Token → Bool
  | t :: _ => ends.contains t
  | [] => false

mutual

def node (handles : Handles) (position : Position) (ts : List Token) :
    Option (Parsed (Tree String) ts) :=
  match ts with
  | .alias name :: r => some ⟨.alias name, r, Nat.le_succ _⟩
  | .anchor a :: .tag h s :: r => do
    let tag ← Tag.ofHandle? handles h s
    return ((← optionalContent handles position (some a) (some tag) r).after _).after _
  | .anchor a :: r => do
    return (← optionalContent handles position (some a) none r).after _
  | .tag h s :: .anchor a :: r => do
    let tag ← Tag.ofHandle? handles h s
    return ((← optionalContent handles position (some a) (some tag) r).after _).after _
  | .tag h s :: r => do
    let tag ← Tag.ofHandle? handles h s
    return (← optionalContent handles position none (some tag) r).after _
  | ts => content handles position none none ts
termination_by 10 * ts.length + 4

def optionalContent (handles : Handles) (position : Position) (anchor : Option String) (tag : Option Tag)
    (ts : List Token) : Option (Parsed (Tree String) ts) :=
  if startsContent position ts then content handles position anchor tag ts
  else some ⟨.scalar anchor ⟨tag, .plain, ""⟩, ts, Nat.le_refl _⟩
termination_by 10 * ts.length + 3

def content (handles : Handles) (position : Position) (anchor : Option String) (tag : Option Tag)
    (ts : List Token) : Option (Parsed (Tree String) ts) :=
  match ts with
  | .scalar style text :: r =>
    some ⟨.scalar anchor ⟨tag, style, text⟩, r, Nat.le_succ _⟩
  | .flowList :: r => do
    return ((← flowItems handles r).map (.list anchor tag)).after _
  | .flowMap :: r => do
    return ((← flowEntries handles r).map (.map anchor tag)).after _
  | .blockList :: r => do
    if position = .flow then none
    return ((← blockItems handles r).map (.list anchor tag)).after _
  | .blockMap :: r => do
    if position = .flow then none
    return ((← blockEntries handles r).map (.map anchor tag)).after _
  | .entry :: r => do
    if position ≠ .entry then none
    return (← entryItems handles (.entry :: r)).map (.list anchor tag)
  | _ => none
termination_by 10 * ts.length + 2

def nodeOrEmpty (handles : Handles) (position : Position) (ends : List Token) (ts : List Token) :
    Option (Parsed (Tree String) ts) :=
  if atOneOf ends ts then some ⟨emptyScalar, ts, Nat.le_refl _⟩ else node handles position ts
termination_by 10 * ts.length + 5

def valueOrEmpty (handles : Handles) (position : Position) (ends : List Token) (ts : List Token) :
    Option (Parsed (Tree String) ts) :=
  match ts with
  | .value :: r => do return (← nodeOrEmpty handles position ends r).after _
  | ts => some ⟨emptyScalar, ts, Nat.le_refl _⟩
termination_by 10 * ts.length + 6

def blockItems (handles : Handles) (ts : List Token) : Option (Parsed (List (Tree String)) ts) :=
  match ts with
  | .entry :: r => do
    let item ← nodeOrEmpty handles .block [.entry, .blockEnd] r
    have := item.le
    let items ← blockItems handles item.rest
    return ((items.map (item.value :: ·)).widen item.le).after _
  | .blockEnd :: r => some ⟨[], r, Nat.le_succ _⟩
  | _ => none
termination_by 10 * ts.length + 1

def entryItems (handles : Handles) (ts : List Token) : Option (Parsed (List (Tree String)) ts) :=
  match ts with
  | .entry :: r => do
    let item ← nodeOrEmpty handles .block [.entry, .key, .value, .blockEnd] r
    have := item.le
    let items ← entryItems handles item.rest
    return ((items.map (item.value :: ·)).widen item.le).after _
  | ts => some ⟨[], ts, Nat.le_refl _⟩
termination_by 10 * ts.length + 1

def blockEntries (handles : Handles) (ts : List Token) :
    Option (Parsed (List (Tree String × Tree String)) ts) :=
  match ts with
  | .key :: r => do
    let ends : List Token := [.key, .value, .blockEnd]
    let key ← nodeOrEmpty handles .entry ends r
    have := key.le
    let value ← valueOrEmpty handles .entry ends key.rest
    have := value.le
    let entries ← blockEntries handles value.rest
    return ((entries.map ((key.value, value.value) :: ·)).widen (Nat.le_trans value.le key.le)).after _
  | .blockEnd :: r => some ⟨[], r, Nat.le_succ _⟩
  | _ => none
termination_by 10 * ts.length + 1

/-- The key of an item in brackets.  Where nothing is written the next token goes with it. -/
def flowKey (handles : Handles) (ts : List Token) : Option (Parsed (Tree String) ts) :=
  match ts with
  | .value :: r | .comma :: r | .flowListEnd :: r => some ⟨emptyScalar, r, Nat.le_succ _⟩
  | ts => node handles .flow ts
termination_by 10 * ts.length + 5

def flowItem (handles : Handles) (ts : List Token) : Option (Parsed (Tree String) ts) :=
  match ts with
  | .key :: r => do
    let key ← flowKey handles r
    have := key.le
    let value ← valueOrEmpty handles .flow [.comma, .flowListEnd] key.rest
    return ((value.map fun v => .map none none [(key.value, v)]).widen key.le).after _
  | ts => node handles .flow ts
termination_by 10 * ts.length + 7

def flowItems (handles : Handles) (ts : List Token) : Option (Parsed (List (Tree String)) ts) :=
  match ts with
  | .flowListEnd :: r => some ⟨[], r, Nat.le_succ _⟩
  | ts => do
    let item ← flowItem handles ts
    have := item.le
    let items ← moreFlowItems handles item.rest
    return (items.map (item.value :: ·)).widen item.le
termination_by 10 * ts.length + 9

def moreFlowItems (handles : Handles) (ts : List Token) : Option (Parsed (List (Tree String)) ts) :=
  match ts with
  | .comma :: r => do return (← flowItems handles r).after _
  | .flowListEnd :: r => some ⟨[], r, Nat.le_succ _⟩
  | _ => none
termination_by 10 * ts.length + 8

def flowEntry (handles : Handles) (ts : List Token) :
    Option (Parsed (Tree String × Tree String) ts) :=
  match ts with
  | .key :: r => do
    let key ← nodeOrEmpty handles .flow [.value, .comma, .flowMapEnd] r
    have := key.le
    let value ← valueOrEmpty handles .flow [.comma, .flowMapEnd] key.rest
    return ((value.map fun v => (key.value, v)).widen key.le).after _
  | ts => do return (← node handles .flow ts).map (·, emptyScalar)
termination_by 10 * ts.length + 7

def flowEntries (handles : Handles) (ts : List Token) :
    Option (Parsed (List (Tree String × Tree String)) ts) :=
  match ts with
  | .flowMapEnd :: r => some ⟨[], r, Nat.le_succ _⟩
  | ts => do
    let entry ← flowEntry handles ts
    have := entry.le
    let entries ← moreFlowEntries handles entry.rest
    return (entries.map (entry.value :: ·)).widen entry.le
termination_by 10 * ts.length + 9

def moreFlowEntries (handles : Handles) (ts : List Token) :
    Option (Parsed (List (Tree String × Tree String)) ts) :=
  match ts with
  | .comma :: r => do return (← flowEntries handles r).after _
  | .flowMapEnd :: r => some ⟨[], r, Nat.le_succ _⟩
  | _ => none
termination_by 10 * ts.length + 8

end

/-- The directives before a document: at most one version, which is 1.1 or 1.2, and one meaning for a
handle. -/
def directives (versioned : Bool) (handles : Handles) : List Token → Option (Handles × List Token)
  | .version major minor :: r =>
    if versioned ∨ major ≠ 1 ∨ (minor ≠ 1 ∧ minor ≠ 2) then none else directives true handles r
  | .tagHandle h meaning :: r =>
    if (handles.lookup h).isSome then none else directives versioned (handles ++ [(h, meaning)]) r
  | ts => some (handles, ts)

def standardHandles : Handles := [("!", octets "!"), ("!!", octets "tag:yaml.org,2002:")]

def documentContent (handles : Handles) (ts : List Token) : Option (Tree String × List Token) :=
  match ts with
  | [] | .version .. :: _ | .tagHandle .. :: _ | .documentStart :: _ | .documentEnd :: _ =>
    some (emptyScalar, ts)
  | ts => (node handles .block ts).map fun p => (p.value, p.rest)

/-- The tree of a text with one document.  A line that starts the document is needed only behind
directives. -/
def Tree.ofTokens? (ts : List Token) : Option (Tree String) := do
  let (handles, r) ← directives false [] ts
  let handles := handles ++ standardHandles
  let (tree, r) ←
    match r with
    | .documentStart :: q => documentContent handles q
    | [] => none
    | q => if q.length = ts.length then (node handles .block q).map fun p => (p.value, p.rest) else none
  if r.all (· == .documentEnd) then some tree else none

end SchemaGraph.Yaml
