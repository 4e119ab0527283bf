import SchemaGraph.OrderedMap
import SchemaGraph.Yaml.Tree

/-! The value of a document: its tree with every alias replaced by the node that it stands for.

Anchors are numbered by how many different names came before them, and an alias stands for the last node of
a number.  As long as no anchor is repeated this is the node of the alias's name. -/
namespace SchemaGraph.Yaml

inductive Node
  | scalar (s : Scalar)
  | list (tag : Option Tag) (items : List Node)
  | map (tag : Option Tag) (entries : List (Node × Node))
deriving Inhabited

/-! Numbers instead of names. -/

structure Anchors where
  numbers : OrderedMap String Nat := ∅
  /-- The last node of each number, with its place among the anchored nodes. -/
  nodes : OrderedMap Nat (Nat × Tree Nat) := ∅
  /-- How many nodes have had an anchor so far. -/
  count : Nat := 0

abbrev Numbering := StateT Anchors Option

def openAnchor (name : String) : Numbering (Nat × Nat) := do
  let a ← get
  let number := a.numbers.size
  set { a with
    numbers := a.numbers.insert name number
    nodes := a.nodes.insert number (a.count, emptyScalar)
    count := a.count + 1 }
  return (number, a.count)

def closeAnchor (number place : Nat) (t : Tree Nat) : Numbering Unit := do
  let a ← get
  if (a.nodes.get? number).map (·.1) = some place then
    set { a with nodes := a.nodes.insert number (place, t) }

def anchored (anchor : Option String) (parts : Numbering (Tree Nat)) : Numbering (Tree Nat) :=
  match anchor with
  | none => parts
  | some name => do
    let (number, place) ← openAnchor name
    let t ← parts
    closeAnchor number place t
    return t

mutual

def Tree.numbered : Tree String → Numbering (Tree Nat)
  | .alias name => do
    match (← get).numbers.get? name with
    | some number => return .alias number
    | none => failure
  | .scalar anchor s => anchored anchor (pure (.scalar anchor s))
  | .list anchor tag items => anchored anchor do return .list anchor tag (← numberedItems items)
  | .map anchor tag entries =>
    anchored anchor do return .map anchor tag (← numberedEntries entries)

def Tree.numberedItems : List (Tree String) → Numbering (List (Tree Nat))
  | [] => return []
  | t :: r => do
    let t ← t.numbered
    return t :: (← numberedItems r)

def Tree.numberedEntries : List (Tree String × Tree String) → Numbering (List (Tree Nat × Tree Nat))
  | [] => return []
  | (k, v) :: r => do
    let k ← k.numbered
    let v ← v.numbered
    return (k, v) :: (← numberedEntries r)

end

/-! Nodes instead of numbers. -/

mutual

/-- The number of marks that a tree is written with: one for a scalar or an alias, two around a list or a
mapping. -/
def Tree.marks {ι : Type} : Tree ι → Nat
  | .alias _ | .scalar _ _ => 1
  | .list _ _ items => marksOfItems items + 2
  | .map _ _ entries => marksOfEntries entries + 2

def Tree.marksOfItems {ι : Type} : List (Tree ι) → Nat
  | [] => 0
  | t :: r => t.marks + marksOfItems r

def Tree.marksOfEntries {ι : Type} : List (Tree ι × Tree ι) → Nat
  | [] => 0
  | (k, v) :: r => k.marks + v.marks + marksOfEntries r

end

abbrev Following := StateT Nat Option

def follow (a : Anchors) (t : Tree Nat) : Following (Tree Nat) :=
  match t with
  | .alias number => do
    let left ← get
    if left = 0 then failure
    set (left - 1)
    match a.nodes.get? number with
    | some (_, t) => return t
    | none => failure
  | t => return t

def unfolded (a : Anchors) : (depth : Nat) → Tree Nat → Following Node
  | _, .scalar _ s => return .scalar s
  | depth + 1, .list _ tag items => do
    return .list tag (← items.mapM fun t => do unfolded a depth (← follow a t))
  | depth + 1, .map _ tag entries => do
    return .map tag (← entries.mapM fun (k, v) => do
      let k ← unfolded a depth (← follow a k)
      let v ← unfolded a depth (← follow a v)
      return (k, v))
  | _, _ => failure

def maxDepth : Nat := 128

/-- The value of a text with one document.  Of aliases a hundred can be followed for every mark of the
text. -/
def Node.ofText? (text : String) : Option Node := do
  let tree ← Tree.ofTokens? (← tokensOfText? text)
  let (tree, anchors) ← tree.numbered.run {}
  let (node, _) ← (unfolded anchors maxDepth tree).run (100 * tree.marks)
  return node

end SchemaGraph.Yaml
