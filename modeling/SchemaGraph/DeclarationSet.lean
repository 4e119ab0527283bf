import SchemaGraph.Declaration.Builtin
import SchemaGraph.DocumentError
import SchemaGraph.OrderedMap

/-! The global declarations of several schema documents.  Documents are added one after the other; a
name can be declared once.  What a rejected document has added before its fault stays. -/
namespace SchemaGraph

structure DocumentIndex where
  targetNamespace : Option String
  elements : List QName
  types : List QName

structure DeclarationSet where
  documents : List DocumentIndex
  types : OrderedMap QName TypeDef
  elements : OrderedMap QName ElementDecl
  attributes : OrderedMap QName AttributeDecl
  attributeGroups : OrderedMap QName AttributeGroupDef
  groups : OrderedMap QName ModelGroupDef
  /-- The members of the substitution group of each head. -/
  substitutionGroups : OrderedMap QName (List QName)

/-- A computation that can fail and keeps the state in which it failed. -/
abbrev Stateful (σ ε α : Type) := ExceptT ε (StateM σ) α

def Stateful.result {σ ε : Type} (x : Stateful σ ε Unit) (s : σ) : Except ε σ :=
  let (r, s) := x.run.run s
  r.map fun _ => s

namespace DeclarationSet

def empty : DeclarationSet := ⟨[], ∅, ∅, ∅, ∅, ∅, ∅⟩

def type? (s : DeclarationSet) (name : QName) : Option TypeDef :=
  (s.types.get? name).orElse fun _ => builtinType? name

theorem isSome_type?_primitive (s : DeclarationSet) (p : Primitive) :
    (s.type? (QName.xsd p.builtinName)).isSome = true := by
  simp [type?, builtinType?_primitive]

def element? (s : DeclarationSet) (name : QName) : Option ElementDecl := s.elements.get? name

def attr? (s : DeclarationSet) (name : QName) : Option AttributeDecl := s.attributes.get? name

def attributeGroup? (s : DeclarationSet) (name : QName) : Option AttributeGroupDef :=
  s.attributeGroups.get? name

def group? (s : DeclarationSet) (name : QName) : Option ModelGroupDef := s.groups.get? name

/-- The global elements that join the substitution group of `head`, in declaration order. -/
def substitutes (s : DeclarationSet) (head : QName) : List QName := (s.substitutionGroups.get? head).getD []

def addType (d : TypeDef) : Stateful DeclarationSet DocumentError Unit := do
  match d.name with
  | none => throw (.invalidStructure .unnamedType)
  | some name =>
    if ((← get).type? name).isSome then throw (.duplicateDefinition .type name)
    modify fun s => { s with types := s.types.insert name d }

def joinHead (groups : OrderedMap QName (List QName)) (d : ElementDecl) : OrderedMap QName (List QName) :=
  match d.head with
  | none => groups
  | some head => groups.insert head ((groups.get? head).getD [] ++ [d.name])

def addElement (d : ElementDecl) : Stateful DeclarationSet DocumentError Unit := do
  if (← get).elements.contains d.name then throw (.duplicateDefinition .element d.name)
  modify fun s =>
    { s with elements := s.elements.insert d.name d, substitutionGroups := joinHead s.substitutionGroups d }

/-- The last declaration of an attribute is the one that stays. -/
def addAttribute (name : QName) (d : AttributeDecl) : Stateful DeclarationSet DocumentError Unit := do
  let known := (← get).attributes.contains name
  modify fun s => { s with attributes := s.attributes.insert name d }
  if known then throw (.duplicateDefinition .attr name)

def addAttributeGroup (d : AttributeGroupDef) : Stateful DeclarationSet DocumentError Unit := do
  let known := (← get).attributeGroups.contains d.name
  modify fun s => { s with attributeGroups := s.attributeGroups.insert d.name d }
  if known then throw (.duplicateDefinition .attributeGroup d.name)

def addGroup (d : ModelGroupDef) : Stateful DeclarationSet DocumentError Unit := do
  let known := (← get).groups.contains d.name
  modify fun s => { s with groups := s.groups.insert d.name d }
  if known then throw (.duplicateDefinition .group d.name)

/-- Adds the declarations of a document, types first; the document itself is listed only if all of
them are new. -/
def add (doc : SchemaDocument) : Stateful DeclarationSet DocumentError Unit := do
  doc.types.forM addType
  doc.elements.forM addElement
  doc.attributes.forM fun (name, d) => addAttribute name d
  doc.attributeGroups.forM addAttributeGroup
  doc.groups.forM addGroup
  let index : DocumentIndex :=
    ⟨doc.targetNamespace, doc.elements.map (·.name), doc.types.filterMap (·.name)⟩
  modify fun s => { s with documents := s.documents ++ [index] }

end DeclarationSet

end SchemaGraph
