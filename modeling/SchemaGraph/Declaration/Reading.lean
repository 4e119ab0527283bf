import SchemaGraph.Declaration.Basic
import SchemaGraph.Markup.Document

/-! Reading a schema document.

The same element can be asked to be an element declaration, a type or a group.  `Reading` holds the
answers of one element; they are made from those of its children, so that one recursion along the tree
serves all positions. -/
namespace SchemaGraph

open Markup (Element)

/-- What the names in a document are relative to. -/
structure NameContext where
  target : Option String
  /-- Whether local elements take the target namespace unless they say otherwise. -/
  qualifiesLocals : Bool

namespace NameContext

def globalName (ctx : NameContext) (localName : String) : QName := ⟨ctx.target, localName⟩

def localName (ctx : NameContext) (e : Element) (name : String) : QName :=
  let qualified :=
    match e.attr? "form" with
    | some form => form == "qualified"
    | none => ctx.qualifiesLocals
  ⟨if qualified then ctx.target else none, name⟩

end NameContext

/-- A count below `2 ^ 32`, written in digits with an optional plus sign. -/
def readCount (s : String) : Option Nat :=
  let digits :=
    match s.toList with
    | '+' :: r => r
    | r => r
  (Markup.numeral 10 digits).filter (· < Nat.pow 2 32)

def readOccurs (e : Element) : Except DocumentError Occurs := do
  let min ←
    match e.attr? "minOccurs" with
    | none => pure 1
    | some s =>
      match readCount s with
      | some n => pure n
      | none => throw (.invalidAttribute e.tag "minOccurs" s)
  let max ←
    match e.attr? "maxOccurs" with
    | none => pure (.bounded 1)
    | some s =>
      if s = "unbounded" then pure .unbounded
      else
        match readCount s with
        | some n => pure (.bounded n)
        | none => throw (.invalidAttribute e.tag "maxOccurs" s)
  return ⟨min, max⟩

def readFlag (e : Element) (key : String) : Except DocumentError Bool :=
  match e.attr? key with
  | none | some "false" | some "0" => .ok false
  | some "true" | some "1" => .ok true
  | some other => .error (.invalidAttribute e.tag key other)

def compositor? (localName : String) : Option Compositor :=
  match localName with
  | "sequence" => some .sequence
  | "choice" => some .choice
  | "all" => some .all
  | _ => none

/-- What an element says in each position in which it can stand. -/
structure Reading where
  elementDecl : (isGlobal : Bool) → Except DocumentError ElementDecl
  complexType : Option QName → Except DocumentError TypeDef
  simpleType : Option QName → Except DocumentError TypeDef
  /-- As the derivation of a simple type; an annotation is none. -/
  simpleBody : (parent : Element) → Except DocumentError (Option TypeBody)
  modelGroup : Compositor → Except DocumentError ModelGroup
  /-- As a derivation inside complex content, added to what the type has so far. -/
  complexDerivation : (parent : Element) → ComplexDef → Except DocumentError ComplexDef
  simpleDerivation : (parent : Element) → ComplexDef → Except DocumentError ComplexDef
  /-- As the complex or simple content of a complex type. -/
  contentOf : ComplexDef → Except DocumentError ComplexDef
  attributeDecl : Except DocumentError AttributeDecl
  attributeGroup : Except DocumentError AttributeGroupDef
  groupDef : Except DocumentError ModelGroupDef

namespace Reading

abbrev Parts := List (Element × Reading)

/-- The type declared inside an element, if there is one. -/
def inlineType (parts : Parts) : Except DocumentError TypeRef :=
  match parts.find? fun p => p.1.localName == "complexType" || p.1.localName == "simpleType" with
  | none => .ok .unspecified
  | some (e, r) =>
    (if e.localName == "complexType" then r.complexType none else r.simpleType none).map .inline

/-- The type named by an attribute, or else the one declared inside. -/
def typeRef (e : Element) (key : String) (parts : Parts) : Except DocumentError TypeRef := do
  match ← e.qname? key with
  | some name => return .named name
  | none => inlineType parts

def readElementDecl (ctx : NameContext) (e : Element) (parts : Parts) (isGlobal : Bool) :
    Except DocumentError ElementDecl := do
  let localName ← e.attr "name"
  let name := if isGlobal then ctx.globalName localName else ctx.localName e localName
  let typeRef ← typeRef e "type" parts
  let occurs ← readOccurs e
  let isAbstract ← readFlag e "abstract"
  let head ← e.qname? "substitutionGroup"
  return { name, typeRef, occurs, isAbstract, head }

def groupRef (e : Element) : Except DocumentError Particle := do
  let name ← e.qname "ref"
  let occurs ← readOccurs e
  return .groupRef name occurs

/-- The particle that a child of `parent` stands for; an annotation is none. -/
def particle? (parent : Element) (part : Element × Reading) :
    Except DocumentError (Option Particle) :=
  let (e, r) := part
  match compositor? e.localName with
  | some c => do return some (.group (← r.modelGroup c))
  | none =>
    match e.localName with
    | "element" => do
      match ← e.qname? "ref" with
      | some name => return some (.elementRef name (← readOccurs e))
      | none => return some (.element (← r.elementDecl false))
    | "group" => do return some (← groupRef e)
    | "any" => do return some (.any (← readOccurs e))
    | "annotation" => return none
    | _ => throw (.unknownElement e.tag parent.tag)

def readModelGroup (e : Element) (parts : Parts) (compositor : Compositor) :
    Except DocumentError ModelGroup := do
  let particles ← parts.mapM (particle? e)
  return { compositor, occurs := ← readOccurs e, particles := particles.filterMap id }

/-- An entry in a list of attributes; a prohibited attribute is none. -/
def attributeUse? (part : Element × Reading) : Except DocumentError (Option AttributeUse) := do
  let (e, r) := part
  if e.attr? "use" = some "prohibited" then return none
  match e.localName, ← e.qname? "ref" with
  | "attributeGroup", some name => return some (.group name)
  | "attributeGroup", none => throw (.missingAttribute e.tag "ref")
  | _, some name => return some (.reference name)
  | _, none => return some (.declared (← r.attributeDecl))

def addAttribute (part : Element × Reading) (d : ComplexDef) : Except DocumentError ComplexDef := do
  return { d with attributes := d.attributes ++ (← attributeUse? part).toList }

def addPart (parent : Element) (d : ComplexDef) (part : Element × Reading) :
    Except DocumentError ComplexDef :=
  let (e, r) := part
  match compositor? e.localName with
  | some c => do return { d with content := .elements (← r.modelGroup c) }
  | none =>
    match e.localName with
    | "group" => do
      let particle ← groupRef e
      return { d with content := .elements ⟨.sequence, .once, [particle]⟩ }
    | "attribute" | "attributeGroup" => addAttribute part d
    | "anyAttribute" => return { d with anyAttribute := true }
    | "annotation" => return d
    | _ => throw (.unknownElement e.tag parent.tag)

def readComplexDerivation (e : Element) (parts : Parts) (parent : Element) (d : ComplexDef) :
    Except DocumentError ComplexDef :=
  match e.localName with
  | "extension" => do
    parts.foldlM (addPart e) { d with derivation := .extension (← e.qname "base") }
  | "restriction" => do
    parts.foldlM (addPart e) { d with derivation := .restriction (← e.qname "base") }
  | "annotation" => return d
  | _ => throw (.unknownElement e.tag parent.tag)

/-- A child of a derivation in simple content: a literal, or a part of the attributes.  Other facets
do not change the class of the values. -/
def addFacet (acc : List String × ComplexDef) (part : Element × Reading) :
    Except DocumentError (List String × ComplexDef) :=
  match part.1.localName with
  | "enumeration" => do return (acc.1 ++ [← part.1.attr "value"], acc.2)
  | "attribute" | "attributeGroup" => do return (acc.1, ← addAttribute part acc.2)
  | "anyAttribute" => return (acc.1, { acc.2 with anyAttribute := true })
  | _ => return acc

def readSimpleDerivation (e : Element) (parts : Parts) (parent : Element) (d : ComplexDef) :
    Except DocumentError ComplexDef := do
  let base ← e.qname? "base"
  let withBase := fun (derivation : QName → Derivation) => do
    match base with
    | none => throw (.missingAttribute e.tag "base")
    | some name =>
      let (literals, d) ← parts.foldlM addFacet ([], { d with derivation := derivation name })
      return { d with content := .simple literals }
  match e.localName with
  | "extension" => withBase .extension
  | "restriction" => withBase .restriction
  | "annotation" => return d
  | _ => throw (.unknownElement e.tag parent.tag)

def readContent (e : Element) (parts : Parts) (d : ComplexDef) : Except DocumentError ComplexDef :=
  if e.localName == "complexContent" then
    parts.foldlM (fun d part => part.2.complexDerivation e d) d
  else parts.foldlM (fun d part => part.2.simpleDerivation e d) d

def addTypePart (parent : Element) (d : ComplexDef) (part : Element × Reading) :
    Except DocumentError ComplexDef :=
  match part.1.localName with
  | "complexContent" | "simpleContent" => part.2.contentOf d
  | "annotation" => .ok d
  | _ => addPart parent d part

def readComplexType (e : Element) (parts : Parts) (name : Option QName) :
    Except DocumentError TypeDef := do
  let definition ← parts.foldlM (addTypePart e) ComplexDef.empty
  return { name, isAbstract := ← readFlag e "abstract", body := .complex definition }

def readSimpleBody (e : Element) (parts : Parts) (parent : Element) :
    Except DocumentError (Option TypeBody) :=
  match e.localName with
  | "restriction" => do
    let base ← typeRef e "base" parts
    let literals ← (e.childrenNamed "enumeration").mapM (·.attr "value")
    return some (.restriction base literals)
  | "list" => do return some (.list (← typeRef e "itemType" parts))
  | "union" => return some .union
  | "annotation" => return none
  | _ => throw (.unknownElement e.tag parent.tag)

/-- The last derivation counts. -/
def readSimpleType (e : Element) (parts : Parts) (name : Option QName) :
    Except DocumentError TypeDef := do
  let bodies ← parts.mapM fun part => part.2.simpleBody e
  match (bodies.filterMap id).getLast? with
  | some body => return { name, isAbstract := false, body }
  | none => throw (.invalidStructure (.emptySimpleType name))

def readAttributeDecl (e : Element) (parts : Parts) : Except DocumentError AttributeDecl := do
  let name ← e.attr "name"
  return { name, typeRef := ← typeRef e "type" parts }

def addToAttributeGroup (parent : Element) (g : AttributeGroupDef) (part : Element × Reading) :
    Except DocumentError AttributeGroupDef :=
  match part.1.localName with
  | "attribute" | "attributeGroup" => do
    return { g with attributes := g.attributes ++ (← attributeUse? part).toList }
  | "anyAttribute" => return { g with anyAttribute := true }
  | "annotation" => return g
  | _ => throw (.unknownElement part.1.tag parent.tag)

def readAttributeGroup (ctx : NameContext) (e : Element) (parts : Parts) :
    Except DocumentError AttributeGroupDef := do
  let name ← e.attr "name"
  parts.foldlM (addToAttributeGroup e) ⟨ctx.globalName name, [], false⟩

def readGroupDef (ctx : NameContext) (e : Element) (parts : Parts) :
    Except DocumentError ModelGroupDef := do
  let name := ctx.globalName (← e.attr "name")
  let group? := parts.findSome? fun (e, r) => (compositor? e.localName).map r.modelGroup
  match group? with
  | some group => return { name, group := ← group }
  | none => throw (.invalidStructure (.emptyGroup name))

def ofParts (ctx : NameContext) (e : Element) (parts : Parts) : Reading where
  elementDecl := readElementDecl ctx e parts
  complexType := readComplexType e parts
  simpleType := readSimpleType e parts
  simpleBody := readSimpleBody e parts
  modelGroup := readModelGroup e parts
  complexDerivation := readComplexDerivation e parts
  simpleDerivation := readSimpleDerivation e parts
  contentOf := readContent e parts
  attributeDecl := readAttributeDecl e parts
  attributeGroup := readAttributeGroup ctx e parts
  groupDef := readGroupDef ctx e parts

mutual

def ofElement (ctx : NameContext) : Element → Reading
  | ⟨label, localName, attributes, scope, children⟩ =>
    ofParts ctx ⟨label, localName, attributes, scope, children⟩ (partsOf ctx children)

def partsOf (ctx : NameContext) : List Element → Parts
  | [] => []
  | e :: rest => (e, ofElement ctx e) :: partsOf ctx rest

end

end Reading

namespace SchemaDocument

def addGlobal (ctx : NameContext) (doc : SchemaDocument) (part : Element × Reading) :
    Except DocumentError SchemaDocument :=
  let (e, r) := part
  match e.localName with
  | "element" => do return { doc with elements := doc.elements ++ [← r.elementDecl true] }
  | "complexType" => do
    let name := ctx.globalName (← e.attr "name")
    return { doc with types := doc.types ++ [← r.complexType (some name)] }
  | "simpleType" => do
    let name := ctx.globalName (← e.attr "name")
    return { doc with types := doc.types ++ [← r.simpleType (some name)] }
  | "attribute" => do
    let decl ← r.attributeDecl
    return { doc with attributes := doc.attributes ++ [(ctx.globalName decl.name, decl)] }
  | "attributeGroup" => do
    return { doc with attributeGroups := doc.attributeGroups ++ [← r.attributeGroup] }
  | "group" => do return { doc with groups := doc.groups ++ [← r.groupDef] }
  | "annotation" | "import" | "include" | "notation" => return doc
  | _ => throw (.unknownElement e.tag "schema")

def ofElement (root : Element) : Except DocumentError SchemaDocument := do
  if root.localName != "schema" || root.uri != some QName.xsdUri then
    throw (.invalidStructure (.wrongRoot "xs:schema" root.tag))
  let target := root.attr? "targetNamespace"
  let ctx : NameContext := ⟨target, root.attr? "elementFormDefault" == some "qualified"⟩
  (Reading.partsOf ctx root.children).foldlM (addGlobal ctx) { targetNamespace := target }

def ofText (text : String) : Except DocumentError SchemaDocument := do
  ofElement (← Element.ofText text)

end SchemaDocument

end SchemaGraph
