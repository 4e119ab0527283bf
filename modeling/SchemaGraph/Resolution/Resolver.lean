import SchemaGraph.Graph.Basic
import SchemaGraph.Hierarchy
import SchemaGraph.Linking.Mentions
import SchemaGraph.Override.Table
import SchemaGraph.Resolution.Layout
import SchemaGraph.Resolution.Scalar

/-! From declarations to entries of a registry.

A type is entered under its key before it is filled, so that content that comes back to the type ends
there.  Filling a type resolves the types of its parts; that step is a parameter of everything below it
and is tied up at the end, in `fillTo`, with a bound on how many types can be open at once. -/
namespace SchemaGraph

structure ResolveOptions where
  /-- Namespaces whose types get entries of their own; none means the target namespaces of the loaded
  documents. -/
  knownNamespaces : List String := []
  /-- Elements that may be without a type because they are used as headers only. -/
  headerOnly : List QName := []

structure ResolveContext where
  set : DeclarationSet
  hierarchy : ClassHierarchy
  overrides : OverrideTable
  options : ResolveOptions

namespace ResolveContext

/-- The namespaces whose types get entries of their own.  The XML Schema namespace is always one. -/
def knownNamespaces (c : ResolveContext) : List String :=
  QName.xsdUri ::
    if c.options.knownNamespaces.isEmpty then c.set.documents.filterMap (·.targetNamespace)
    else c.options.knownNamespaces

def isKnown (c : ResolveContext) (name : QName) : Bool :=
  match name.uri with
  | some uri => c.knownNamespaces.contains uri
  | none => false

theorem isKnown_xsd (c : ResolveContext) (localName : String) :
    c.isKnown (QName.xsd localName) = true := by
  simp [isKnown, QName.xsd, knownNamespaces]

end ResolveContext

/-- What resolution has built. -/
structure ResolveState where
  types : Registry
  /-- The sites of the inline types among the entries. -/
  anonymous : List (TypeId × Site)
  elements : ElementMap
  skippedHeaders : List String
  diagnostics : List Diagnostic

abbrev Resolve := Stateful ResolveState ResolveError

namespace ResolveState

def empty : ResolveState := ⟨.empty, [], ∅, [], []⟩

end ResolveState

namespace Resolve

def diagnose (kind : DiagnosticKind) (subject message : String) : Resolve Unit :=
  modify fun s => { s with diagnostics := s.diagnostics ++ [⟨kind, subject, message⟩] }

def lookup (key : String) : Resolve (Option TypeId) := return (← get).types.lookup key

def entryAt (id : TypeId) : Resolve TypeEntry := do
  match (← get).types.get? id with
  | some t => return t
  | none => throw (.unknownHandle id)

def modifyType (id : TypeId) (f : TypeEntry → TypeEntry)
    (keeps : ∀ t, (f t).key = t.key := by intro _; rfl) : Resolve Unit := do
  discard (entryAt id)
  modify fun s => { s with types := s.types.modify id f keeps }

def reserve (name : QName) (isAbstract : Bool) : Resolve TypeId := do
  match (← get).types.reserve? { name, isAbstract } with
  | some (id, types) =>
    modify fun s => { s with types }
    return id
  | none => throw (.duplicateType name.clark)

end Resolve

open Resolve

abbrev Fill := TypeId → TypeDef → Site → Resolve Unit

/-- Gives the handle of a definition at a site, declared inline in the element `context` if any. -/
abbrev ResolveType := TypeDef → Site → (context : Option QName) → Resolve TypeId

def siteOfType (name : QName) : Site := ⟨.type name, []⟩

/-- Enters a named type and fills it. -/
def enterNamed (fill : Fill) (name : QName) (d : TypeDef) (site : Site) : Resolve TypeId := do
  let id ← reserve name d.isAbstract
  fill id d site
  return id

/-- The entry of the builtin datatype that stands for the class of a simple type. -/
def placeholder (c : ResolveContext) (fill : Fill) (d : TypeDef) : Resolve TypeId := do
  let primitive ← ofExcept (c.set.primitiveOfType d)
  let name := QName.xsd primitive.builtinName
  match ← lookup name.clark with
  | some id => return id
  | none =>
    let builtin ← ofExcept (c.set.type name "resolver")
    enterNamed fill name builtin (siteOfType name)

/-- A named type in a known namespace has one entry.  Other simple types are represented by builtin
datatypes.  An inline complex type has an entry named after the element around it, which no second
inline type may take. -/
def resolveType (c : ResolveContext) (fill : Fill) : ResolveType := fun d site context => do
  match d.name with
  | some name =>
    match ← lookup name.clark with
    | some id => return id
    | none =>
      if c.isKnown name then enterNamed fill name d site
      else if d.isSimple then placeholder c fill d
      else throw (.foreignType name)
  | none =>
    if d.isSimple then placeholder c fill d
    else
      match context with
      | none => throw .missingAnonymousContext
      | some element =>
        let key := element.localName ++ "AnonType"
        match ← lookup key with
        | some id =>
          if (← get).anonymous.lookup id = some site then return id
          else throw (.anonymousTypeCollision key element)
        | none =>
          let id ← reserve ⟨none, key⟩ d.isAbstract
          modify fun s => { s with anonymous := (id, site) :: s.anonymous }
          fill id d site
          return id

def resolveNamed (c : ResolveContext) (resolve : ResolveType) (name : QName) : Resolve TypeId := do
  let d ← ofExcept (c.set.type name "resolver")
  resolve d (siteOfType name) none

/-- Gives the handle of the type of a declaration at a site, if the declaration has one. -/
def resolveRef (c : ResolveContext) (resolve : ResolveType) (site : Site) (context : Option QName) :
    TypeRef → Resolve (Option TypeId)
  | .named name => some <$> resolveNamed c resolve name
  | .inline d => some <$> resolve d site context
  | .unspecified => pure none

/-- Adds one element.  The result is its key, unless it is left out. -/
def addElement (c : ResolveContext) (resolve : ResolveType) (elements : ElementMap)
    (decl : ElementDecl) (site : Site) (occurs : Occurs) (owner : String) :
    Resolve (ElementMap × Option String) := do
  let typeId ← resolveRef c resolve site (some decl.name) decl.typeRef
  let key := decl.name.clark
  match typeId with
  | none =>
    if c.options.headerOnly.contains decl.name then
      modify fun s =>
        { s with skippedHeaders :=
            if s.skippedHeaders.contains key then s.skippedHeaders else s.skippedHeaders ++ [key] }
      diagnose .skippedHeaderElement key ("untyped header-only element in " ++ owner)
      return (elements, none)
    else throw (.unresolvedType decl.name owner)
  | some typeId =>
    if elements.contains key then
      diagnose .duplicateElement (owner ++ "/" ++ key) "element declared twice; keeping the first"
      return (elements, none)
    else return (elements.insert key { typeId, isList := occurs.isRepeated }, some key)

/-- Adds an entry for a type below the abstract type of an element, under the key of that type.  Abstract
types are passed over; the others are counted. -/
def addSubtype (c : ResolveContext) (resolve : ResolveType) (decl : ElementDecl)
    (descriptor : ElementDescriptor) (owner : String) (acc : ElementMap × Nat) (subtype : QName) :
    Resolve (ElementMap × Nat) := do
  let d ← ofExcept (c.set.type subtype owner)
  if d.isAbstract then return acc
  let typeId ← resolve d (siteOfType subtype) none
  let key := subtype.clark
  if acc.1.contains key then throw (.expansionCollision owner decl.name key)
  let substitute := descriptor.substitute typeId decl.name
  let serializedName := substitute.serializedName.getD decl.name.localName
  return (acc.1.insert key { substitute with serializedName := some serializedName }, acc.2 + 1)

/-- Adds an entry for each concrete type below the abstract type of an element. -/
def addConcrete (c : ResolveContext) (resolve : ResolveType) (elements : ElementMap)
    (decl : ElementDecl) (descriptor : ElementDescriptor) (abstractName : QName) (owner : String) :
    Resolve ElementMap := do
  let (elements, count) ←
    (c.hierarchy.descendants abstractName).foldlM (addSubtype c resolve decl descriptor owner)
      (elements, 0)
  if count = 0 then
    diagnose .noConcreteSubtypes (owner ++ "/" ++ decl.name.clark)
      ("abstract type " ++ abstractName.clark ++ " has no concrete subtype")
  return elements

/-- Elements found so far, and the name of the collection if content gives one. -/
structure Found where
  elements : ElementMap
  listName : Option String

/-- Gives an element the name of the choice around it, if both are there. -/
def nameEntry (elements : ElementMap) (key name : Option String) : ElementMap :=
  match key, name with
  | some key, some name =>
    if name.isEmpty then elements
    else elements.modify key fun e => { e with serializedName := some name }
  | _, _ => elements

/-- Adds a member of a substitution group under the name of its head. -/
def addSubstitute (c : ResolveContext) (resolve : ResolveType) (head : QName) (owner : String)
    (elements : ElementMap) (name : QName) : Resolve ElementMap := do
  let decl ← ofExcept (c.set.element name owner)
  let (elements, key) ← addElement c resolve elements decl ⟨.element name, []⟩ decl.occurs owner
  match key with
  | some key => return elements.modify key fun e => { e with serializedName := some head.localName }
  | none => return elements

def addSubstitutes (c : ResolveContext) (resolve : ResolveType) (elements : ElementMap)
    (head : QName) (members : List QName) (owner : String) : Resolve ElementMap :=
  members.foldlM (addSubstitute c resolve head owner) elements

/-- The name of the collection of a type whose content repeats the head of a substitution group. -/
def substitutionListName : String := "Items"

/-- Adds an element of the content together with its substitutes or, if its type is abstract, with the
concrete types below. -/
def addContentElement (c : ResolveContext) (resolve : ResolveType) (found : Found)
    (decl : ElementDecl) (site : Site) (occurs : Occurs) (choiceName : Option String)
    (owner : String) : Resolve Found := do
  let (elements, key) ← addElement c resolve found.elements decl site occurs owner
  let elements := nameEntry elements key choiceName
  let members := c.set.substitutes decl.name
  if !members.isEmpty then
    let listName := if occurs.isRepeated then some substitutionListName else found.listName
    return ⟨← addSubstitutes c resolve elements decl.name members owner, listName⟩
  match key.bind elements.get? with
  | none => return { found with elements }
  | some descriptor =>
    let type ← entryAt descriptor.typeId
    if type.isAbstract && !type.isSimple then
      let elements ← addConcrete c resolve elements decl descriptor type.name owner
      return { found with elements }
    else return { found with elements }

def skipWildcard (owner : String) : Resolve Unit :=
  diagnose .skippedWildcard owner "element wildcard has no JSON representation"

mutual

def addGroup (c : ResolveContext) (resolve : ResolveType) (choiceName : Option String)
    (owner : String) (found : Found) : GroupView → Resolve Found
  | ⟨_, _, _, members⟩ => addMembers c resolve choiceName owner found members

def addMembers (c : ResolveContext) (resolve : ResolveType) (choiceName : Option String)
    (owner : String) (found : Found) : List Member → Resolve Found
  | [] => return found
  | .element decl site occurs :: rest => do
    let found ← addContentElement c resolve found decl site occurs choiceName owner
    addMembers c resolve choiceName owner found rest
  | .group g :: rest => do
    let found ← addGroup c resolve choiceName owner found g
    addMembers c resolve choiceName owner found rest
  | .any :: rest => do
    skipWildcard owner
    addMembers c resolve choiceName owner found rest

end

/-- The name that the table gives a choice; every choice needs an entry. -/
def choiceName (c : ResolveContext) (owner : String) (index : Option Nat) :
    Except ResolveError (Option String) :=
  match c.overrides.choiceGroup? owner index with
  | some name => .ok name
  | none => .error (.missingChoiceGroup owner index)

/-- How far the top level of a content has been walked. -/
structure ContentState where
  found : Found
  /-- The name of the outer choice, once it has been looked up. -/
  outer : Option (Option String)
  /-- The name of the last group, if it was a choice that has one. -/
  inner : Option String
  /-- The number of choices among the groups so far. -/
  choices : Nat

/-- Adds a member at the top level.  Elements of a content that is a choice share the name of the outer
choice; each group that is a choice has a name of its own.  A named outer choice and groups exclude
each other. -/
def addTopMember (c : ResolveContext) (resolve : ResolveType) (isChoice : Bool) (owner : String)
    (s : ContentState) : Member → Resolve ContentState
  | .group g => do
    if (s.outer.bind id).isSome then throw (.mixedChoiceContent owner)
    let inner ← if g.isChoice then ofExcept (choiceName c owner (some s.choices)) else pure none
    let choices := if g.isChoice then s.choices + 1 else s.choices
    let found ← addGroup c resolve inner owner s.found g
    return { s with found, inner, choices }
  | .element decl site occurs => do
    if isChoice then
      if s.inner.isSome then throw (.mixedChoiceContent owner)
      let outer ←
        match s.outer with
        | some name => pure name
        | none => ofExcept (choiceName c owner none)
      let found ← addContentElement c resolve s.found decl site occurs outer owner
      return { s with found, outer := some outer }
    else
      let found ← addContentElement c resolve s.found decl site occurs none owner
      return { s with found }
  | .any => do
    skipWildcard owner
    return s

/-- Fills in the content of a complex type.  A type without attributes whose only element repeats is a
collection. -/
def fillComplex (c : ResolveContext) (resolve : ResolveType) (id : TypeId) (d : ComplexDef)
    (site : Site) : Resolve Unit := do
  let owner := (← entryAt id).key
  let layout ← ofExcept (c.set.layout owner [] site d)
  let start : ContentState := ⟨⟨∅, none⟩, none, none, 0⟩
  let s ← layout.members.foldlM (addTopMember c resolve layout.isChoice owner) start
  let ⟨elements, listName⟩ := s.found
  modifyType id fun t =>
    { t with
      isList := layout.isList ||
        (t.attributes.isEmpty && elements.size == 1 && elements.values.all (·.isList))
      elements
      listName := listName.orElse fun _ => t.listName }

def fillScalar (c : ResolveContext) (resolve : ResolveType) (id : TypeId) (d : TypeDef) :
    Resolve Unit := do
  let scalar ← ofExcept (c.set.classify [] d)
  let listItem ←
    match scalar.listItem with
    | some item => some <$> resolveNamed c resolve item
    | none => pure none
  modifyType id fun t =>
    { t with simpleKind := some scalar.kind, enumValues := scalar.enumValues, listItem }

def fillAttribute (c : ResolveContext) (resolve : ResolveType) (id : TypeId) (site : Site)
    (entry : String × TypeRef) : Resolve Unit := do
  let (name, typeRef) := entry
  let typeId ← resolveRef c resolve site none typeRef
  modifyType id fun t => { t with attributes := t.attributes.insert name typeId }

/-- Fills in an entry: attributes, then the class of its values or its content. -/
def fillWith (c : ResolveContext) (resolve : ResolveType) : Fill := fun id d site => do
  let list ← ofExcept (c.set.inheritedAttributes [] d)
  list.attributes.forM (fillAttribute c resolve id site)
  modifyType id fun t => { t with anyAttribute := list.anyAttribute }
  if d.isSimple then fillScalar c resolve id d
  else
    match d.complex? with
    | some complex => fillComplex c resolve id complex site
    | none => pure ()

/-- Fills an entry while at most `depth` further types are opened inside one another. -/
def fillTo (c : ResolveContext) : (depth : Nat) → Fill
  | 0 => fun _ _ _ => throw .unbounded
  | depth + 1 => fillWith c (resolveType c (fillTo c depth))

namespace DeclarationSet

/-- A bound on the number of types that can be open at once: each of them has a key of its own, which
is the name of a declared or builtin type or belongs to an inline definition. -/
def depthBound (s : DeclarationSet) : Nat :=
  builtinNames.length + s.types.size + s.mentions.length + 1

end DeclarationSet

namespace ResolveContext

/-- Resolves a definition at a site, declared inline in the element `context` if any.  The definition
need not be one of the set's own. -/
def resolve (c : ResolveContext) : ResolveType := fun d site context =>
  resolveType c (fillTo c (c.set.depthBound + d.mentions.length)) d site context

/-- Resolves a named type. -/
def resolveName (c : ResolveContext) (name : QName) : Resolve TypeId :=
  resolveNamed c c.resolve name

/-- Resolves a global element into the map of global elements. -/
def resolveGlobal (c : ResolveContext) (name : QName) : Resolve Unit := do
  let decl ← ofExcept (c.set.element name "(global)")
  let (elements, _) ←
    addElement c c.resolve (← get).elements decl ⟨.element name, []⟩ decl.occurs "(global)"
  modify fun s => { s with elements }

/-- Resolves the elements and types of every document in order. -/
def resolveAll (c : ResolveContext) : Resolve Unit :=
  c.set.documents.forM fun doc => do
    doc.elements.forM c.resolveGlobal
    doc.types.forM fun name => discard (c.resolveName name)

/-- Enters the builtin datatypes that stand for classes of simple types. -/
def resolvePlaceholders (c : ResolveContext) : Resolve Unit :=
  [Primitive.string, .boolean, .decimal].forM fun p =>
    discard (c.resolveName (QName.xsd p.builtinName))

end ResolveContext

def ResolveState.graph (s : ResolveState) : TypeGraph :=
  { TypeGraph.empty with
    types := s.types.finish
    elements := s.elements
    skippedHeaders := s.skippedHeaders
    diagnostics := s.diagnostics }

end SchemaGraph
