import SchemaGraph.QName

/-! Declarations as one schema document makes them: elements, attributes, model groups and simple and
complex types.  Names of other declarations are kept as names. -/
namespace SchemaGraph

inductive MaxOccurs
  | bounded (n : Nat)
  | unbounded
deriving DecidableEq, Inhabited

structure Occurs where
  min : Nat
  max : MaxOccurs
deriving DecidableEq, Inhabited

namespace Occurs

def once : Occurs := ⟨1, .bounded 1⟩

def isRepeated (o : Occurs) : Bool :=
  match o.max with
  | .unbounded => true
  | .bounded n => 1 < n

end Occurs

inductive Compositor
  | sequence
  | choice
  | all
deriving DecidableEq, Inhabited

inductive Primitive
  | boolean
  | decimal
  | string
deriving DecidableEq, Inhabited

def Primitive.builtinName : Primitive → String
  | .boolean => "boolean"
  | .decimal => "decimal"
  | .string => "string"

inductive Derivation
  | none
  | extension (base : QName)
  | restriction (base : QName)
deriving DecidableEq, Inhabited

def Derivation.base? : Derivation → Option QName
  | .none => Option.none
  | .extension base | .restriction base => some base

mutual

inductive TypeRef where
  | named (name : QName)
  | inline (definition : TypeDef)
  | unspecified

/-- A type definition; an inline one has no name. -/
structure TypeDef where
  name : Option QName
  isAbstract : Bool
  body : TypeBody

inductive TypeBody where
  | builtin (primitive : Primitive)
  | restriction (base : TypeRef) (enumerations : List String)
  | list (item : TypeRef)
  | union
  | complex (definition : ComplexDef)

/-- What a complex type declares itself, without anything inherited. -/
structure ComplexDef where
  derivation : Derivation
  content : Content
  attributes : List AttributeUse
  anyAttribute : Bool

inductive Content where
  | empty
  | elements (group : ModelGroup)
  /-- A scalar value of the base type's class, or one of the enumerated literals. -/
  | simple (enumerations : List String)

structure ModelGroup where
  compositor : Compositor
  occurs : Occurs
  particles : List Particle

inductive Particle where
  | element (decl : ElementDecl)
  | elementRef (name : QName) (occurs : Occurs)
  | group (group : ModelGroup)
  | groupRef (name : QName) (occurs : Occurs)
  | any (occurs : Occurs)

structure ElementDecl where
  name : QName
  typeRef : TypeRef
  occurs : Occurs
  isAbstract : Bool
  /-- The head of the substitution group that the element joins. -/
  head : Option QName

/-- An attribute declaration.  Attribute names are never qualified. -/
structure AttributeDecl where
  name : String
  typeRef : TypeRef

inductive AttributeUse where
  | declared (decl : AttributeDecl)
  | reference (name : QName)
  | group (name : QName)

end

instance : Inhabited TypeRef := ⟨.unspecified⟩
instance : Inhabited TypeDef := ⟨⟨none, false, .union⟩⟩
instance : Inhabited ElementDecl := ⟨⟨default, default, default, false, none⟩⟩

structure AttributeGroupDef where
  name : QName
  attributes : List AttributeUse
  anyAttribute : Bool

structure ModelGroupDef where
  name : QName
  group : ModelGroup

namespace ComplexDef

def empty : ComplexDef := ⟨.none, .empty, [], false⟩

end ComplexDef

namespace ModelGroup

def isChoice (g : ModelGroup) : Bool := g.compositor == .choice

end ModelGroup

namespace Particle

def occurs : Particle → Occurs
  | element decl => decl.occurs
  | group g => g.occurs
  | elementRef _ o | groupRef _ o | any o => o

end Particle

namespace TypeDef

def extensionBase? (d : TypeDef) : Option QName :=
  match d.body with
  | .complex ⟨.extension base, _, _, _⟩ => some base
  | _ => none

def complex? (d : TypeDef) : Option ComplexDef :=
  match d.body with
  | .complex c => some c
  | _ => none

/-- Whether values of the type are scalars.  A complex type with simple content is a simple type that
also carries attributes. -/
def isSimple (d : TypeDef) : Bool :=
  match d.body with
  | .complex ⟨_, .simple _, _, _⟩ => true
  | .complex _ => false
  | _ => true

def label (d : TypeDef) : String :=
  d.name.elim "(anonymous)" QName.clark

end TypeDef

structure SchemaDocument where
  targetNamespace : Option String
  elements : List ElementDecl := []
  types : List TypeDef := []
  attributes : List (QName × AttributeDecl) := []
  attributeGroups : List AttributeGroupDef := []
  groups : List ModelGroupDef := []

end SchemaGraph
