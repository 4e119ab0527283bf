import SchemaGraph.Graph.Registry
import SchemaGraph.Linking.References

/-! Why a type cannot be resolved. -/
namespace SchemaGraph

inductive ResolveError
  | set (error : SetError)
  | unresolvedType (element : QName) (context : String)
  /-- A complex type outside the known namespaces. -/
  | foreignType (name : QName)
  /-- An inline complex type that no element gives a name. -/
  | missingAnonymousContext
  | missingChoiceGroup (typeKey : String) (index : Option Nat)
  | mixedChoiceContent (typeKey : String)
  | expansionCollision (typeKey : String) (element : QName) (subtype : String)
  | anonymousTypeCollision (key : String) (element : QName)
  | duplicateType (key : String)
  | unknownHeader (operation element : String)
  /-- More types are open at once than there are keys. -/
  | unbounded
  /-- A handle that leads to no entry. -/
  | unknownHandle (id : TypeId)
deriving DecidableEq

def choiceLabel : Option Nat → String
  | some i => "choice index " ++ toString i
  | none => "outer choice"

def ResolveError.message : ResolveError → String
  | .set e => e.message
  | .unresolvedType element context =>
    "element '" ++ element.clark ++ "' in '" ++ context ++ "' has no resolvable type"
  | .foreignType name => "complex type '" ++ name.clark ++ "' is outside the known namespaces"
  | .missingAnonymousContext => "anonymous complex type without an enclosing element"
  | .missingChoiceGroup key index =>
    "no choice group name for type '" ++ key ++ "' (" ++ choiceLabel index ++ ")"
  | .mixedChoiceContent key => "type '" ++ key ++ "' mixes an outer choice with nested groups"
  | .expansionCollision key element subtype =>
    "expanding '" ++ element.clark ++ "' in '" ++ key ++ "' collides with existing entry '" ++
      subtype ++ "'"
  | .anonymousTypeCollision key element =>
    "anonymous type of '" ++ element.clark ++ "' collides with another anonymous type named '" ++
      key ++ "'"
  | .duplicateType key => "type '" ++ key ++ "' registered twice"
  | .unknownHeader operation element =>
    "header element '" ++ element ++ "' of operation '" ++ operation ++ "' not found"
  | .unbounded => "types are nested without end"
  | .unknownHandle id => "no type at place " ++ toString id.index

def ResolveError.dangling (kind : ReferenceKind) (name : QName) (context : String) : ResolveError :=
  .set (.dangling kind name context)

namespace DeclarationSet

def type (s : DeclarationSet) (name : QName) (context : String) : Except ResolveError TypeDef :=
  match s.type? name with
  | some d => .ok d
  | none => .error (.dangling .type name context)

def element (s : DeclarationSet) (name : QName) (context : String) :
    Except ResolveError ElementDecl :=
  match s.element? name with
  | some d => .ok d
  | none => .error (.dangling .element name context)

def nextType (s : DeclarationSet) (path : List QName) (name : QName) (context : String) :
    Except ResolveError { d : TypeDef // s.type? name = some d ∧ name ∉ path } :=
  if hp : name ∈ path then .error (.set (.circular (name :: path).reverse))
  else if hd : (s.type? name).isSome then .ok ⟨(s.type? name).get hd, by simp, hp⟩
  else .error (.dangling .type name context)

end DeclarationSet

end SchemaGraph
