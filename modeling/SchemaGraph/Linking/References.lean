import SchemaGraph.Declaration.Unvisited
import SchemaGraph.DeclarationSet

/-! Whether every name that a declaration points at is declared, and whether derivations and group
references come to an end. -/
namespace SchemaGraph

inductive ReferenceKind
  | type
  | baseType
  | element
  | head
  | attr
  | attributeGroup
  | group
deriving DecidableEq

def ReferenceKind.name : ReferenceKind → String
  | .type => "type"
  | .baseType => "base type"
  | .element => "element"
  | .head => "substitution group head"
  | .attr => "attribute"
  | .attributeGroup => "attributeGroup"
  | .group => "group"

inductive SetError
  | document (error : DocumentError)
  | dangling (kind : ReferenceKind) (name : QName) (context : String)
  /-- A derivation or a group that comes back to itself, with the names on the way. -/
  | circular (path : List QName)
deriving DecidableEq

def SetError.message : SetError → String
  | .document e => "parse error: " ++ e.message
  | .dangling kind name context =>
    kind.name ++ " '" ++ name.clark ++ "' referenced from '" ++ context ++ "' not found"
  | .circular path =>
    "circular type derivation detected: " ++ " -> ".intercalate (path.map QName.clark)

namespace DeclarationSet

def require (found : Bool) (kind : ReferenceKind) (name : QName) (context : String) :
    Except SetError Unit :=
  if found then .ok () else .error (.dangling kind name context)

mutual

def checkTypeRef (s : DeclarationSet) (context : String) : TypeRef → Except SetError Unit
  | .named name => require (s.type? name).isSome .type name context
  | .inline d => checkType s context d
  | .unspecified => .ok ()

def checkType (s : DeclarationSet) (context : String) : TypeDef → Except SetError Unit
  | ⟨_, _, body⟩ => checkBody s context body

def checkBody (s : DeclarationSet) (context : String) : TypeBody → Except SetError Unit
  | .restriction base _ => checkTypeRef s context base
  | .list item => checkTypeRef s context item
  | .union | .builtin _ => .ok ()
  | .complex d => checkComplex s context d

def checkComplex (s : DeclarationSet) (context : String) : ComplexDef → Except SetError Unit
  | ⟨derivation, content, attributes, _⟩ => do
    match derivation.base? with
    | some base => require (s.type? base).isSome .baseType base context
    | none => pure ()
    checkContent s context content
    checkAttributes s context attributes

def checkContent (s : DeclarationSet) (context : String) : Content → Except SetError Unit
  | .elements group => checkGroup s context group
  | .empty | .simple _ => .ok ()

def checkGroup (s : DeclarationSet) (context : String) : ModelGroup → Except SetError Unit
  | ⟨_, _, particles⟩ => checkParticles s context particles

def checkParticles (s : DeclarationSet) (context : String) : List Particle → Except SetError Unit
  | [] => .ok ()
  | p :: rest => do
    checkParticle s context p
    checkParticles s context rest

def checkParticle (s : DeclarationSet) (context : String) : Particle → Except SetError Unit
  | .element decl => checkElement s context decl
  | .elementRef name _ => require (s.element? name).isSome .element name context
  | .group group => checkGroup s context group
  | .groupRef name _ => require (s.group? name).isSome .group name context
  | .any _ => .ok ()

def checkElement (s : DeclarationSet) (context : String) : ElementDecl → Except SetError Unit
  | ⟨name, typeRef, _, _, head⟩ => do
    match head with
    | some head => require (s.element? head).isSome .head head name.clark
    | none => pure ()
    checkTypeRef s (name.clark ++ " in " ++ context) typeRef

def checkAttributes (s : DeclarationSet) (context : String) :
    List AttributeUse → Except SetError Unit
  | [] => .ok ()
  | use :: rest => do
    checkAttribute s context use
    checkAttributes s context rest

def checkAttribute (s : DeclarationSet) (context : String) : AttributeUse → Except SetError Unit
  | .declared ⟨_, typeRef⟩ => checkTypeRef s context typeRef
  | .reference name => require (s.attr? name).isSome .attr name context
  | .group name => require (s.attributeGroup? name).isSome .attributeGroup name context

end

/-- The named type that a type is derived from. -/
def derivationBase? (d : TypeDef) : Option QName :=
  match d.body with
  | .complex c => c.derivation.base?
  | .restriction (.named base) _ => some base
  | _ => none

def typeNames (s : DeclarationSet) : List QName := s.types.keys ++ builtinNames.map QName.xsd

theorem mem_builtinNames_of_builtinType? {name : QName} {d : TypeDef}
    (h : builtinType? name = some d) : name ∈ builtinNames.map QName.xsd := by
  obtain ⟨uri, localName⟩ := name
  simp only [builtinType?, QName.isXsd, beq_iff_eq] at h
  split at h
  · rename_i hu
    subst hu
    apply List.mem_map_of_mem
    split at h
    · rename_i hl
      subst hl
      decide
    · obtain ⟨p, hp, -⟩ := Option.map_eq_some_iff.1 h
      simp only [primitiveOf?] at hp
      simp only [builtinNames, List.cons_append, List.mem_cons, List.mem_append]
      split at hp
      · exact .inr (.inl ‹_›)
      · split at hp
        · exact .inr (.inr (.inl ‹_›))
        · split at hp
          · exact .inr (.inr (.inr ‹_›))
          · simp at hp
  · simp at h

theorem mem_typeNames_of_type? {s : DeclarationSet} {name : QName} {d : TypeDef}
    (h : s.type? name = some d) : name ∈ s.typeNames := by
  unfold type? at h
  unfold typeNames
  cases ht : s.types.get? name with
  | none =>
    rw [ht] at h
    exact List.mem_append_right _ (mem_builtinNames_of_builtinType? h)
  | some _ =>
    exact List.mem_append_left _ ((OrderedMap.mem_keys_iff _ _).2 (by simp [OrderedMap.contains, ht]))

/-- Follows the bases of a type; `path` holds the names so far, the last one first. -/
def checkDerivation (s : DeclarationSet) (path : List QName) (d : TypeDef) : Except SetError Unit :=
  match derivationBase? d with
  | none => .ok ()
  | some base =>
    if _hp : base ∈ path then .error (.circular (base :: path).reverse)
    else
      match _hb : s.type? base with
      | none => .ok ()
      | some next => checkDerivation s (base :: path) next
termination_by unvisited s.typeNames path
decreasing_by exact unvisited_cons_lt (mem_typeNames_of_type? _hb) _hp

mutual

/-- The groups that a group refers to, nested groups included. -/
def groupRefs : ModelGroup → List QName
  | ⟨_, _, particles⟩ => particleRefs particles

def particleRefs : List Particle → List QName
  | [] => []
  | p :: rest => particleRef p ++ particleRefs rest

def particleRef : Particle → List QName
  | .groupRef name _ => [name]
  | .group g => groupRefs g
  | .element _ | .elementRef _ _ | .any _ => []

end

/-- Follows the references of a named group; `path` holds the groups that are open, the last one
first. -/
def checkGroupCycle (s : DeclarationSet) (path : List QName) (name : QName) :
    Except SetError Unit :=
  if _hp : name ∈ path then .error (.circular (name :: path).reverse)
  else
    match _hg : s.group? name with
    | none => .ok ()
    | some d => (groupRefs d.group).forM fun ref => checkGroupCycle s (name :: path) ref
termination_by unvisited s.groups.keys path
decreasing_by
  exact unvisited_cons_lt ((OrderedMap.mem_keys_iff _ _).2
    (by simp only [OrderedMap.contains]; exact Option.isSome_of_mem _hg)) _hp

/-- Checks every declaration: types, then elements, groups and attribute groups. -/
def checkReferences (s : DeclarationSet) : Except SetError Unit := do
  s.types.values.forM fun d => do
    checkType s d.label d
    match d.name with
    | some name => checkDerivation s [name] d
    | none => pure ()
  s.elements.values.forM (checkElement s "(global)")
  s.groups.values.forM fun d => do
    checkGroup s d.name.clark d.group
    checkGroupCycle s [] d.name
  s.attributeGroups.values.forM fun d => checkAttributes s d.name.clark d.attributes

end DeclarationSet

end SchemaGraph
