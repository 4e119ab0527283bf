import SchemaGraph.Resolution.Error

/-! The class of the values of simple types and the attributes of complex ones. -/
namespace SchemaGraph

/-- The class of the values of a simple type. -/
structure ScalarClass where
  kind : SimpleKind
  enumValues : List String
  /-- The name of the item type of a list of enumerated literals. -/
  listItem : Option QName

def ScalarClass.ofPrimitive (p : Primitive) : ScalarClass :=
  ⟨match p with
    | .boolean => .boolean
    | .decimal => .decimal
    | .string => .string, [], none⟩

def ScalarClass.ofLiterals (literals : List String) : ScalarClass := ⟨.enum, literals, none⟩

namespace DeclarationSet

noncomputable def typeSize (s : DeclarationSet) (name : QName) : Nat := (s.type? name).elim 0 sizeOf

theorem unvisitedSize_typeSize_lt {s : DeclarationSet} {path : List QName} {name : QName} {d : TypeDef}
    (h : s.type? name = some d ∧ name ∉ path) :
    unvisitedSize s.typeSize s.typeNames (name :: path) + sizeOf d <
      unvisitedSize s.typeSize s.typeNames path := by
  have := unvisitedSize_cons_lt s.typeSize (mem_typeNames_of_type? h.1) h.2
  simpa only [typeSize, h.1, Option.elim] using this

/-- Follows the bases of a type up to the first one that decides: enumerated literals, a list, a union
or a builtin datatype.  `path` holds the types that are open. -/
def classify (s : DeclarationSet) (path : List QName) (d : TypeDef) :
    Except ResolveError ScalarClass :=
  match d with
  | ⟨_, _, .builtin p⟩ => return .ofPrimitive p
  | ⟨_, _, .union⟩ => return .ofPrimitive .string
  | ⟨name, isAbstract, .list item⟩ =>
    match item with
    | .named itemName => do
      let ⟨itemDef, _h⟩ ← s.nextType path itemName (TypeDef.label ⟨name, isAbstract, .union⟩)
      let item ← s.classify (itemName :: path) itemDef
      return if item.kind = .enum then ⟨.listOfEnum, [], some itemName⟩ else .ofPrimitive .string
    | .inline _ | .unspecified => return .ofPrimitive .string
  | ⟨name, isAbstract, .restriction base literals⟩ =>
    if !literals.isEmpty then return .ofLiterals literals
    else
      match base with
      | .named baseName => do
        let ⟨baseDef, _h⟩ ← s.nextType path baseName (TypeDef.label ⟨name, isAbstract, .union⟩)
        s.classify (baseName :: path) baseDef
      | .inline inner => s.classify path inner
      | .unspecified => return .ofPrimitive .string
  | ⟨name, isAbstract, .complex c⟩ =>
    match c.content with
    | .simple (literal :: literals) => return .ofLiterals (literal :: literals)
    | _ =>
      match c.derivation.base? with
      | some baseName => do
        let ⟨baseDef, _h⟩ ← s.nextType path baseName (TypeDef.label ⟨name, isAbstract, .union⟩)
        s.classify (baseName :: path) baseDef
      | none => return .ofPrimitive .string
termination_by unvisitedSize s.typeSize s.typeNames path + sizeOf d
decreasing_by
  · exact Nat.lt_add_right _ (unvisitedSize_typeSize_lt _h)
  · exact Nat.lt_add_right _ (unvisitedSize_typeSize_lt _h)
  · simp
    omega
  · exact Nat.lt_add_right _ (unvisitedSize_typeSize_lt _h)

/-- The class that stands for a simple type without an entry of its own. -/
def primitiveOfType (s : DeclarationSet) (d : TypeDef) : Except ResolveError Primitive :=
  match d.body with
  | .builtin p => return p
  | _ =>
    match d.name.bind fun name => if name.isXsd then primitiveOf? name.localName else none with
    | some p => return p
    | none => do
      return match (← s.classify [] d).kind with
        | .boolean => .boolean
        | .decimal => .decimal
        | .string | .enum | .listOfEnum => .string

/-- Attributes with their types, and whether any other attribute is accepted. -/
structure AttributeList where
  attributes : List (String × TypeRef)
  anyAttribute : Bool

def attributeGroupSize (s : DeclarationSet) (name : QName) : Nat :=
  (s.attributeGroup? name).elim 0 fun g => g.attributes.length

/-- Lists attributes in order, entering each attribute group once. -/
def attributeUses (s : DeclarationSet) (seen : List QName) (uses : List AttributeUse) :
    Except ResolveError AttributeList :=
  match uses with
  | [] => return ⟨[], false⟩
  | .declared d :: rest => do
    let tail ← s.attributeUses seen rest
    return { tail with attributes := (d.name, d.typeRef) :: tail.attributes }
  | .reference name :: rest =>
    match s.attr? name with
    | none => throw (.dangling .attr name "resolver")
    | some d => do
      let tail ← s.attributeUses seen rest
      return { tail with attributes := (d.name, d.typeRef) :: tail.attributes }
  | .group name :: rest =>
    if _hs : name ∈ seen then s.attributeUses seen rest
    else
      match _hg : s.attributeGroup? name with
      | none => throw (.dangling .attributeGroup name "resolver")
      | some g => do
        let tail ← s.attributeUses (name :: seen) (g.attributes ++ rest)
        return { tail with anyAttribute := g.anyAttribute || tail.anyAttribute }
termination_by unvisitedSize s.attributeGroupSize s.attributeGroups.keys seen + uses.length
decreasing_by
  · simp
  · simp
  · simp
  · have := unvisitedSize_cons_lt s.attributeGroupSize ((OrderedMap.mem_keys_iff _ _).2
      (by simp only [OrderedMap.contains]; exact Option.isSome_of_mem _hg)) _hs
    simp only [attributeGroupSize, _hg, Option.elim] at this
    simp only [List.length_append, List.length_cons]
    omega

/-- The attributes of a type, those of the types that it extends first.  `path` holds the types that
are open. -/
def inheritedAttributes (s : DeclarationSet) (path : List QName) (d : TypeDef) :
    Except ResolveError AttributeList :=
  match d.complex? with
  | none => return ⟨[], false⟩
  | some c => do
    let inherited ← (match c.derivation with
      | .extension base => do
        let ⟨baseDef, _h⟩ ← s.nextType path base d.label
        s.inheritedAttributes (base :: path) baseDef
      | .none | .restriction _ => pure ⟨[], false⟩)
    let own ← s.attributeUses [] c.attributes
    return ⟨inherited.attributes ++ own.attributes,
      inherited.anyAttribute || c.anyAttribute || own.anyAttribute⟩
termination_by unvisited s.typeNames path
decreasing_by exact unvisited_cons_lt (mem_typeNames_of_type? _h.1) _h.2

end DeclarationSet

end SchemaGraph
