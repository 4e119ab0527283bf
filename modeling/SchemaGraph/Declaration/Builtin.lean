import SchemaGraph.Declaration.Basic

/-! The builtin datatypes of XML Schema. -/
namespace SchemaGraph

def decimalNames : List String :=
  ["decimal", "integer", "nonPositiveInteger", "negativeInteger", "nonNegativeInteger",
    "positiveInteger", "long", "int", "short", "byte", "unsignedLong", "unsignedInt",
    "unsignedShort", "unsignedByte"]

def stringNames : List String :=
  ["anySimpleType", "string", "normalizedString", "token", "language", "Name", "NCName", "ID",
    "IDREF", "IDREFS", "ENTITY", "ENTITIES", "NMTOKEN", "NMTOKENS", "QName", "NOTATION", "anyURI",
    "base64Binary", "hexBinary", "float", "double", "duration", "dateTime", "time", "date",
    "gYearMonth", "gYear", "gMonthDay", "gDay", "gMonth"]

def primitiveOf? (localName : String) : Option Primitive :=
  if localName = "boolean" then some .boolean
  else if localName ∈ decimalNames then some .decimal
  else if localName ∈ stringNames then some .string
  else none

def builtinNames : List String := "anyType" :: "boolean" :: decimalNames ++ stringNames

/-- The definition of a builtin datatype.  `anyType` is complex: it has no content of its own and
accepts every attribute. -/
def builtinType? (name : QName) : Option TypeDef :=
  if name.isXsd then
    if name.localName = "anyType" then
      some ⟨some name, false, .complex { ComplexDef.empty with anyAttribute := true }⟩
    else (primitiveOf? name.localName).map fun p => ⟨some name, false, .builtin p⟩
  else none

theorem name_builtinType? {name : QName} {d : TypeDef} (h : builtinType? name = some d) :
    d.name = some name := by
  unfold builtinType? at h
  split at h
  · split at h
    · cases h
      rfl
    · obtain ⟨p, -, rfl⟩ := Option.map_eq_some_iff.1 h
      rfl
  · cases h

theorem Primitive.builtinName_mem (p : Primitive) : p.builtinName ∈ builtinNames := by
  cases p <;> decide

theorem builtinType?_primitive (p : Primitive) :
    builtinType? (QName.xsd p.builtinName) = some ⟨some (QName.xsd p.builtinName), false, .builtin p⟩ := by
  cases p <;> rfl

end SchemaGraph
