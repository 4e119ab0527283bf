import SchemaGraph.QName

/-! What can be wrong with one schema or service document. -/
namespace SchemaGraph

inductive Direction
  | input
  | output
deriving DecidableEq

def Direction.name : Direction → String
  | .input => "input"
  | .output => "output"

inductive StructureFault
  | unclosedElement (tag : String)
  | noRoot
  | manyRoots
  | wrongRoot (expected found : String)
  | emptySimpleType (name : Option QName)
  | emptyGroup (name : QName)
  | unnamedType
  | noBinding
  | missingPortOperation (action : String)
  | missingDirection (action : String) (direction : Direction)
  | missingPortDirection (operation : String) (direction : Direction)
  | missingMessage (message action : String)
  | bodyNotUnique (action : String) (direction : Direction)
  | bodyPartUnnamed (action : String) (direction : Direction)
  | missingBodyPart (action : String) (direction : Direction) (part : String)
  | missingHeaderPart (action part : String)
deriving DecidableEq

namespace StructureFault

def message : StructureFault → String
  | .unclosedElement tag => s!"element '{tag}' is not closed"
  | .noRoot => "document has no root element"
  | .manyRoots => "document has more than one root element"
  | .wrongRoot expected found => s!"expected {expected} root, found '{found}'"
  | .emptySimpleType name =>
    "simpleType '" ++ name.elim "(anonymous)" QName.clark ++ "' has no restriction, list or union"
  | .emptyGroup name => "group '" ++ name.clark ++ "' has no content"
  | .unnamedType => "global type without a name"
  | .noBinding => "service description has no binding"
  | .missingPortOperation action => s!"operation '{action}' missing from portType"
  | .missingDirection action d => s!"operation '{action}' has no {d.name}"
  | .missingPortDirection op d => s!"port operation '{op}' has no {d.name}"
  | .missingMessage m action => s!"message '{m}' of operation '{action}' not found"
  | .bodyNotUnique action d =>
    s!"operation '{action}' {d.name} must have exactly one literal soap:body"
  | .bodyPartUnnamed action d => s!"operation '{action}' {d.name} body does not name its part"
  | .missingBodyPart action d part =>
    s!"operation '{action}' {d.name} body part '{part}' not found"
  | .missingHeaderPart action part => s!"operation '{action}' header part '{part}' not found"

end StructureFault

inductive DeclarationKind
  | type
  | element
  | attr
  | attributeGroup
  | group
deriving DecidableEq

def DeclarationKind.name : DeclarationKind → String
  | .type => "type"
  | .element => "element"
  | .attr => "attribute"
  | .attributeGroup => "attributeGroup"
  | .group => "group"

inductive DocumentError
  /-- The text is not well-formed markup. -/
  | malformed
  | missingAttribute (element key : String)
  | invalidAttribute (element key value : String)
  | unknownElement (element context : String)
  /-- No namespace is bound to the label of a qualified name. -/
  | unboundLabel (label value : String)
  | duplicateDefinition (kind : DeclarationKind) (name : QName)
  | invalidStructure (fault : StructureFault)
deriving DecidableEq

def DocumentError.message : DocumentError → String
  | .malformed => "XML parsing error"
  | .missingAttribute element key =>
    s!"missing required attribute '{key}' on element '{element}'"
  | .invalidAttribute element key value =>
    s!"invalid value '{value}' for attribute '{key}' on element '{element}'"
  | .unknownElement element context => s!"unknown element '{element}' in context '{context}'"
  | .unboundLabel label value => s!"unbound namespace prefix '{label}' in '{value}'"
  | .duplicateDefinition kind name =>
    s!"duplicate {kind.name} definition: '" ++ name.clark ++ "'"
  | .invalidStructure fault => "invalid schema structure: " ++ fault.message

end SchemaGraph
