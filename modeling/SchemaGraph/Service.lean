import SchemaGraph.Markup.Document
import SchemaGraph.OrderedMap

/-! The operations of a service description: messages, port types and the first binding are joined into
one descriptor per bound operation. -/
namespace SchemaGraph

open Markup (Element)

/-- One operation with the elements of its two messages. -/
structure Operation where
  action : String
  input : QName
  output : QName
  inputHeaders : List QName
  outputHeaders : List QName
deriving DecidableEq

namespace Service

abbrev Message := OrderedMap String QName

structure PortOperation where
  input : String
  output : String

def readMessage (e : Element) : Except DocumentError Message :=
  (e.childrenNamed "part").foldlM (fun parts part => do
    let element ← part.qname "element"
    return parts.insert (← part.attr "name") element) ∅

/-- The messages of a description; the last one of a name counts. -/
def messages (root : Element) : Except DocumentError (OrderedMap String Message) :=
  (root.childrenNamed "message").foldlM (fun found e => do
    let parts ← readMessage e
    return found.insert (← e.attr "name") parts) ∅

def portMessage (operation : String) (e : Element) (d : Direction) : Except DocumentError String := do
  match e.child? d.name with
  | none => throw (.invalidStructure (.missingPortDirection operation d))
  | some node => return (← node.qname "message").localName

/-- The operations of all port types; the last one of a name counts. -/
def portOperations (root : Element) : Except DocumentError (OrderedMap String PortOperation) :=
  ((root.childrenNamed "portType").flatMap (·.childrenNamed "operation")).foldlM (fun found e => do
    let name ← e.attr "name"
    let input ← portMessage name e .input
    let output ← portMessage name e .output
    return found.insert name ⟨input, output⟩) ∅

def findMessage (found : OrderedMap String Message) (name action : String) :
    Except DocumentError Message :=
  match found.get? name with
  | some m => .ok m
  | none => .error (.invalidStructure (.missingMessage name action))

/-- The element of the one literal body of a direction: of the part that the body names, or of the
only part of the message. -/
def bodyElement (action : String) (d : Direction) (e : Element) (message : Message) :
    Except DocumentError QName := do
  let part ←
    match e.childrenNamed "body" with
    | [body] =>
      if body.attr? "use" = some "literal" then
        match body.attr? "parts", message.keys with
        | some parts, _ => pure (Text.trim parts)
        | none, [key] => pure key
        | none, _ => throw (.invalidStructure (.bodyPartUnnamed action d))
      else throw (.invalidStructure (.bodyNotUnique action d))
    | _ => throw (.invalidStructure (.bodyNotUnique action d))
  match message.get? part with
  | some element => return element
  | none => throw (.invalidStructure (.missingBodyPart action d part))

/-- The elements of the headers of a direction.  A header takes its part from the message that it
names, or else from the message of the direction. -/
def headerElements (action : String) (e : Element) (own : Message)
    (found : OrderedMap String Message) : Except DocumentError (List QName) :=
  (e.childrenNamed "header").mapM fun header => do
    let message ←
      match ← header.qname? "message" with
      | some name => findMessage found name.localName action
      | none => pure own
    let part ← header.attr "part"
    match message.get? part with
    | some element => return element
    | none => throw (.invalidStructure (.missingHeaderPart action part))

def direction (action : String) (e : Element) (d : Direction) : Except DocumentError Element :=
  match e.child? d.name with
  | some node => .ok node
  | none => .error (.invalidStructure (.missingDirection action d))

def operation (found : OrderedMap String Message) (ports : OrderedMap String PortOperation)
    (e : Element) : Except DocumentError Operation := do
  let action ← e.attr "name"
  match ports.get? action with
  | none => throw (.invalidStructure (.missingPortOperation action))
  | some port =>
    let inputMessage ← findMessage found port.input action
    let outputMessage ← findMessage found port.output action
    let inputNode ← direction action e .input
    let outputNode ← direction action e .output
    let input ← bodyElement action .input inputNode inputMessage
    let output ← bodyElement action .output outputNode outputMessage
    let inputHeaders ← headerElements action inputNode inputMessage found
    let outputHeaders ← headerElements action outputNode outputMessage found
    return { action, input, output, inputHeaders, outputHeaders }

/-- The operations of the first binding in binding order. -/
def ofElement (root : Element) : Except DocumentError (List Operation) := do
  if root.localName ≠ "definitions" then
    throw (.invalidStructure (.wrongRoot "wsdl:definitions" root.tag))
  let found ← messages root
  let ports ← portOperations root
  match root.child? "binding" with
  | none => throw (.invalidStructure .noBinding)
  | some binding => (binding.childrenNamed "operation").mapM (operation found ports)

end Service

def Operation.allOfText (text : String) : Except DocumentError (List Operation) := do
  Service.ofElement (← Element.ofText text)

end SchemaGraph
