import SchemaGraph.Declaration.Reading
import SchemaGraph.Linking.Inheritance
import SchemaGraph.Linking.References

/-! Linking the documents of a set. -/
namespace SchemaGraph.DeclarationSet

/-- Hands types down the substitution groups and then checks every reference.  The types stay handed
down when a reference leads nowhere. -/
def link : Stateful DeclarationSet SetError Unit := do
  modify inheritTypes
  MonadExcept.ofExcept (← get).checkReferences

/-- Reads and adds a document. -/
def addText (s : DeclarationSet) (text : String) : Except DocumentError DeclarationSet := do
  let doc ← SchemaDocument.ofText text
  Stateful.result (add doc) s

/-- Reads and adds documents in order, and then links them. -/
def linked (texts : List String) : Except SetError DeclarationSet := do
  let s ← (texts.foldlM addText empty).mapError .document
  Stateful.result link s

end SchemaGraph.DeclarationSet
