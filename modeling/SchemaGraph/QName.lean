import SchemaGraph.Text.Cut

/-! Qualified names and their text.  `ofClark` reads what `clark` writes except for a namespace with a
closing brace and for an unqualified name that looks qualified; `clark` writes back whatever `ofClark`
has read. -/
namespace SchemaGraph

structure QName where
  uri : Option String
  localName : String
deriving DecidableEq, Inhabited

namespace QName

def xsdUri : String := "http://www.w3.org/2001/XMLSchema"

def xsd (localName : String) : QName := ⟨some xsdUri, localName⟩

def isXsd (q : QName) : Bool := q.uri == some xsdUri

/-- The namespace in braces before the local name; a name in no namespace stands bare. -/
def clark (q : QName) : String :=
  match q.uri with
  | some uri => "\x7b" ++ uri ++ "\x7d" ++ q.localName
  | none => q.localName

def ofClark (s : String) : QName :=
  match s.toList with
  | '{' :: rest =>
    match Text.cut '}' rest with
    | some (uri, name) => ⟨some (String.ofList uri), String.ofList name⟩
    | none => ⟨none, s⟩
  | _ => ⟨none, s⟩

@[simp] theorem clark_ofClark (s : String) : (ofClark s).clark = s := by
  unfold ofClark
  split
  · rename_i rest hs
    split
    · rename_i uri name hcut
      obtain ⟨rfl, -⟩ := Text.cut_eq_some_iff.1 hcut
      apply String.toList_inj.1
      simp [clark, hs]
    · rfl
  · rfl

end QName

end SchemaGraph
