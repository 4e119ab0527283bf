import SchemaGraph.Markup.Document
import SchemaGraph.Proofs.Outcome

/-! What a start tag becomes: its attributes are resolved one by one, those that declare a namespace go into the scope
and the others stay in their order.  The name of the tag is the tag of the element. -/
namespace SchemaGraph

namespace Markup

def declared (attributes : List (List Char × String)) : Scope :=
  attributes.filterMap fun p => (declaredLabel? p.1).map fun label => (String.ofList label, p.2)

def undeclared (attributes : List (List Char × String)) : List (String × String) :=
  attributes.filterMap fun p => if (declaredLabel? p.1).isSome then none else some (String.ofList p.1, p.2)

theorem ofStart_eq (outer : Scope) (name text : List Char) :
    Element.ofStart outer name text = resolvedAttributes name text >>= fun attributes =>
      .ok ⟨(splitTag name).1, (splitTag name).2, undeclared attributes, (declared attributes).reverse ++ outer,
        []⟩ := rfl

def resolvedAttribute (name : List Char) (p : List Char × List Char) : Except DocumentError (List Char × String) :=
  match unescape p.2 with
  | some value => .ok (p.1, String.ofList value)
  | none => .error (.invalidAttribute (String.ofList name) (String.ofList p.1) (String.ofList p.2))

theorem resolvedAttributes_eq (name text : List Char) :
    resolvedAttributes name text = (attributes [] text).mapM (resolvedAttribute name) := rfl

theorem tag_withChildren (e : Element) (children : List Element) : Element.tag { e with children } = e.tag := rfl

theorem withChildren_eq {e : Element} {children : List Element} (h : e.children = children) :
    { e with children } = e := by
  cases e
  cases h
  rfl

theorem tag_splitTag (name : List Char) (attributes : List (String × String)) (scope : Scope)
    (children : List Element) :
    (Element.mk (splitTag name).1 (splitTag name).2 attributes scope children).tag = String.ofList name := by
  unfold splitTag Element.tag
  cases found : Text.cut ':' name with
  | none => rfl
  | some p =>
    obtain ⟨rfl, -⟩ := Text.cut_eq_some_iff.1 found
    apply String.toList_inj.1
    simp

theorem ofStart_eq_ok_iff {outer : Scope} {name text : List Char} {e : Element} :
    Element.ofStart outer name text = .ok e ↔
      ∃ attributes, resolvedAttributes name text = .ok attributes ∧
        e = ⟨(splitTag name).1, (splitTag name).2, undeclared attributes, (declared attributes).reverse ++ outer, []⟩ := by
  rw [ofStart_eq, bind_eq_ok_iff]
  constructor
  · rintro ⟨attributes, read, whole⟩
    exact ⟨attributes, read, (Except.ok.inj whole).symm⟩
  · rintro ⟨attributes, read, rfl⟩
    exact ⟨attributes, read, rfl⟩

theorem tag_of_ofStart {outer : Scope} {name text : List Char} {e : Element}
    (h : Element.ofStart outer name text = .ok e) : e.tag = String.ofList name := by
  obtain ⟨attributes, -, rfl⟩ := ofStart_eq_ok_iff.1 h
  exact tag_splitTag ..

theorem children_of_ofStart {outer : Scope} {name text : List Char} {e : Element}
    (h : Element.ofStart outer name text = .ok e) : e.children = [] := by
  obtain ⟨attributes, -, rfl⟩ := ofStart_eq_ok_iff.1 h
  rfl

end Markup

end SchemaGraph
