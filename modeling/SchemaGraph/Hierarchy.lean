import SchemaGraph.Linking.References

/-! Which types extend which.  Only extensions count, not restrictions. -/
namespace SchemaGraph

namespace DeclarationSet

/-- The types that a type extends in one or more steps, nearest first.  The way ends where it would
come to a name in `seen` again. -/
def ancestors (s : DeclarationSet) (seen : List QName) (d : TypeDef) : List QName :=
  match d.extensionBase? with
  | none => []
  | some base =>
    if _hs : base ∈ seen then []
    else
      base ::
        match _hb : s.type? base with
        | none => []
        | some next => s.ancestors (base :: seen) next
termination_by unvisited s.typeNames seen
decreasing_by exact unvisited_cons_lt (mem_typeNames_of_type? _hb) _hs

end DeclarationSet

/-- From each type that is extended to the declared types that extend it in one or more steps, in
declaration order. -/
structure ClassHierarchy where
  below : OrderedMap QName (List QName)

namespace ClassHierarchy

def record (name : QName) (below : OrderedMap QName (List QName)) (ancestor : QName) :
    OrderedMap QName (List QName) :=
  below.insert ancestor ((below.get? ancestor).getD [] ++ [name])

def ofSet (s : DeclarationSet) : ClassHierarchy :=
  ⟨s.types.entries.foldl (fun below (name, d) => (s.ancestors [] d).foldl (record name) below) ∅⟩

def descendants (h : ClassHierarchy) (base : QName) : List QName :=
  (h.below.get? base).getD []

def hasDescendants (h : ClassHierarchy) (base : QName) : Bool := !(h.descendants base).isEmpty

def size (h : ClassHierarchy) : Nat := h.below.size

end ClassHierarchy

end SchemaGraph
