/-! Search in a sorted table by halving. -/
namespace SchemaGraph

def bisect {α : Type} (compare : α → Ordering) (table : Array α) (base size : Nat) : Nat :=
  if 1 < size then
    let middle := base + size / 2
    let greater := (table[middle]?.map compare) == some .gt
    bisect compare table (if greater then base else middle) (size - size / 2)
  else base
termination_by size

def bisect? {α : Type} (compare : α → Ordering) (table : Array α) : Option α := do
  let found ← table[bisect compare table 0 table.size]?
  if compare found == .eq then some found else none

end SchemaGraph
