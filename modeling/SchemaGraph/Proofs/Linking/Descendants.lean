import Mathlib.Data.Set.Card
import SchemaGraph.Proofs.Linking.Accepted
import SchemaGraph.Proofs.Linking.Extensions

/-! The hierarchy of types as a whole: which types it has lists for, and what the lists are. -/
namespace SchemaGraph.ClassHierarchy

open Relation

variable {s : DeclarationSet} {h : ClassHierarchy} {below : OrderedMap QName (List QName)} {name base : QName}

def Filled (below : OrderedMap QName (List QName)) : Prop := ∀ base, below.get? base ≠ some []

theorem Filled.record (filled : Filled below) (name ancestor : QName) : Filled (record name below ancestor) := by
  intro base
  rw [ClassHierarchy.record, OrderedMap.get?_insert]
  split
  · simp
  · exact filled base

theorem filled_ofSet (s : DeclarationSet) : Filled (ofSet s).below := by
  refine List.foldlRecOn _ _ (fun _ => nofun) fun below filled e _ => ?_
  exact List.foldlRecOn _ _ filled fun below filled ancestor _ => filled.record e.1 ancestor

theorem mem_keys_iff (filled : Filled h.below) : base ∈ h.below.keys ↔ h.descendants base ≠ [] := by
  rw [OrderedMap.mem_keys_iff, OrderedMap.contains, descendants]
  cases listed : h.below.get? base with
  | none => simp
  | some l =>
    have some_type : l ≠ [] := fun nil => filled base (nil ▸ listed)
    simp [some_type]

theorem size_eq_ncard (filled : Filled h.below) : h.size = {base | h.descendants base ≠ []}.ncard := by
  have same : {base | h.descendants base ≠ []} = (h.below.keys.toFinset : Set QName) := by
    ext base
    simp [mem_keys_iff filled]
  calc h.size = h.below.keys.length := by simp [size, OrderedMap.size, OrderedMap.keys]
    _ = h.below.keys.toFinset.card := (List.toFinset_card_of_nodup h.below.nodup).symm
    _ = {base | h.descendants base ≠ []}.ncard := by rw [same, Set.ncard_coe_finset]

theorem descendants_sublist (s : DeclarationSet) (base : QName) :
    ((ofSet s).descendants base).Sublist s.types.keys := by
  rw [descendants_ofSet]
  exact List.filter_sublist.map _

/-- The hierarchy is extension in one or more steps, whatever the declarations are: under each name stand, once each
and in the order of declaration, the declared types from which extensions lead to it, and the types that are counted
are those with such types below. -/
theorem hierarchy_exact (s : DeclarationSet) :
    let h := ofSet s
    (∀ base, (h.descendants base).Sublist s.types.keys ∧ (h.descendants base).Nodup ∧
        (∀ name, name ∈ h.descendants base ↔ TransGen s.ExtendsType name base) ∧
        (h.hasDescendants base = true ↔ h.descendants base ≠ [])) ∧
      h.size = {base | h.descendants base ≠ []}.ncard ∧
      (s.Accepted → s.types.keys = s.documents.flatMap (·.types)) := by
  intro h
  refine ⟨fun base => ⟨descendants_sublist s base, ?_, fun name => mem_descendants_iff, ?_⟩,
    size_eq_ncard (filled_ofSet s), fun accepted => accepted.keys.1⟩
  · exact (descendants_sublist s base).nodup s.types.nodup
  · simp [hasDescendants]

/-- Two types that extend each other, one that extends the second, one that restricts that, and one whose base is not
declared. -/
def circle : DeclarationSet :=
  let name := fun localName => (⟨some "urn:ring", localName⟩ : QName)
  let derived := fun localName derivation =>
    ((name localName, ⟨some (name localName), false, .complex ⟨derivation, .empty, [], false⟩⟩) : QName × TypeDef)
  { DeclarationSet.empty with
    types := .ofList [derived "Left" (.extension (name "Right")), derived "Right" (.extension (name "Left")),
      derived "Guest" (.extension (name "Right")), derived "Part" (.restriction (name "Guest")),
      derived "Stray" (.extension (name "Nowhere"))] }

example : (["Left", "Right", "Guest", "Nowhere"].map fun localName =>
      ((ofSet circle).descendants ⟨some "urn:ring", localName⟩).map (·.localName)) =
    [["Left", "Right", "Guest"], ["Left", "Right", "Guest"], [], ["Stray"]] := by decide +kernel

end SchemaGraph.ClassHierarchy
