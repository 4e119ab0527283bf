import Mathlib.Data.List.Basic
import SchemaGraph.Proofs.Linking.Additions

/-! Sets whose documents were all taken in.  A document that is rejected leaves declarations that no document
lists; where none was, the documents list everything that is declared. -/
namespace SchemaGraph.DeclarationSet

open Stateful

/-- A set built from nothing by adding and linking, each step with success. -/
inductive Accepted : DeclarationSet → Prop
  | empty : Accepted .empty
  | add {s t : DeclarationSet} (h : Accepted s) (doc : SchemaDocument) (added : result (add doc) s = .ok t) :
      Accepted t
  | link {s t : DeclarationSet} (h : Accepted s) (linked : result link s = .ok t) : Accepted t

/-- The documents list every type and every element. -/
structure Listed (s : DeclarationSet) : Prop where
  types : ∀ name, s.types.contains name = true → ∃ doc ∈ s.documents, name ∈ doc.types
  elements : ∀ name, s.elements.contains name = true → ∃ doc ∈ s.documents, name ∈ doc.elements

variable {s : DeclarationSet}

theorem Accepted.built (h : s.Accepted) : s.Built := by
  induction h with
  | empty => exact .empty
  | @add s t _ doc added ih =>
    have state : (exec (DeclarationSet.add doc) s).2 = t := congrArg Prod.snd (result_eq_ok_iff.1 added)
    exact state ▸ ih.add doc
  | link _ linked ih => exact built_of_link ih linked

theorem Accepted.keys (h : s.Accepted) :
    s.types.keys = s.documents.flatMap (·.types) ∧ s.elements.keys = s.documents.flatMap (·.elements) := by
  induction h with
  | empty => exact ⟨rfl, rfl⟩
  | add _ doc added ih =>
    have taken := takesIn_of_yields (result_eq_ok_iff.1 added)
    rw [taken.typeKeys, taken.elementKeys, taken.documents, ih.1, ih.2, List.flatMap_append, List.flatMap_append,
      List.flatMap_singleton, List.flatMap_singleton]
    exact ⟨rfl, rfl⟩
  | @link s _ _ linked ih =>
    obtain ⟨rfl, -⟩ := checkReferences_of_link linked
    have keys := (retypes_inheritTypes s).keys
    obtain ⟨_, same⟩ := retypes_inheritTypes s
    rw [same] at keys ⊢
    exact ⟨ih.1, keys.trans ih.2⟩

theorem Accepted.listed (h : s.Accepted) : s.Listed := by
  obtain ⟨types, elements⟩ := h.keys
  constructor
  · intro name declared
    rwa [← OrderedMap.mem_keys_iff, types, List.mem_flatMap] at declared
  · intro name declared
    rwa [← OrderedMap.mem_keys_iff, elements, List.mem_flatMap] at declared

end SchemaGraph.DeclarationSet
