import SchemaGraph.Proofs.Linking.Additions

/-! What a document that is rejected leaves of the definitions that were there.  A type and an element keep theirs.
An attribute, an attribute group or a group loses its own if it is the fault, and has that of the rejected document
from then on. -/
namespace SchemaGraph.DeclarationSet

open Stateful

variable {s t : DeclarationSet} {doc : SchemaDocument} {e : DocumentError} {name : QName}

theorem type?_of_rejected (hs : s.Built) (rejected : Fails (add doc) s e t) {d : TypeDef}
    (found : s.type? name = some d) : t.type? name = some d := by
  obtain ⟨taken, -, entries⟩ := (leftover_of_fails rejected).types
  unfold type? at found ⊢
  cases declared : s.types.get? name with
  | some d' =>
    rw [declared] at found
    rwa [OrderedMap.get?_of_prefix ⟨_, entries.symm⟩ declared]
  | none =>
    rw [declared] at found
    have builtin : builtinType? name = some d := found
    have state : (exec (add doc) s).2 = t := congrArg Prod.snd rejected
    have built : t.Built := state ▸ hs.add doc
    rwa [built.indexed.builtins name (by rw [builtin]; rfl)]

theorem element?_of_rejected (rejected : Fails (add doc) s e t) {d : ElementDecl}
    (found : s.element? name = some d) : t.element? name = some d := by
  obtain ⟨taken, -, entries, -⟩ := (leftover_of_fails rejected).elements
  exact OrderedMap.get?_of_prefix ⟨_, entries.symm⟩ found

theorem lookup_map_own {β : Type} (own : β → QName) (l : List β) (name : QName) :
    (l.map fun b => (own b, b)).lookup name = l.find? (own · = name) := by
  induction l with
  | nil => rfl
  | cons b l ih =>
    rw [List.map_cons, List.lookup_cons, ih, List.find?_cons]
    by_cases same : own b = name
    · simp [same]
    · have other : (name == own b) = false := beq_eq_false_iff_ne.2 (Ne.symm same)
      simp [same, other]

/-- What is found after a rejection, of the definitions that were found before it. -/
theorem found_after_rejection (hs : s.Built) (rejected : Fails (add doc) s e t) (name : QName) :
    (∀ d, s.type? name = some d → t.type? name = some d) ∧
    (∀ d, s.element? name = some d → t.element? name = some d) ∧
    (∀ d, s.attr? name = some d → t.attr? name =
      if e = .duplicateDefinition .attr name then doc.attributes.lookup name else some d) ∧
    (∀ d, s.attributeGroup? name = some d → t.attributeGroup? name =
      if e = .duplicateDefinition .attributeGroup name then doc.attributeGroups.find? (·.name = name) else some d) ∧
    (∀ d, s.group? name = some d → t.group? name =
      if e = .duplicateDefinition .group name then doc.groups.find? (·.name = name) else some d) := by
  have left := leftover_of_fails rejected
  refine ⟨fun d => type?_of_rejected hs rejected, fun d => element?_of_rejected rejected,
    fun d => left.attributes.get?_eq, fun d found => ?_, fun d found => ?_⟩
  · rw [← lookup_map_own]
    exact left.attributeGroups.get?_eq found
  · rw [← lookup_map_own]
    exact left.groups.get?_eq found

/-- Units of measure are texts, until a document that makes them numbers is rejected. -/
def measures (type : String) : SchemaDocument where
  targetNamespace := some "urn:measure"
  attributes := [(⟨some "urn:measure", "unit"⟩, ⟨"unit", .named (.xsd type)⟩)]

theorem unit_after_rejection :
    let unit : QName := ⟨some "urn:measure", "unit"⟩
    let s := (exec (add (measures "string")) .empty).2
    ∃ t, Fails (add (measures "decimal")) s (.duplicateDefinition .attr unit) t ∧
      s.attr? unit = some ⟨"unit", .named (.xsd "string")⟩ ∧
      t.attr? unit = some ⟨"unit", .named (.xsd "decimal")⟩ := by
  intro unit s
  have built : s.Built := .add .empty _
  have rejected : Fails (add (measures "decimal")) s (.duplicateDefinition .attr unit)
    (exec (add (measures "decimal")) s).2 := rfl
  exact ⟨_, rejected, rfl, (found_after_rejection built rejected unit).2.2.1 _ rfl⟩

end SchemaGraph.DeclarationSet
