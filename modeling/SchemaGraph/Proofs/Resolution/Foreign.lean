import SchemaGraph.Proofs.Linking.Loaded
import SchemaGraph.Proofs.Resolution.Requests

/-! Types outside the known namespaces.  Where none are configured, those of the documents are known, and what is
declared in a document that was read is in the namespace of the document.  A name without a namespace is never known:
a complex type that is declared under one is foreign in its own set. -/
namespace SchemaGraph

open Stateful

section Known

variable {c : ResolveContext} {name : QName}

theorem ne_target_of_not_isKnown (byDefault : c.options.knownNamespaces = []) (unknown : c.isKnown name = false)
    {doc : DocumentIndex} (listed : doc ∈ c.set.documents) (target : doc.targetNamespace ≠ none) :
    doc.targetNamespace ≠ name.uri := by
  obtain ⟨uri, some⟩ := Option.ne_none_iff_exists'.1 target
  intro same
  have known : uri ∈ c.knownNamespaces := by
    rw [ResolveContext.knownNamespaces, byDefault]
    exact List.mem_cons_of_mem _ (List.mem_filterMap.2 ⟨doc, listed, some⟩)
  rw [ResolveContext.isKnown, ← same, some] at unknown
  cases unknown.symm.trans (List.contains_iff_mem.2 known)

end Known

/-- What is foreign in a set is a complex type of the set with a name that is not known. -/
def ResolveContext.HoldsForeign (c : ResolveContext) (name : QName) (d : TypeDef) : Prop :=
  d.name = some name ∧ d.isSimple = false ∧ c.isKnown name = false ∧
    (c.set.type? name = some d ∨ ∃ context, Mention.inline d context ∈ c.set.mentions)

theorem allows_holdsForeign {c : ResolveContext} (hi : c.set.Indexed) :
    (c.scope .all).Allows fun e => ∀ name, e = .foreignType name → ∃ d, c.HoldsForeign name d where
  content := by
    rintro _ he name rfl
    cases he
  foreign := by
    rintro d context name holds own unknown complex _ ⟨⟩
    refine ⟨d, own, complex, unknown, ?_⟩
    rcases holds with ⟨⟨source, declared⟩, -⟩ | inline
    · obtain rfl := Option.some.inj (own.symm.trans (hi.name_of_type? declared))
      exact .inl declared
    · rcases List.mem_append.1 inline with asked | declared
      · -- Everything is asked for by name.
        obtain ⟨doc, -, asked⟩ := List.mem_flatMap.1 asked
        rcases List.mem_append.1 asked with asked | asked <;> obtain ⟨_, -, ⟨⟩⟩ := List.mem_map.1 asked
      · exact .inr ⟨context, declared⟩
  lost := by
    rintro _ (⟨path, rfl⟩ | ⟨kind, missing, context, rfl, -⟩) name <;> exact nofun
  member := fun _ _ _ _ _ _ => nofun
  subtype := fun _ _ _ _ _ _ => nofun

theorem ResolveContext.HoldsForeign.of_loaded {c : ResolveContext} (loaded : c.set.Loaded)
    (byDefault : c.options.knownNamespaces = []) {name : QName} {d : TypeDef} (h : c.HoldsForeign name d) :
    c.set.type? name = some d ∧ name.uri = none ∧
      ∃ doc ∈ c.set.documents, doc.targetNamespace = none ∧ name ∈ doc.types := by
  obtain ⟨own, complex, unknown, declared | ⟨context, inline⟩⟩ := h
  · have contains : c.set.types.contains name = true := by
      unfold DeclarationSet.type? at declared
      cases found : c.set.types.get? name with
      | some d => exact Option.isSome_iff_exists.2 ⟨d, found⟩
      | none =>
        rw [found] at declared
        obtain ⟨localName, -, rfl⟩ := List.mem_map.1 (DeclarationSet.mem_builtinNames_of_builtinType? declared)
        cases unknown.symm.trans (c.isKnown_xsd localName)
    obtain ⟨doc, hdoc, listed⟩ := loaded.accepted.listed.types name contains
    have target : name.uri = doc.targetNamespace := loaded.own.listed doc hdoc name listed
    have none : doc.targetNamespace = none := by
      by_contra some
      exact ne_target_of_not_isKnown byDefault unknown hdoc some target.symm
    exact ⟨declared, target.trans none, doc, hdoc, none, listed⟩
  · cases own.symm.trans (loaded.own.nameless d context inline)

/-- By default nothing is foreign but complex types with names outside the namespaces of all documents; in a set of
documents that were read these are the complex types of documents without a namespace. -/
theorem foreign_by_default {s : DeclarationSet} (hs : s.Built) (table : OverrideTable) (options : ResolveOptions)
    (byDefault : options.knownNamespaces = []) (requests : List Request) :
    let c : ResolveContext := ⟨s, .ofSet s, table, options⟩
    ∀ name t, Fails c.resolveAll (c.stateAfter requests) (.foreignType name) t →
      ∃ d, d.name = some name ∧ d.isSimple = false ∧
        (∀ doc ∈ s.documents, doc.targetNamespace ≠ none → doc.targetNamespace ≠ name.uri) ∧
        (s.type? name = some d ∨ ∃ context, Mention.inline d context ∈ s.mentions) ∧
        (s.Loaded → s.type? name = some d ∧ name.uri = none ∧
          ∃ doc ∈ s.documents, doc.targetNamespace = none ∧ name ∈ doc.types) := by
  intro c name t fails
  have served := c.resolveAll_serves (allows_holdsForeign (c := c) hs.indexed) (c.sound_stateAfter requests)
  obtain ⟨d, foreign⟩ := (served.fault fails).2.2 name rfl
  have ofLoaded (loaded : s.Loaded) := foreign.of_loaded loaded byDefault
  obtain ⟨own, complex, unknown, declared⟩ := foreign
  exact ⟨d, own, complex, fun doc hdoc => ne_target_of_not_isKnown (c := c) byDefault unknown hdoc, declared, ofLoaded⟩

def singleType (attributes typeName : String) : String :=
  "<xs:schema xmlns:xs='http://www.w3.org/2001/XMLSchema'" ++ attributes ++ "><xs:complexType name='" ++ typeName ++
    "'/></xs:schema>"

def commerce : Except SetError DeclarationSet :=
  DeclarationSet.linked [singleType " targetNamespace='urn:payment'" "Payment", singleType "" "Order"]

theorem commerce_run :
    (commerce.toOption.any fun s =>
      let c : ResolveContext := ⟨s, .ofSet s, {}, {}⟩
      match exec c.resolveAll c.fresh with
      | (.error (.foreignType name), _) => name = ⟨none, "Order"⟩
      | _ => false) = true := by
  decide +kernel

theorem order_without_namespace :
    ∃ s, commerce = .ok s ∧
      let c : ResolveContext := ⟨s, .ofSet s, {}, {}⟩
      ∃ name t, Fails c.resolveAll c.fresh (.foreignType name) t ∧ name.uri = none ∧
        ∃ doc ∈ s.documents, doc.targetNamespace = none ∧ name ∈ doc.types := by
  obtain ⟨s, linked, run⟩ := exists_eq_ok_of_any commerce_run
  refine ⟨s, linked, ?_⟩
  intro c
  have loaded := DeclarationSet.loaded_of_linked linked
  dsimp only at run
  split at run
  · next name t fails =>
    obtain ⟨d, -, -, -, -, read⟩ := foreign_by_default loaded.accepted.built {} {} rfl [] name t fails
    obtain ⟨-, none, declared⟩ := read loaded
    exact ⟨name, t, fails, none, declared⟩
  · cases run

/-- A complex type of a document that was read, linked and resolved by default can be foreign. -/
theorem order_foreign :
    ∃ s, commerce = .ok s ∧
      let c : ResolveContext := ⟨s, .ofSet s, {}, {}⟩
      ∃ t, Fails c.resolveAll c.fresh (.foreignType ⟨none, "Order"⟩) t := by
  obtain ⟨s, linked, run⟩ := exists_eq_ok_of_any commerce_run
  refine ⟨s, linked, ?_⟩
  intro c
  dsimp only at run
  split at run
  · next name t fails =>
    obtain rfl := of_decide_eq_true run
    exact ⟨t, fails⟩
  · cases run

end SchemaGraph
