import SchemaGraph.Proofs.Linking.Accepted
import SchemaGraph.Proofs.Linking.NearestTypes
import SchemaGraph.Proofs.Linking.Reading

/-! Sets of documents that were read.  Linking gives elements the types of other elements, and so no definition that
was not read. -/
namespace SchemaGraph.DeclarationSet

open Stateful

inductive Loaded : DeclarationSet → Prop
  | empty : Loaded .empty
  | add {s t : DeclarationSet} {text : String} {doc : SchemaDocument} (h : Loaded s)
      (read : SchemaDocument.ofText text = .ok doc) (added : result (add doc) s = .ok t) : Loaded t
  | link {s t : DeclarationSet} (h : Loaded s) (linked : result link s = .ok t) : Loaded t

/-- The types that a document lists are in its namespace, and inline definitions have no names. -/
structure Own (s : DeclarationSet) : Prop where
  listed : ∀ doc ∈ s.documents, ∀ name ∈ doc.types, name.uri = doc.targetNamespace
  nameless : Nameless s.mentions

variable {s t : DeclarationSet} {doc : SchemaDocument}

theorem nameless_mentions_iff : Nameless s.mentions ↔
    (∀ d ∈ s.types.values, Nameless d.mentions) ∧ (∀ d ∈ s.elements.values, Nameless d.mentions) ∧
    (∀ d ∈ s.attributes.values, Nameless (d.typeRef.mentions none)) ∧
    (∀ d ∈ s.attributeGroups.values, Nameless (AttributeUse.mentionsList d.attributes)) ∧
    ∀ d ∈ s.groups.values, Nameless d.group.mentions := by
  simp only [mentions, Nameless.append_iff, Nameless.flatMap_iff, and_assoc]

theorem Own.takesIn (h : s.Own) (own : doc.Own) (taken : s.TakesIn doc t) : t.Own where
  listed := by
    rw [taken.documents]
    refine List.forall_mem_append.2 ⟨h.listed, List.forall_mem_singleton.2 fun name listed => ?_⟩
    obtain ⟨d, hd, named⟩ := List.mem_filterMap.1 listed
    obtain ⟨⟨localName, hname⟩, -⟩ := own.types d hd
    obtain rfl := Option.some.inj (named.symm.trans hname)
    rfl
  nameless := by
    obtain ⟨types, elements, attributes, attributeGroups, groups⟩ := nameless_mentions_iff.1 h.nameless
    rw [nameless_mentions_iff, taken.typeValues, taken.elementValues, taken.attributeValues,
      taken.attributeGroupValues, taken.groupValues]
    refine ⟨List.forall_mem_append.2 ⟨types, fun d hd => (own.types d hd).2⟩,
      List.forall_mem_append.2 ⟨elements, own.elements⟩, List.forall_mem_append.2 ⟨attributes, fun d hd => ?_⟩,
      List.forall_mem_append.2 ⟨attributeGroups, own.attributeGroups⟩, List.forall_mem_append.2 ⟨groups, own.groups⟩⟩
    obtain ⟨p, hp, rfl⟩ := List.mem_map.1 hd
    exact own.attributes p hp

theorem Own.inheritTypes (h : s.Own) (hi : s.Indexed) : s.inheritTypes.Own := by
  obtain ⟨handed, -⟩ := (Handed.refl s).inheritTypes hi
  obtain ⟨types, elements, attributes, attributeGroups, groups⟩ := nameless_mentions_iff.1 h.nameless
  have typed : ∀ d ∈ s.inheritTypes.elements.values, Nameless d.mentions := by
    intro d hd
    obtain ⟨name, found⟩ := (OrderedMap.mem_values_iff _ _).1 hd
    rw [ElementDecl.nameless_iff]
    by_cases untyped : d.typeRef = .unspecified
    · rw [untyped]
      exact .nil
    · obtain ⟨other, d', found', same⟩ := (handed.nearest name d found untyped).exists_own
      rw [← same, ← ElementDecl.nameless_iff]
      exact elements d' ((OrderedMap.mem_values_iff _ _).2 ⟨other, found'⟩)
  obtain ⟨_, same⟩ := retypes_inheritTypes s
  constructor
  · rw [same]
    exact h.listed
  · refine nameless_mentions_iff.2 ⟨?_, typed, ?_⟩
    · rw [same]
      exact types
    · rw [same]
      exact ⟨attributes, attributeGroups, groups⟩

theorem Loaded.accepted (h : s.Loaded) : s.Accepted := by
  induction h with
  | empty => exact .empty
  | add _ _ added ih => exact ih.add _ added
  | link _ linked ih => exact ih.link linked

theorem Loaded.own (h : s.Loaded) : s.Own := by
  induction h with
  | empty => exact ⟨fun _ h => absurd h List.not_mem_nil, .nil⟩
  | add _ read added ih =>
    exact ih.takesIn (SchemaDocument.own_ofText read) (takesIn_of_yields (result_eq_ok_iff.1 added))
  | link before linked ih =>
    obtain ⟨rfl, -⟩ := checkReferences_of_link linked
    exact ih.inheritTypes before.accepted.built.indexed

theorem loaded_of_linked {texts : List String} (h : linked texts = .ok s) : s.Loaded := by
  obtain ⟨t, added, linked⟩ := bind_eq_ok_iff.1 h
  have loaded : Settles (texts.foldlM addText .empty) Loaded fun _ => True := by
    refine Settles.foldlM .empty fun text _ s hs => ?_
    unfold addText
    cases read : SchemaDocument.ofText text with
    | error e => trivial
    | ok doc =>
      change Settles (result (DeclarationSet.add doc) s) _ _
      cases result : result (DeclarationSet.add doc) s with
      | ok t => exact hs.add read result
      | error e => trivial
  exact .link (loaded.answer (mapError_eq_ok_iff.1 added)) linked

end SchemaGraph.DeclarationSet
