import Mathlib.Data.List.Forall2
import Mathlib.Data.List.Induction
import SchemaGraph.Proofs.Linking.Accepted

/-! Documents that are added one after the other, whatever comes of each.  Every document leaves the first of its
declarations, up to its fault; the list of documents names only what is there, and each element that is there has
joined the substitution group of its head. -/
namespace SchemaGraph.DeclarationSet

open Stateful

def offer (s : DeclarationSet) (doc : SchemaDocument) : DeclarationSet := (exec (add doc) s).2

def offered (docs : List SchemaDocument) : DeclarationSet := docs.foldl offer .empty

/-- The first of the declarations of a document are added to the set, and all of them if the document is listed. -/
inductive Offers (s : DeclarationSet) (doc : SchemaDocument) (t : DeclarationSet) : Prop
  | rejected {types : List TypeDef} {elements : List ElementDecl} (documents : t.documents = s.documents)
      (initialTypes : types <+: doc.types) (initialElements : elements <+: doc.elements)
      (typeEntries : t.types.entries = s.types.entries ++ types.flatMap typeEntry)
      (elementEntries : t.elements.entries = s.elements.entries ++ elements.map fun d => (d.name, d))
      (joined : t.substitutionGroups = elements.foldl joinHead s.substitutionGroups) : Offers s doc t
  | taken (h : s.TakesIn doc t) : Offers s doc t

section Documents

variable {s t : DeclarationSet} {doc : SchemaDocument} {docs : List SchemaDocument}

theorem offers_offer (s : DeclarationSet) (doc : SchemaDocument) : s.Offers doc (s.offer doc) := by
  rcases run : exec (add doc) s with ⟨r, t⟩
  rw [offer, run]
  cases r with
  | ok _ => exact .taken (takesIn_of_yields run)
  | error e =>
    have left := leftover_of_fails run
    obtain ⟨types, initialTypes, typeEntries⟩ := left.types
    obtain ⟨elements, initialElements, elementEntries, joined⟩ := left.elements
    exact .rejected left.documents initialTypes initialElements typeEntries elementEntries joined

theorem offered_append_singleton : offered (docs ++ [doc]) = (offered docs).offer doc := by
  rw [offered, List.foldl_append]
  rfl

theorem built_offered (docs : List SchemaDocument) : (offered docs).Built :=
  List.foldlRecOn docs offer .empty fun _ hs doc _ => hs.add doc

end Documents

/-- The lists of the documents, one after the other, are parts of what is declared, in its order. -/
structure InOrder (s : DeclarationSet) : Prop where
  types : (s.documents.flatMap (·.types)).Sublist s.types.keys
  elements : (s.documents.flatMap (·.elements)).Sublist s.elements.keys

section Lists

variable {s t : DeclarationSet} {doc : SchemaDocument}

theorem InOrder.offers (h : s.InOrder) (added : s.Offers doc t) : t.InOrder := by
  cases added with
  | rejected documents _ _ typeEntries elementEntries =>
    constructor
    · rw [documents, OrderedMap.keys, typeEntries, List.map_append]
      exact h.types.trans (List.sublist_append_left ..)
    · rw [documents, OrderedMap.keys, elementEntries, List.map_append]
      exact h.elements.trans (List.sublist_append_left ..)
  | taken h' =>
    constructor
    · rw [h'.documents, h'.typeKeys, List.flatMap_append, List.flatMap_singleton]
      exact h.types.append (List.Sublist.refl _)
    · rw [h'.documents, h'.elementKeys, List.flatMap_append, List.flatMap_singleton]
      exact h.elements.append (List.Sublist.refl _)

theorem inOrder_offered (docs : List SchemaDocument) : (offered docs).InOrder :=
  List.foldlRecOn docs offer ⟨List.Sublist.refl _, List.Sublist.refl _⟩ fun s hs doc _ => hs.offers (offers_offer s doc)

end Lists

section Runs

variable {docs : List SchemaDocument}

theorem Offers.exists_part {s t : DeclarationSet} {doc : SchemaDocument} (h : s.Offers doc t) :
    ∃ part, part <+: doc.elements ∧ t.elements.values = s.elements.values ++ part ∧
      t.substitutionGroups = part.foldl joinHead s.substitutionGroups := by
  cases h with
  | @rejected _ elements _ _ initial _ entries joined =>
    refine ⟨elements, initial, ?_, joined⟩
    rw [OrderedMap.values, entries, List.map_append, map_snd_own]
    rfl
  | taken h => exact ⟨doc.elements, List.prefix_rfl, h.elementValues, h.substitutionGroups⟩

/-- The elements that are there are the first elements of each document, and no others have joined a group. -/
theorem exists_taken (docs : List SchemaDocument) :
    ∃ taken, List.Forall₂ (fun doc part => part <+: doc.elements) docs taken ∧
      (offered docs).elements.values = taken.flatten ∧
      (offered docs).substitutionGroups = taken.flatten.foldl joinHead ∅ := by
  induction docs using List.reverseRecOn with
  | nil => exact ⟨[], .nil, rfl, rfl⟩
  | append_singleton docs doc ih =>
    obtain ⟨taken, initial, values, groups⟩ := ih
    obtain ⟨part, first, more, joined⟩ := (offers_offer (offered docs) doc).exists_part
    refine ⟨taken ++ [part], List.rel_append initial (.cons first .nil), ?_, ?_⟩
    · rw [offered_append_singleton, more, values, List.flatten_append, List.flatten_singleton]
    · rw [offered_append_singleton, joined, groups, List.flatten_append, List.flatten_singleton, List.foldl_append]

theorem offered_of_all_taken
    (all : ∀ before doc after, docs = before ++ doc :: after → (exec (add doc) (offered before)).1 = .ok ()) :
    (offered docs).Accepted ∧ (offered docs).documents = docs.map SchemaDocument.index ∧
    (offered docs).types.values = docs.flatMap (·.types) ∧
    (offered docs).elements.values = docs.flatMap (·.elements) := by
  induction docs using List.reverseRecOn with
  | nil => exact ⟨.empty, rfl, rfl, rfl⟩
  | append_singleton docs doc ih =>
    obtain ⟨accepted, documents, types, elements⟩ := ih fun before d after split =>
      all before d (after ++ [doc]) (by rw [split, List.append_assoc, List.cons_append])
    have run : Yields (add doc) (offered docs) () ((offered docs).offer doc) := Prod.ext (all docs doc [] rfl) rfl
    have taken := takesIn_of_yields run
    rw [offered_append_singleton]
    refine ⟨accepted.add doc (result_eq_ok_iff.2 run), ?_, ?_, ?_⟩
    · rw [taken.documents, documents, List.map_append, List.map_singleton]
    · rw [taken.typeValues, types, List.flatMap_append, List.flatMap_singleton]
    · rw [taken.elementValues, elements, List.flatMap_append, List.flatMap_singleton]

/-- What a set that documents were added to says of itself, whatever came of each of them. -/
theorem index_of_offered (docs : List SchemaDocument) :
    let s := offered docs
    s.Indexed ∧
    (∀ doc ∈ s.documents,
      (∀ name ∈ doc.types, ∃ d, s.type? name = some d ∧ d.name = some name) ∧
      (∀ name ∈ doc.elements, ∃ d, s.element? name = some d ∧ d.name = name)) ∧
    (s.documents.flatMap (·.types)).Nodup ∧ (s.documents.flatMap (·.elements)).Nodup ∧
    (∃ taken, List.Forall₂ (fun doc part => part <+: doc.elements) docs taken ∧
      s.elements.values = taken.flatten ∧ s.substitutionGroups = taken.flatten.foldl joinHead ∅) ∧
    (∀ head, s.substitutes head = (s.elements.values.filter (·.head == some head)).map (·.name) ∧
      (s.substitutes head).Nodup ∧
      ∀ name, name ∈ s.substitutes head ↔ ∃ d, s.element? name = some d ∧ d.head = some head) ∧
    ((∀ before doc after, docs = before ++ doc :: after → (exec (add doc) (offered before)).1 = .ok ()) →
      s.documents = docs.map SchemaDocument.index ∧
      s.types.keys = s.documents.flatMap (·.types) ∧ s.elements.keys = s.documents.flatMap (·.elements) ∧
      s.types.values = docs.flatMap (·.types) ∧ s.elements.values = docs.flatMap (·.elements)) := by
  intro s
  have indexed : s.Indexed := (built_offered docs).indexed
  have inOrder : s.InOrder := inOrder_offered docs
  refine ⟨indexed, fun doc listed => ⟨fun name type => ?_, fun name element => ?_⟩,
    s.types.nodup.sublist inOrder.types, s.elements.nodup.sublist inOrder.elements,
    exists_taken docs,
    fun head => ⟨indexed.members head, nodup_substitutes indexed head, fun name => mem_substitutes_iff indexed⟩,
    fun all => ?_⟩
  · obtain ⟨d, found⟩ := Option.isSome_iff_exists.1 (indexed.listedTypes doc listed name type)
    exact ⟨d, by rw [type?, found]; rfl, indexed.types name d found⟩
  · obtain ⟨d, found⟩ := Option.isSome_iff_exists.1 (indexed.listedElements doc listed name element)
    exact ⟨d, found, indexed.elements name d found⟩
  · obtain ⟨accepted, documents, types, elements⟩ := offered_of_all_taken all
    exact ⟨documents, accepted.keys.1, accepted.keys.2, types, elements⟩

def ware (kind : String) : SchemaDocument where
  targetNamespace := some "urn:ware"
  types := [⟨some ⟨some "urn:ware", kind⟩, false, .complex .empty⟩]
  elements := [⟨⟨some "urn:ware", kind⟩, .named ⟨some "urn:ware", kind⟩, .once, false, some ⟨some "urn:ware", "item"⟩⟩]

theorem wares_in_order :
    let docs := [ware "Book", ware "Lamp"]
    let s := offered docs
    (∀ before doc after, docs = before ++ doc :: after → (exec (add doc) (offered before)).1 = .ok ()) ∧
    s.elements.values = (ware "Book").elements ++ (ware "Lamp").elements ∧
    s.types.keys = s.documents.flatMap (·.types) ∧
    s.substitutes ⟨some "urn:ware", "item"⟩ = [⟨some "urn:ware", "Book"⟩, ⟨some "urn:ware", "Lamp"⟩] := by
  intro docs s
  have all : ∀ before doc after, docs = before ++ doc :: after → (exec (add doc) (offered before)).1 = .ok () := by
    intro before doc after (split : [ware "Book", ware "Lamp"] = _)
    rcases before with _ | ⟨first, _ | ⟨second, _ | ⟨third, before⟩⟩⟩ <;> cases split <;> rfl
  obtain ⟨-, -, -, -, -, members, taken⟩ := index_of_offered docs
  obtain ⟨-, types, -, -, elements⟩ := taken all
  refine ⟨all, elements, types, ?_⟩
  rw [(members _).1, elements]
  decide

end Runs

end SchemaGraph.DeclarationSet
