import SchemaGraph.Proofs.Linking.Built

/-! What a document leaves in a set, whether it is taken in or not.  Each loop over its declarations appends to one
map of the set and stops at the first name that is taken.  A type or an element of that name is not stored; an
attribute, an attribute group or a group is stored all the same, in the place of the one that had the name. -/
namespace SchemaGraph

def SchemaDocument.index (doc : SchemaDocument) : DocumentIndex :=
  ⟨doc.targetNamespace, doc.elements.map (·.name), doc.types.filterMap (·.name)⟩

namespace DeclarationSet

open Stateful

structure Shelf (β : Type) where
  read : DeclarationSet → OrderedMap QName β
  write : DeclarationSet → OrderedMap QName β → DeclarationSet
  read_write : ∀ s m, read (write s m) = m := by intros; rfl
  write_write : ∀ s m m', write (write s m) m' = write s m' := by intros; rfl
  write_read : ∀ s, write s (read s) = s := by intros; rfl

namespace Shelf

def ofTypes : Shelf TypeDef where
  read := (·.types)
  write s types := { s with types }

def ofAttributes : Shelf AttributeDecl where
  read := (·.attributes)
  write s attributes := { s with attributes }

def ofAttributeGroups : Shelf AttributeGroupDef where
  read := (·.attributeGroups)
  write s attributeGroups := { s with attributeGroups }

def ofGroups : Shelf ModelGroupDef where
  read := (·.groups)
  write s groups := { s with groups }

variable {α β : Type} {shelf : Shelf β} {entry : α → List (QName × β)}
  {f : α → Stateful DeclarationSet DocumentError Unit} {s t : DeclarationSet} {l : List α}

def Stores (shelf : Shelf β) (entry : α → List (QName × β)) (f : α → Stateful DeclarationSet DocumentError Unit) :
    Prop :=
  ∀ a s t, Yields (f a) s () t → ∃ name b, entry a = [(name, b)] ∧ (shelf.read s).contains name = false ∧
    t = shelf.write s ((shelf.read s).insert name b)

theorem Stores.through (h : shelf.Stores entry f) (way : Through (fun a s t => Yields (f a) s () t) l s t) :
    ∃ m, t = shelf.write s m ∧ m.entries = (shelf.read s).entries ++ l.flatMap entry := by
  induction way with
  | nil s => exact ⟨shelf.read s, (shelf.write_read s).symm, by simp⟩
  | cons first _ ih =>
    obtain ⟨name, b, only, new, rfl⟩ := h _ _ _ first
    obtain ⟨m, rfl, entries⟩ := ih
    refine ⟨m, shelf.write_write .., ?_⟩
    rw [entries, shelf.read_write, OrderedMap.entries_insert new, List.flatMap_cons, only, List.append_assoc]

theorem Stores.yields_forM (h : shelf.Stores entry f) (loop : Yields (l.forM f) s () t) :
    ∃ m, t = shelf.write s m ∧ m.entries = (shelf.read s).entries ++ l.flatMap entry :=
  h.through (Through.yields_forM_iff.1 loop)

def replace (shelf : Shelf β) (kind : DeclarationKind) (entry : QName × β) :
    Stateful DeclarationSet DocumentError Unit := do
  let known := (shelf.read (← get)).contains entry.1
  modify fun s => shelf.write s ((shelf.read s).insert entry.1 entry.2)
  if known then throw (.duplicateDefinition kind entry.1)

theorem replace_ends (shelf : Shelf β) (kind : DeclarationKind) (entry : QName × β) (s : DeclarationSet) :
    Ends (shelf.replace kind entry) s
      (fun _ t => (shelf.read s).contains entry.1 = false ∧ t = shelf.write s ((shelf.read s).insert entry.1 entry.2))
      fun e t => e = .duplicateDefinition kind entry.1 ∧ (shelf.read s).contains entry.1 = true ∧
        t = shelf.write s ((shelf.read s).insert entry.1 entry.2) := by
  unfold replace
  rw [ends_bind, ends_get]
  dsimp only
  rw [ends_bind, ends_modify]
  split
  · next known => exact ⟨rfl, known, rfl⟩
  · next new => exact ⟨Bool.eq_false_iff.2 new, rfl⟩

theorem stores_replace (shelf : Shelf β) (kind : DeclarationKind) (entry : α → QName × β) :
    shelf.Stores (fun a => [entry a]) fun a => shelf.replace kind (entry a) := by
  intro a s t stored
  obtain ⟨new, rfl⟩ := (shelf.replace_ends kind (entry a) s).answer stored
  exact ⟨_, _, rfl, new, rfl⟩

theorem replaced_of_yields (entry : α → QName × β) {kind : DeclarationKind}
    (loop : Yields (l.forM fun a => shelf.replace kind (entry a)) s () t) :
    ∃ m, t = shelf.write s m ∧ m.entries = (shelf.read s).entries ++ l.map entry := by
  obtain ⟨m, rfl, entries⟩ := (shelf.stores_replace kind entry).yields_forM loop
  rw [← List.map_eq_flatMap] at entries
  exact ⟨m, rfl, entries⟩

end Shelf

section Steps

variable {s t : DeclarationSet} {e : DocumentError}

def typeEntry (d : TypeDef) : List (QName × TypeDef) := (d.name.map (·, d)).toList

theorem addType_ends_exactly (d : TypeDef) (s : DeclarationSet) :
    Ends (addType d) s
      (fun _ t => ∃ name, d.name = some name ∧ s.types.contains name = false ∧
        t = { s with types := s.types.insert name d })
      fun e t => (e = .invalidStructure .unnamedType ∨ ∃ name, e = .duplicateDefinition .type name) ∧ t = s := by
  unfold addType
  cases own : d.name with
  | none => exact ⟨.inl rfl, rfl⟩
  | some name =>
    dsimp only
    rw [ends_bind, ends_get]
    split
    · exact ⟨.inr ⟨name, rfl⟩, rfl⟩
    · next new =>
      refine ⟨name, rfl, ?_, rfl⟩
      rw [type?] at new
      cases declared : s.types.get? name <;> simp_all [OrderedMap.contains]

theorem addElement_ends_exactly (d : ElementDecl) (s : DeclarationSet) :
    Ends (addElement d) s
      (fun _ t => s.elements.contains d.name = false ∧
        t = { s with elements := s.elements.insert d.name d, substitutionGroups := joinHead s.substitutionGroups d })
      fun e t => e = .duplicateDefinition .element d.name ∧ t = s := by
  unfold addElement
  rw [ends_bind, ends_get]
  split
  · exact ⟨rfl, rfl⟩
  · next new => exact ⟨Bool.eq_false_iff.2 new, rfl⟩

theorem stores_addType : Shelf.ofTypes.Stores typeEntry addType := by
  intro d s t added
  obtain ⟨name, own, new, rfl⟩ := (addType_ends_exactly d s).answer added
  exact ⟨name, d, by rw [typeEntry, own]; rfl, new, rfl⟩

/-- The elements that are added one after the other are stored behind those that were there, and each has joined the
group of its head. -/
theorem of_added_elements {l : List ElementDecl} (way : Through (fun d s t => Yields (addElement d) s () t) l s t) :
    ∃ m, t = { s with elements := m, substitutionGroups := l.foldl joinHead s.substitutionGroups } ∧
      m.entries = s.elements.entries ++ l.map fun d => (d.name, d) := by
  induction way with
  | nil s => exact ⟨s.elements, rfl, (List.append_nil _).symm⟩
  | cons first _ ih =>
    obtain ⟨new, rfl⟩ := (addElement_ends_exactly _ _).answer first
    obtain ⟨m, rfl, entries⟩ := ih
    refine ⟨m, rfl, ?_⟩
    rw [entries, OrderedMap.entries_insert new, List.map_cons, List.append_assoc, List.singleton_append]

end Steps

theorem add_eq (doc : SchemaDocument) : add doc = (do
    doc.types.forM addType
    doc.elements.forM addElement
    doc.attributes.forM (Shelf.ofAttributes.replace .attr)
    doc.attributeGroups.forM fun d => Shelf.ofAttributeGroups.replace .attributeGroup (d.name, d)
    doc.groups.forM fun d => Shelf.ofGroups.replace .group (d.name, d)
    modify fun s => { s with documents := s.documents ++ [doc.index] }) := rfl

/-- What has become of a map by the time a document is rejected: entries of the document stand behind it, and if the
fault is a name in this map, that name has the entry of the document. -/
inductive Shelved {β : Type} (kind : DeclarationKind) (offered : List (QName × β)) (m : OrderedMap QName β)
    (e : DocumentError) : OrderedMap QName β → Prop
  | appended {m' : OrderedMap QName β} {taken : List (QName × β)}
      (elsewhere : ∀ name, e ≠ .duplicateDefinition kind name) (initial : taken <+: offered)
      (entries : m'.entries = m.entries ++ taken) : Shelved kind offered m e m'
  | replaced {mid : OrderedMap QName β} {before after : List (QName × β)} {name : QName} {b : β}
      (fault : e = .duplicateDefinition kind name) (split : offered = before ++ (name, b) :: after)
      (entries : mid.entries = m.entries ++ before) : Shelved kind offered m e (mid.insert name b)

namespace Shelved

variable {α β : Type} {shelf : Shelf β} {kind : DeclarationKind} {offered l : List (QName × β)}
  {m m' : OrderedMap QName β} {e : DocumentError} {s t : DeclarationSet} {name : QName} {b : β}

theorem untouched (elsewhere : ∀ name, e ≠ .duplicateDefinition kind name) : Shelved kind offered m e m :=
  .appended elsewhere (List.nil_prefix) (List.append_nil _).symm

theorem of_fails (entry : α → QName × β) {items : List α}
    (rejected : Fails (items.forM fun a => shelf.replace kind (entry a)) s e t) :
    ∃ m name, e = .duplicateDefinition kind name ∧ t = shelf.write s m ∧
      Shelved kind (items.map entry) (shelf.read s) e m := by
  obtain ⟨before, a, after, u, rfl, way, fails⟩ := Through.fails_forM_iff.1 rejected
  obtain ⟨mid, rfl, entries⟩ := (shelf.stores_replace kind entry).through way
  obtain ⟨rfl, -, rfl⟩ := (shelf.replace_ends kind (entry a) _).fault fails
  rw [shelf.read_write, shelf.write_write]
  rw [← List.map_eq_flatMap] at entries
  have split : (before ++ a :: after).map entry = before.map entry ++ entry a :: after.map entry := by
    rw [List.map_append, List.map_cons]
  exact ⟨_, _, rfl, rfl, .replaced rfl split entries⟩

theorem get?_eq (h : Shelved kind offered m e m') (found : m.get? name = some b) :
    m'.get? name = if e = .duplicateDefinition kind name then offered.lookup name else some b := by
  cases h with
  | appended elsewhere initial entries =>
    rw [if_neg (elsewhere name)]
    exact OrderedMap.get?_of_prefix ⟨_, entries.symm⟩ found
  | @replaced mid before after other b' fault split entries =>
    subst fault split
    have kept : mid.get? name = some b := OrderedMap.get?_of_prefix ⟨_, entries.symm⟩ found
    rw [OrderedMap.get?_insert]
    by_cases same : name = other
    · subst same
      -- The name is in the map, so that none of the entries that were appended has it.
      have distinct := mid.nodup
      rw [entries, List.map_append, List.nodup_append] at distinct
      have here : name ∈ m.entries.map (·.1) := (OrderedMap.mem_keys_iff _ _).2 (Option.isSome_of_mem found)
      have absent : before.lookup name = none := by
        rw [List.lookup_eq_none_iff]
        intro p hp
        rw [bne_iff_ne]
        exact distinct.2.2 name here p.1 (List.mem_map_of_mem hp)
      simp [List.lookup_append, absent]
    · have other' : DocumentError.duplicateDefinition kind other ≠ .duplicateDefinition kind name := by
        rintro ⟨⟩
        exact same rfl
      rw [if_neg same, if_neg other', kept]

end Shelved

/-- `t` is what a document that is rejected with the fault `e` leaves of `s`. -/
structure Leftover (s : DeclarationSet) (doc : SchemaDocument) (e : DocumentError) (t : DeclarationSet) : Prop where
  documents : t.documents = s.documents
  types : ∃ taken, taken <+: doc.types ∧ t.types.entries = s.types.entries ++ taken.flatMap typeEntry
  elements : ∃ taken, taken <+: doc.elements ∧
    t.elements.entries = s.elements.entries ++ (taken.map fun d => (d.name, d)) ∧
    t.substitutionGroups = taken.foldl joinHead s.substitutionGroups
  attributes : Shelved .attr doc.attributes s.attributes e t.attributes
  attributeGroups : Shelved .attributeGroup (doc.attributeGroups.map fun d => (d.name, d)) s.attributeGroups e
    t.attributeGroups
  groups : Shelved .group (doc.groups.map fun d => (d.name, d)) s.groups e t.groups

structure TakesIn (s : DeclarationSet) (doc : SchemaDocument) (t : DeclarationSet) : Prop where
  documents : t.documents = s.documents ++ [doc.index]
  named : ∀ d ∈ doc.types, ∃ name, d.name = some name
  types : t.types.entries = s.types.entries ++ doc.types.flatMap typeEntry
  elements : t.elements.entries = s.elements.entries ++ doc.elements.map fun d => (d.name, d)
  substitutionGroups : t.substitutionGroups = doc.elements.foldl joinHead s.substitutionGroups
  attributes : t.attributes.entries = s.attributes.entries ++ doc.attributes
  attributeGroups : t.attributeGroups.entries = s.attributeGroups.entries ++ doc.attributeGroups.map fun d => (d.name, d)
  groups : t.groups.entries = s.groups.entries ++ doc.groups.map fun d => (d.name, d)

section Documents

variable {s t : DeclarationSet} {doc : SchemaDocument} {e : DocumentError}

theorem ne_duplicate {kind kind' : DeclarationKind} {name : QName} (h : e = .duplicateDefinition kind name)
    (other : kind ≠ kind') (name' : QName) : e ≠ .duplicateDefinition kind' name' := by
  rintro rfl
  cases h
  exact other rfl

theorem leftover_of_fails (rejected : Fails (add doc) s e t) : s.Leftover doc e t := by
  rw [add_eq] at rejected
  -- One case for each loop that can stop; the loops before it have stored all that they had.
  rcases fails_bind.1 rejected with fault | ⟨_, s₁, added, rejected⟩
  · obtain ⟨before, d, after, u, split, way, fails⟩ := Through.fails_forM_iff.1 fault
    obtain ⟨T, rfl, entries⟩ := stores_addType.through way
    obtain ⟨cause, rfl⟩ := (addType_ends_exactly d _).fault fails
    have elsewhere : ∀ kind, kind ≠ .type → ∀ name, e ≠ .duplicateDefinition kind name := by
      rcases cause with rfl | ⟨_, cause⟩
      · exact fun _ _ _ => nofun
      · exact fun kind other => ne_duplicate cause (Ne.symm other)
    exact ⟨rfl, ⟨before, ⟨_, split.symm⟩, entries⟩, ⟨[], List.nil_prefix, (List.append_nil _).symm, rfl⟩,
      .untouched (elsewhere _ nofun), .untouched (elsewhere _ nofun), .untouched (elsewhere _ nofun)⟩
  obtain ⟨T, rfl, typeEntries⟩ := stores_addType.yields_forM added
  have types : ∃ taken, taken <+: doc.types ∧ T.entries = s.types.entries ++ taken.flatMap typeEntry :=
    ⟨doc.types, List.prefix_rfl, typeEntries⟩
  rcases fails_bind.1 rejected with fault | ⟨_, s₂, added, rejected⟩
  · obtain ⟨before, d, after, u, split, way, fails⟩ := Through.fails_forM_iff.1 fault
    obtain ⟨E, rfl, entries⟩ := of_added_elements way
    obtain ⟨cause, rfl⟩ := (addElement_ends_exactly d _).fault fails
    exact ⟨rfl, types, ⟨before, ⟨_, split.symm⟩, entries, rfl⟩, .untouched (ne_duplicate cause nofun),
      .untouched (ne_duplicate cause nofun), .untouched (ne_duplicate cause nofun)⟩
  obtain ⟨E, rfl, elementEntries⟩ := of_added_elements (Through.yields_forM_iff.1 added)
  have elements : ∃ taken, taken <+: doc.elements ∧
      E.entries = s.elements.entries ++ (taken.map fun d => (d.name, d)) ∧
      doc.elements.foldl joinHead s.substitutionGroups = taken.foldl joinHead s.substitutionGroups :=
    ⟨doc.elements, List.prefix_rfl, elementEntries, rfl⟩
  rcases fails_bind.1 rejected with fault | ⟨_, s₃, added, rejected⟩
  · obtain ⟨A, name, cause, rfl, replaced⟩ := Shelved.of_fails id fault
    rw [List.map_id] at replaced
    exact ⟨rfl, types, elements, replaced, .untouched (ne_duplicate cause nofun),
      .untouched (ne_duplicate cause nofun)⟩
  obtain ⟨A, rfl, attributes⟩ := Shelf.replaced_of_yields id added
  rw [List.map_id] at attributes
  rcases fails_bind.1 rejected with fault | ⟨_, s₄, added, rejected⟩
  · obtain ⟨G, name, cause, rfl, replaced⟩ := Shelved.of_fails _ fault
    exact ⟨rfl, types, elements, .appended (ne_duplicate cause nofun) List.prefix_rfl attributes, replaced,
      .untouched (ne_duplicate cause nofun)⟩
  obtain ⟨G, rfl, attributeGroups⟩ := Shelf.replaced_of_yields _ added
  rcases fails_bind.1 rejected with fault | ⟨_, s₅, -, rejected⟩
  · obtain ⟨M, name, cause, rfl, replaced⟩ := Shelved.of_fails _ fault
    exact ⟨rfl, types, elements, .appended (ne_duplicate cause nofun) List.prefix_rfl attributes,
      .appended (ne_duplicate cause nofun) List.prefix_rfl attributeGroups, replaced⟩
  · exact absurd rejected not_fails_modify

theorem takesIn_of_yields (taken : Yields (add doc) s () t) : s.TakesIn doc t := by
  rw [add_eq] at taken
  obtain ⟨_, s₁, added, taken⟩ := yields_bind.1 taken
  have named : ∀ d ∈ doc.types, ∃ name, d.name = some name := by
    intro d listed
    obtain ⟨-, -, u, v, -, -, first, -⟩ := (Through.yields_forM_iff.1 added).of_mem listed
    obtain ⟨name, own, -⟩ := (addType_ends_exactly d u).answer first
    exact ⟨name, own⟩
  obtain ⟨T, rfl, types⟩ := stores_addType.yields_forM added
  obtain ⟨_, s₂, added, taken⟩ := yields_bind.1 taken
  obtain ⟨E, rfl, elements⟩ := of_added_elements (Through.yields_forM_iff.1 added)
  obtain ⟨_, s₃, added, taken⟩ := yields_bind.1 taken
  obtain ⟨A, rfl, attributes⟩ := Shelf.replaced_of_yields id added
  rw [List.map_id] at attributes
  obtain ⟨_, s₄, added, taken⟩ := yields_bind.1 taken
  obtain ⟨G, rfl, attributeGroups⟩ := Shelf.replaced_of_yields _ added
  obtain ⟨_, s₅, added, taken⟩ := yields_bind.1 taken
  obtain ⟨M, rfl, groups⟩ := Shelf.replaced_of_yields _ added
  obtain rfl := yields_modify.1 taken
  exact ⟨rfl, named, types, elements, rfl, attributes, attributeGroups, groups⟩

theorem typeEntry_keys (l : List TypeDef) : (l.flatMap typeEntry).map (·.1) = l.filterMap (·.name) := by
  induction l with
  | nil => rfl
  | cons d l ih =>
    rw [List.flatMap_cons, List.map_append, ih, typeEntry]
    cases own : d.name <;> simp [own]

theorem typeEntry_values {l : List TypeDef} (named : ∀ d ∈ l, ∃ name, d.name = some name) :
    (l.flatMap typeEntry).map (·.2) = l := by
  induction l with
  | nil => rfl
  | cons d l ih =>
    obtain ⟨⟨name, own⟩, rest⟩ := List.forall_mem_cons.1 named
    rw [List.flatMap_cons, List.map_append, ih rest, typeEntry, own]
    rfl

theorem map_fst_own {β : Type} (own : β → QName) (l : List β) : (l.map fun b => (own b, b)).map (·.1) = l.map own := by
  rw [List.map_map]
  rfl

theorem map_snd_own {β : Type} (own : β → QName) (l : List β) : (l.map fun b => (own b, b)).map (·.2) = l := by
  rw [List.map_map]
  exact List.map_id l

theorem TakesIn.typeKeys (h : s.TakesIn doc t) : t.types.keys = s.types.keys ++ doc.index.types := by
  rw [OrderedMap.keys, h.types, List.map_append, typeEntry_keys]
  rfl

theorem TakesIn.elementKeys (h : s.TakesIn doc t) : t.elements.keys = s.elements.keys ++ doc.index.elements := by
  rw [OrderedMap.keys, h.elements, List.map_append, map_fst_own]
  rfl

theorem TakesIn.typeValues (h : s.TakesIn doc t) : t.types.values = s.types.values ++ doc.types := by
  rw [OrderedMap.values, h.types, List.map_append, typeEntry_values h.named]
  rfl

theorem TakesIn.elementValues (h : s.TakesIn doc t) : t.elements.values = s.elements.values ++ doc.elements := by
  rw [OrderedMap.values, h.elements, List.map_append, map_snd_own]
  rfl

theorem TakesIn.attributeValues (h : s.TakesIn doc t) :
    t.attributes.values = s.attributes.values ++ doc.attributes.map (·.2) := by
  rw [OrderedMap.values, h.attributes, List.map_append]
  rfl

theorem TakesIn.attributeGroupValues (h : s.TakesIn doc t) :
    t.attributeGroups.values = s.attributeGroups.values ++ doc.attributeGroups := by
  rw [OrderedMap.values, h.attributeGroups, List.map_append, map_snd_own]
  rfl

theorem TakesIn.groupValues (h : s.TakesIn doc t) : t.groups.values = s.groups.values ++ doc.groups := by
  rw [OrderedMap.values, h.groups, List.map_append, map_snd_own]
  rfl

end Documents

end DeclarationSet

end SchemaGraph
