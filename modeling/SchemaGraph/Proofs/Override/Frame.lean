import SchemaGraph.Proofs.Override.Repetition

/-! When a table can be applied, and what it leaves as it was.  Corrections of entries need their targets in the
registry that they start from; an alias may stand for an alias before it. -/
namespace SchemaGraph

open Stateful TypeGraph

def Registry.HasElement (types : Registry) (key element : String) : Prop :=
  ∃ t, types.find? key = some t ∧ element ∈ t.elements.keys

structure OverrideTable.Finds (table : OverrideTable) (types : Registry) : Prop where
  typeNames : ∀ key ∈ table.typeNames.keys, (types.lookup key).isSome
  listNames : ∀ key ∈ table.listNames.keys, (types.lookup key).isSome
  extraProperties : ∀ key ∈ table.extraProperties.keys, (types.lookup key).isSome
  textAttributes : ∀ key ∈ table.textAttributes.keys, (types.lookup key).isSome
  simpleKinds : ∀ key ∈ table.simpleKinds.keys, (types.lookup key).isSome
  items : ∀ key item, table.simpleKinds.get? key = some (.list item) →
    (types.lookup item).isSome ∧ item ≠ key
  /-- The type of a list of names is looked up even if the list is empty. -/
  namedTypes : ∀ c ∈ table.elementNames, (types.lookup c.typeKey).isSome
  elementNames : ∀ c ∈ table.elementNames, ∀ element ∈ c.elements, types.HasElement c.typeKey element
  elementHints : ∀ c ∈ table.elementHints, types.HasElement c.typeKey c.element
  elementDefaults : ∀ c ∈ table.elementDefaults, types.HasElement c.typeKey c.element

/-- Aliases can be bound in order: each target is an operation when its turn comes, and the alias is free or
stands for the same operation already.  `added` are the free ones. -/
inductive Aliased : OrderedMap String Operation → List (String × String) → List (String × Operation) →
    OrderedMap String Operation → Prop
  | done (operations : OrderedMap String Operation) : Aliased operations [] [] operations
  | new {operations operations' : OrderedMap String Operation} {name target : String} {op : Operation}
      {rest : List (String × String)} {added : List (String × Operation)} :
      operations.get? target = some op → operations.get? name = none →
      Aliased (operations.insert name op) rest added operations' →
      Aliased operations ((name, target) :: rest) ((name, op) :: added) operations'
  | bound {operations operations' : OrderedMap String Operation} {name target : String} {op : Operation}
      {rest : List (String × String)} {added : List (String × Operation)} :
      operations.get? target = some op → operations.get? name = some op →
      Aliased operations rest added operations' →
      Aliased operations ((name, target) :: rest) added operations'

/-- What a table makes of a graph.  Only the fields that `OverrideTable.corrected` sets differ in an entry. -/
structure OverrideTable.Makes (table : OverrideTable) (g g' : TypeGraph) : Prop where
  types : g'.types.entries = g.types.entries.map (table.corrected g.types.lookup)
  /-- The keys of the types and of their elements stay, in order. -/
  shape : g'.types.shape = g.types.shape
  operations : ∃ added, Aliased g.operations table.operationAliases.entries added g'.operations ∧
    g'.operations.entries = g.operations.entries ++ added ∧
    added.map (·.1) = table.operationAliases.keys.filter fun name => !g.operations.contains name
  elements : g'.elements = g.elements
  requestHeaders : g'.requestHeaders = g.requestHeaders
  responseHeaders : g'.responseHeaders = g.responseHeaders
  skippedHeaders : g'.skippedHeaders = g.skippedHeaders
  diagnostics : g'.diagnostics = g.diagnostics

section Targets

variable {g : TypeGraph} {table : OverrideTable}

theorem Registry.hasElement_iff_shape {r : Registry} {key element : String} :
    r.HasElement key element ↔ ∃ elements, (key, elements) ∈ r.shape ∧ element ∈ elements := by
  unfold HasElement find?
  cases h : r.lookup key with
  | none =>
    have unknown : ¬ ∃ elements, (key, elements) ∈ r.shape := by
      rw [← isSome_lookup_iff_shape, h]
      exact nofun
    constructor
    · rintro ⟨_, ⟨⟩, -⟩
    · rintro ⟨elements, known, -⟩
      exact (unknown ⟨elements, known⟩).elim
  | some id =>
    obtain ⟨t, ht, -⟩ := Option.map_eq_some_iff.1 (lookup_eq_some_iff.1 h)
    simp only [mem_shape_iff h, exists_eq_left, Option.bind_some, get, ht, Option.some.injEq,
      exists_eq_left', Option.getD_some]

theorem KindCorrection.item?_eq_some_iff {kind : KindCorrection} {item : String} :
    kind.item? = some item ↔ kind = .list item := by
  cases kind <;> simp [item?]

theorem OrderedMap.forall_mem_keys_iff {κ α : Type} {m : OrderedMap κ α} {P : κ → Prop} :
    (∀ k ∈ m.keys, P k) ↔ ∀ e ∈ m.entries, P e.1 := List.forall_mem_map

namespace OverrideTable

theorem forall_fits_kind_iff :
    (∀ c ∈ table.simpleKinds.entries.map fun (key, kind) => Correction.kind key kind, c.Fits g) ↔
      (∀ key ∈ table.simpleKinds.keys, (g.types.lookup key).isSome) ∧
        ∀ key item, table.simpleKinds.get? key = some (.list item) →
          (g.types.lookup item).isSome ∧ item ≠ key := by
  simp only [List.forall_mem_map, Correction.Fits, OrderedMap.forall_mem_keys_iff,
    Registry.isSome_lookup_iff_shape, KindCorrection.item?_eq_some_iff, ← OrderedMap.mem_entries_iff]
  constructor
  · intro h
    refine ⟨fun e listed => (h e listed).1, ?_⟩
    intro key item listed
    exact (h (key, .list item) listed).2 item rfl
  · rintro ⟨known, items⟩ ⟨key, kind⟩ listed
    refine ⟨known _ listed, ?_⟩
    rintro item rfl
    exact items key item listed

theorem forall_fits_iff_finds : (∀ c ∈ table.entryCorrections, c.Fits g) ↔ table.Finds g.types := by
  have named : (∀ c ∈ table.elementNames.flatMap fun c => Correction.target c.typeKey ::
        c.elements.map fun element => Correction.elementName c.typeKey element c.name, c.Fits g) ↔
      (∀ c ∈ table.elementNames, (g.types.lookup c.typeKey).isSome) ∧
        ∀ c ∈ table.elementNames, ∀ element ∈ c.elements, g.types.HasElement c.typeKey element := by
    simp only [List.forall_mem_flatMap, List.forall_mem_cons, List.forall_mem_map, imp_and,
      forall_and, Correction.Fits, Registry.isSome_lookup_iff_shape, Registry.hasElement_iff_shape]
  unfold entryCorrections
  simp only [List.forall_mem_append, named, forall_fits_kind_iff]
  simp only [List.forall_mem_map, Correction.Fits, byElement, ← Registry.isSome_lookup_iff_shape,
    ← Registry.hasElement_iff_shape]
  constructor
  · rintro ⟨⟨⟨⟨⟨⟨⟨h₁, h₂⟩, h₃⟩, h₄⟩, h₅, h₆⟩, h₇, h₈⟩, h₉⟩, h₁₀⟩
    exact ⟨OrderedMap.forall_mem_keys_iff.2 h₁, OrderedMap.forall_mem_keys_iff.2 h₂,
      OrderedMap.forall_mem_keys_iff.2 h₃, OrderedMap.forall_mem_keys_iff.2 h₄, h₅, h₆, h₇, h₈, h₉, h₁₀⟩
  · rintro ⟨h₁, h₂, h₃, h₄, h₅, h₆, h₇, h₈, h₉, h₁₀⟩
    exact ⟨⟨⟨⟨⟨⟨⟨OrderedMap.forall_mem_keys_iff.1 h₁, OrderedMap.forall_mem_keys_iff.1 h₂⟩,
      OrderedMap.forall_mem_keys_iff.1 h₃⟩, OrderedMap.forall_mem_keys_iff.1 h₄⟩, h₅, h₆⟩, h₇, h₈⟩, h₉⟩, h₁₀⟩

end OverrideTable

end Targets

section Aliases

variable {g g' : TypeGraph} {operations operations' : OrderedMap String Operation} {l : List (String × String)}
  {added : List (String × Operation)}

theorem Correction.corrects_operationAlias_iff {name target : String} :
    (Correction.operationAlias name target).Corrects g g' ↔
      ∃ op, g.operations.get? target = some op ∧
        (g.operations.get? name = none ∧ g' = { g with operations := g.operations.insert name op } ∨
          g.operations.get? name = some op ∧ g' = g) := by
  unfold Corrects
  rw [effect_eq _ fun _ _ => rfl]
  simp only [Fits, onOperations]
  constructor
  · rintro ⟨⟨op, found, existing⟩, rfl⟩
    refine ⟨op, found, ?_⟩
    cases taken : g.operations.get? name with
    | none => exact .inl ⟨rfl, by rw [found]⟩
    | some op' => exact .inr ⟨congrArg some (existing op' taken), rfl⟩
  · rintro ⟨op, found, ⟨free, rfl⟩ | ⟨taken, rfl⟩⟩
    · exact ⟨⟨op, found, fun _ h => by cases free.symm.trans h⟩, by rw [free, found]⟩
    · exact ⟨⟨op, found, fun _ h => Option.some.inj (h.symm.trans taken)⟩, by rw [taken]⟩

theorem through_aliases_iff :
    Through Correction.Corrects (l.map fun (name, target) => .operationAlias name target) g g' ↔
      ∃ added operations, Aliased g.operations l added operations ∧ g' = { g with operations } := by
  induction l generalizing g with
  | nil =>
    rw [List.map_nil, Through.nil_iff]
    constructor
    · rintro rfl
      exact ⟨[], _, .done _, rfl⟩
    · rintro ⟨_, _, ⟨⟩, rfl⟩
      rfl
  | cons p l ih =>
    obtain ⟨name, target⟩ := p
    simp only [List.map_cons, Through.cons_iff, ih, Correction.corrects_operationAlias_iff]
    constructor
    · rintro ⟨_, ⟨op, found, ⟨free, rfl⟩ | ⟨taken, rfl⟩⟩, added, operations, rest, rfl⟩
      · exact ⟨(name, op) :: added, operations, .new found free rest, rfl⟩
      · exact ⟨added, operations, .bound found taken rest, rfl⟩
    · rintro ⟨_, operations, _ | ⟨found, free, rest⟩ | ⟨found, taken, rest⟩, rfl⟩
      · exact ⟨_, ⟨_, found, .inl ⟨free, rfl⟩⟩, _, operations, rest, rfl⟩
      · exact ⟨_, ⟨_, found, .inr ⟨taken, rfl⟩⟩, _, operations, rest, rfl⟩

theorem Aliased.entries (h : Aliased operations l added operations') :
    operations'.entries = operations.entries ++ added := by
  induction h with
  | done => exact (List.append_nil _).symm
  | @new operations _ name _ _ _ _ _ free _ ih =>
    have absent : operations.contains name = false := by
      rw [OrderedMap.contains, free]
      rfl
    rw [ih, OrderedMap.entries_insert absent, List.append_assoc, List.singleton_append]
  | bound _ _ _ ih => exact ih

theorem Aliased.names (h : Aliased operations l added operations') (distinct : (l.map (·.1)).Nodup) :
    added.map (·.1) = (l.map (·.1)).filter fun name => !operations.contains name := by
  induction h with
  | done => rfl
  | @new operations _ name _ op rest _ _ free _ ih =>
    obtain ⟨fresh, distinct⟩ := List.nodup_cons.1 distinct
    have same : ∀ other ∈ rest.map (·.1),
        (!(operations.insert name op).contains other) = !operations.contains other := by
      intro other listed
      have differs : other ≠ name := by
        rintro rfl
        exact fresh listed
      rw [OrderedMap.contains, OrderedMap.get?_insert, if_neg differs, OrderedMap.contains]
    rw [List.map_cons, ih distinct, List.filter_congr same, List.map_cons, List.filter_cons_of_pos]
    rw [OrderedMap.contains, free]
    rfl
  | bound _ taken _ ih =>
    rw [ih (List.nodup_cons.1 distinct).2, List.map_cons, List.filter_cons_of_neg]
    rw [OrderedMap.contains, taken]
    exact Bool.false_ne_true

end Aliases

theorem yields_correct_iff {table : OverrideTable} {g g' : TypeGraph} :
    Yields (correct table) g () g' ↔ table.Finds g.types ∧
      ∃ added operations, Aliased g.operations table.operationAliases.entries added operations ∧
        g' = { g with
          types := g.types.mapEntries (table.corrected g.types.lookup) (table.key_corrected _)
          operations } := by
  rw [correct, table.corrections_eq, yields_forM_apply_iff, Through.append_iff]
  simp only [OverrideTable.through_entryCorrections_iff, through_aliases_iff,
    OverrideTable.forall_fits_iff_finds]
  constructor
  · rintro ⟨_, ⟨finds, rfl⟩, added, operations, aliased, rfl⟩
    exact ⟨finds, added, operations, aliased, rfl⟩
  · rintro ⟨finds, added, operations, aliased, rfl⟩
    exact ⟨_, ⟨finds, rfl⟩, added, operations, aliased, rfl⟩

/-- A table applies to a graph exactly if its corrections find their targets and its aliases can be bound in
order.  Then every field that corrections name has the value of the last of them, the new aliases follow the
operations, and nothing else changes. -/
theorem correct_exactly (table : OverrideTable) (g : TypeGraph) :
    ((∃ g', Yields (correct table) g () g') ↔
      table.Finds g.types ∧
        ∃ added operations, Aliased g.operations table.operationAliases.entries added operations) ∧
    ∀ g', Yields (correct table) g () g' → table.Makes g g' := by
  simp only [yields_correct_iff]
  refine ⟨⟨?_, ?_⟩, ?_⟩
  · rintro ⟨g', finds, added, operations, aliased, -⟩
    exact ⟨finds, added, operations, aliased⟩
  · rintro ⟨finds, added, operations, aliased⟩
    exact ⟨_, finds, added, operations, aliased, rfl⟩
  · rintro _ ⟨-, added, operations, aliased, rfl⟩
    exact ⟨rfl, g.types.shape_mapEntries (table.key_corrected _) (table.keys_corrected _),
      ⟨added, aliased, aliased.entries, aliased.names table.operationAliases.nodup⟩, rfl, rfl, rfl, rfl, rfl⟩

theorem shop_made : ∃ g, Yields (correct shopTable) shop () g ∧ shopTable.Makes shop g := by
  have run : ((result (correct shopTable) shop).toOption.any fun _ => true) = true := by decide +kernel
  obtain ⟨g, corrected, -⟩ := exists_eq_ok_of_any run
  have first := result_eq_ok_iff.1 corrected
  exact ⟨g, first, (correct_exactly shopTable shop).2 g first⟩

end SchemaGraph
