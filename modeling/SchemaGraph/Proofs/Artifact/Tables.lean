import Mathlib.Data.List.Nodup
import SchemaGraph.Proofs.Artifact.Bisection
import SchemaGraph.Proofs.Outcome
import SchemaGraph.Artifact.Basic

/-! What the tables of a graph hold, in which order, and what a search by name finds in them.  Names of types can
repeat, so that their table only ascends weakly and the search finds one of them; operations and the attributes of a
type come from maps, and their tables ascend strictly. -/
namespace SchemaGraph

theorem pairwise_lt_mergeSort_key {α : Type} (key : α → String) {l : List α} (distinct : (l.map key).Nodup) :
    (l.mergeSort fun a b => decide (key a ≤ key b)).Pairwise fun a b => key a < key b := by
  have apart : (l.mergeSort fun a b => decide (key a ≤ key b)).Pairwise fun a b => key a ≠ key b := by
    rw [← List.pairwise_map]
    exact ((List.mergeSort_perm l _).map key).nodup_iff.2 distinct
  exact ((pairwise_mergeSort_key key l).and apart).imp fun h => lt_of_le_of_ne h.1 h.2

theorem exists_of_forall₂ {α β : Type} {R : α → β → Prop} {l : List α} {l' : List β} (h : List.Forall₂ R l l') {a : α}
    (ha : a ∈ l) : ∃ b ∈ l', R a b := by
  induction h with
  | nil => cases ha
  | cons first _ ih =>
    rcases List.mem_cons.1 ha with rfl | later
    · exact ⟨_, List.mem_cons_self .., first⟩
    · obtain ⟨b, hb, related⟩ := ih later
      exact ⟨b, List.mem_cons_of_mem _ hb, related⟩

theorem map_eq_of_forall₂ {α β γ : Type} {R : α → β → Prop} {f : α → γ} {g : β → γ} {l : List α} {l' : List β}
    (h : List.Forall₂ R l l') (same : ∀ a b, R a b → g b = f a) : l'.map g = l.map f := by
  induction h with
  | nil => rfl
  | cons first _ ih => rw [List.map_cons, List.map_cons, same _ _ first, ih]

namespace Artifact

def operation? (a : Artifact) (name : String) : Option OperationRow :=
  bisect? (fun o => compare o.name name) a.operations.toArray

variable (options : ArtifactOptions) (g : TypeGraph)

structure ShowsElement (e : String × ElementDescriptor) (row : Element) : Prop where
  declared : ∀ name, e.2.sourceName = some name → row.xmlName = options.labels.shorten name
  keyed : e.2.sourceName = none → row.xmlName = options.labels.shorten (QName.ofClark e.1)
  jsonName : row.jsonName = e.2.serializedName
  typeName : row.typeName = options.labels.shorten (g.types.get e.2.typeId).name
  isList : row.isList = e.2.isList
  jsonHint : row.jsonHint = e.2.formatHint
  jsonDefault : row.jsonDefault = e.2.defaultValue

structure ShowsAttribute (e : String × Option TypeId) (row : Attribute) : Prop where
  name : row.name = e.1
  typeName : row.typeName = e.2.map fun id => options.labels.shorten (g.types.get id).name

structure ShowsType (t : TypeEntry) (row : TypeRow) : Prop where
  name : row.name = options.labels.shorten t.name
  jsonType : row.jsonType = t.serializedType options.suffix
  elements : List.Forall₂ (ShowsElement options g) t.elements.entries row.elements
  attributes : ∃ rows, List.Forall₂ (ShowsAttribute options g) t.attributes.entries rows ∧ row.attributes.Perm rows
  ascending : row.attributes.Pairwise fun x y => x.name < y.name
  extraProperties : row.extraProperties = t.extraProperties
  isList : row.isList = t.isList
  isAbstract : row.isAbstract = t.isAbstract
  simpleKind : row.simpleKind = t.simpleKind
  anyAttribute : row.anyAttribute = t.anyAttribute
  textAttribute : row.textAttribute = t.textAttribute
  listName : row.listName = t.listName
  enumValues : row.enumValues = t.enumValues
  listItemType : row.listItemType = t.listItem.map fun id => options.labels.shorten (g.types.get id).name

structure ShowsOperation (e : String × Operation) (row : OperationRow) : Prop where
  name : row.name = e.1
  action : row.action = e.2.action
  bodyType : row.bodyType = e.2.action ++ "Request" ++ options.suffix
  requestType : row.requestType = e.2.action ++ "JsonRequest" ++ options.suffix
  request : ∃ d, g.elements.get? e.2.input.clark = some d ∧
    row.request = options.labels.shorten (g.types.get d.typeId).name
  responseElement : row.responseElement = options.labels.shorten e.2.output
  responseName : row.responseName = e.2.output.localName
  response : ∃ d, g.elements.get? e.2.output.clark = some d ∧
    row.response = options.labels.shorten (g.types.get d.typeId).name

/-- The tables of a graph: every type and every operation has one row, the rows ascend by name, and a search for a
name finds a row just if there is one. -/
structure Tabulates (a : Artifact) : Prop where
  types : ∃ rows, List.Forall₂ (ShowsType options g) g.types.entries rows ∧ a.types.Perm rows
  types_ascending : a.types.Pairwise fun t u => t.name ≤ u.name
  operations : ∃ rows, List.Forall₂ (ShowsOperation options g) g.operations.entries rows ∧ a.operations.Perm rows
  operations_ascending : a.operations.Pairwise fun o p => o.name < p.name
  requestHeaders : a.requestHeaders = g.requestHeaders.map fun id => options.labels.shorten (g.types.get id).name
  responseHeaders : a.responseHeaders = g.responseHeaders.map fun id => options.labels.shorten (g.types.get id).name
  diagnostics : a.diagnostics = g.diagnostics
  type_found : ∀ name, (∃ t ∈ g.types.entries, options.labels.shorten t.name = name) →
    ∃ t ∈ g.types.entries, ∃ row ∈ a.types, a.type? name = some row ∧ row.name = name ∧ ShowsType options g t row
  type_missing : ∀ name, (∀ t ∈ g.types.entries, options.labels.shorten t.name ≠ name) → a.type? name = none
  operation_found : ∀ name op, g.operations.get? name = some op →
    ∃ row ∈ a.operations, a.operation? name = some row ∧ ShowsOperation options g (name, op) row
  operation_missing : ∀ name, g.operations.get? name = none → a.operation? name = none

variable {options g}

theorem showsElement_element (e : String × ElementDescriptor) : ShowsElement options g e (element options g e) where
  declared name source := by rw [element, source, Option.getD_some]
  keyed source := by rw [element, source, Option.getD_none]
  jsonName := rfl
  typeName := rfl
  isList := rfl
  jsonHint := rfl
  jsonDefault := rfl

theorem showsType_typeRow (t : TypeEntry) : ShowsType options g t (typeRow options g t) where
  name := rfl
  jsonType := rfl
  elements := List.forall₂_map_right_iff.2 (List.forall₂_same.2 fun e _ => showsElement_element e)
  attributes :=
    ⟨_, List.forall₂_map_right_iff.2 (List.forall₂_same.2 fun _ _ => ⟨rfl, rfl⟩), List.mergeSort_perm _ _⟩
  ascending := by
    apply pairwise_lt_mergeSort_key Attribute.name
    rw [List.map_map]
    exact t.attributes.nodup
  extraProperties := rfl
  isList := rfl
  isAbstract := rfl
  simpleKind := rfl
  anyAttribute := rfl
  textAttribute := rfl
  listName := rfl
  enumValues := rfl
  listItemType := rfl

theorem elementType_eq_ok_iff {operation type : String} {name : QName} :
    elementType options g operation name = .ok type ↔
      ∃ d, g.elements.get? name.clark = some d ∧ type = typeName options g d.typeId := by
  unfold elementType
  cases g.elements.get? name.clark with
  | none => simp
  | some d => simp [eq_comm]

theorem exists_operationRow_iff {name : String} {op : Operation} :
    (∃ row, operationRow options g (name, op) = .ok row) ↔
      g.elements.contains op.input.clark = true ∧ g.elements.contains op.output.clark = true := by
  simp only [operationRow, bind_eq_ok_iff, elementType_eq_ok_iff, OrderedMap.contains, Option.isSome_iff_exists]
  constructor
  · rintro ⟨row, request, ⟨d, input, -⟩, response, ⟨d', output, -⟩, -⟩
    exact ⟨⟨d, input⟩, ⟨d', output⟩⟩
  · rintro ⟨⟨d, input⟩, ⟨d', output⟩⟩
    exact ⟨_, _, ⟨d, input, rfl⟩, _, ⟨d', output, rfl⟩, rfl⟩

theorem showsOperation_of_operationRow {e : String × Operation} {row : OperationRow}
    (h : operationRow options g e = .ok row) : ShowsOperation options g e row := by
  simp only [operationRow, bind_eq_ok_iff, elementType_eq_ok_iff] at h
  obtain ⟨_, ⟨d, input, rfl⟩, _, ⟨d', output, rfl⟩, h⟩ := h
  cases h
  exact ⟨rfl, rfl, rfl, rfl, ⟨d, input, rfl⟩, rfl, rfl, ⟨d', output, rfl⟩⟩

theorem exists_ofGraph_iff :
    (∃ a, ofGraph options g = .ok a) ↔ ∀ name op, g.operations.get? name = some op →
      g.elements.contains op.input.clark = true ∧ g.elements.contains op.output.clark = true := by
  unfold ofGraph
  simp only [bind_eq_ok_iff, mapM_eq_ok_iff]
  constructor
  · rintro ⟨a, rows, each, -⟩ name op bound
    rw [← OrderedMap.mem_entries_iff] at bound
    obtain ⟨row, -, ok⟩ := exists_of_forall₂ each bound
    exact exists_operationRow_iff.1 ⟨row, ok⟩
  · intro global
    obtain ⟨rows, each⟩ := exists_mapM_eq_ok (f := operationRow options g) (l := g.operations.entries)
      fun e here => exists_operationRow_iff.2 (global e.1 e.2 ((OrderedMap.mem_entries_iff _ _ _).1 here))
    exact ⟨_, rows, mapM_eq_ok_iff.1 each, rfl⟩

theorem bisect?_mergeSort_of_nodup {α : Type} (key : α → String) {l : List α} (distinct : (l.map key).Nodup) {a : α}
    (here : a ∈ l) :
    bisect? (fun b => compare (key b) (key a)) (l.mergeSort fun b c => decide (key b ≤ key c)).toArray = some a := by
  obtain ⟨sound, complete⟩ := bisect?_mergeSort key l (key a)
  cases found : bisect? (fun b => compare (key b) (key a)) (l.mergeSort fun b c => decide (key b ≤ key c)).toArray with
  | none => exact absurd rfl (complete found a here)
  | some b =>
    obtain ⟨also, same⟩ := sound b found
    rw [List.inj_on_of_nodup_map distinct also here same]

theorem tabulates_ofGraph {a : Artifact} (h : ofGraph options g = .ok a) : Tabulates options g a := by
  unfold ofGraph at h
  obtain ⟨rows, each, h⟩ := bind_eq_ok_iff.1 h
  cases h
  have related : List.Forall₂ (ShowsOperation options g) g.operations.entries rows :=
    (mapM_eq_ok_iff.1 each).imp fun _ _ => showsOperation_of_operationRow
  have names : rows.map (·.name) = g.operations.keys := map_eq_of_forall₂ related fun _ _ shows => shows.name
  have distinct : (rows.map (·.name)).Nodup := names ▸ g.operations.nodup
  have typeSearch := bisect?_mergeSort TypeRow.name (g.types.entries.map (typeRow options g))
  have operationSearch := bisect?_mergeSort OperationRow.name rows
  constructor
  case types =>
    exact ⟨_, List.forall₂_map_right_iff.2 (List.forall₂_same.2 fun t _ => showsType_typeRow t),
      List.mergeSort_perm _ _⟩
  case types_ascending => exact pairwise_mergeSort_key TypeRow.name _
  case operations => exact ⟨rows, related, List.mergeSort_perm _ _⟩
  case operations_ascending => exact pairwise_lt_mergeSort_key OperationRow.name distinct
  case requestHeaders => rfl
  case responseHeaders => rfl
  case diagnostics => rfl
  case type_found =>
    rintro name ⟨t, here, emitted⟩
    -- Other types can have the name too: the row that is found need not be the one of `t`.
    obtain ⟨sound, complete⟩ := typeSearch name
    cases found : bisect? (fun t : TypeRow => compare t.name name)
        ((g.types.entries.map (typeRow options g)).mergeSort fun t u => decide (t.name ≤ u.name)).toArray with
    | none => exact absurd emitted (complete found _ (List.mem_map_of_mem here))
    | some row =>
      obtain ⟨also, same⟩ := sound row found
      obtain ⟨t', here', rfl⟩ := List.mem_map.1 also
      exact ⟨t', here', _, List.mem_mergeSort.2 also, found, same, showsType_typeRow t'⟩
  case type_missing =>
    intro name absent
    rw [Option.eq_none_iff_forall_ne_some]
    intro row found
    obtain ⟨also, same⟩ := (typeSearch name).1 row found
    obtain ⟨t, here, rfl⟩ := List.mem_map.1 also
    exact absent t here same
  case operation_found =>
    intro name op bound
    obtain ⟨row, here, shows⟩ := exists_of_forall₂ related ((OrderedMap.mem_entries_iff _ _ _).2 bound)
    obtain rfl : row.name = name := shows.name
    exact ⟨row, List.mem_mergeSort.2 here, bisect?_mergeSort_of_nodup OperationRow.name distinct here, shows⟩
  case operation_missing =>
    intro name unbound
    rw [Option.eq_none_iff_forall_ne_some]
    intro row found
    obtain ⟨also, same⟩ := (operationSearch name).1 row found
    have key : name ∈ g.operations.keys := names ▸ same ▸ List.mem_map_of_mem also
    rw [OrderedMap.mem_keys_iff, OrderedMap.contains, unbound] at key
    cases key

/-- A graph has tables just if all elements of its operations are global ones.  Its tables are complete and in order,
and can be searched by name. -/
theorem tabulates_of_ofGraph (options : ArtifactOptions) (g : TypeGraph) :
    ((∃ a, ofGraph options g = .ok a) ↔ ∀ name op, g.operations.get? name = some op →
      g.elements.contains op.input.clark = true ∧ g.elements.contains op.output.clark = true) ∧
    ∀ a, ofGraph options g = .ok a → Tabulates options g a :=
  ⟨exists_ofGraph_iff, fun _ => tabulates_ofGraph⟩

def kai : TypeEntry where
  name := ⟨none, "Kai"⟩
  elements := .ofList
    [("{urn:q}poller", { typeId := ⟨0⟩, isList := true }),
      ("{urn:p}Kran", { typeId := ⟨1⟩, isList := false, sourceName := some ⟨some "urn:q", "hook"⟩ })]
  attributes := .ofList [("tons", none), ("lift", some ⟨1⟩)]

/-- A graph with two types that are emitted under one name, and with operations and attributes out of order. -/
def quay : TypeGraph :=
  { TypeGraph.empty with
    types := .ofEntries
      [{ name := ⟨some "urn:q", "Kran"⟩ }, { name := ⟨some "urn:p", "Kran"⟩, simpleKind := some .string },
        { name := ⟨none, "Übergabe"⟩ }, kai] (by decide)
    elements := .ofList [("kran", { typeId := ⟨0⟩, isList := false }), ("kai", { typeId := ⟨3⟩, isList := false })]
    operations := .ofList
      [("Move", ⟨"Move", ⟨none, "kran"⟩, ⟨none, "kai"⟩, [], []⟩),
        ("Hoist", ⟨"Lift", ⟨none, "kai"⟩, ⟨none, "kran"⟩, [], []⟩)] }

def quayOptions : ArtifactOptions := { labels := .ofList [("t", "urn:q"), ("t", "urn:p")] }

theorem quay_tabulated :
    ∃ a, ofGraph quayOptions quay = .ok a ∧ Tabulates quayOptions quay a ∧
      a.types.map (·.name) = ["Kai", "t:Kran", "t:Kran", "Übergabe"] ∧
      (∃ row ∈ a.types, a.type? "t:Kran" = some row ∧ row.name = "t:Kran") ∧
      (∃ row, a.type? "Kai" = some row ∧ row.elements.map (·.xmlName) = ["t:poller", "t:hook"] ∧
        row.attributes.map (·.name) = ["lift", "tons"]) ∧
      (∃ row, a.operation? "Hoist" = some row ∧ row.action = "Lift" ∧ row.request = "Kai") ∧
      a.type? "Kran" = none ∧ a.operation? "Lift" = none := by
  obtain ⟨tabulated, tabulates⟩ := tabulates_of_ofGraph quayOptions quay
  have global : ∀ e ∈ quay.operations.entries,
      quay.elements.contains e.2.input.clark = true ∧ quay.elements.contains e.2.output.clark = true := by decide
  obtain ⟨a, built⟩ := tabulated.2 fun name op bound => global (name, op) ((OrderedMap.mem_entries_iff _ _ _).2 bound)
  have tables := tabulates a built
  have names : a.types.map (·.name) = ["Kai", "t:Kran", "t:Kran", "Übergabe"] := by
    obtain ⟨rows, shown, permuted⟩ := tables.types
    have emitted := map_eq_of_forall₂ (g := TypeRow.name) shown fun _ _ shows => shows.name
    -- The order leaves a table of the four names no choice.
    have four : (a.types.map (·.name)).Perm ["Kai", "t:Kran", "t:Kran", "Übergabe"] :=
      (permuted.map (·.name)).trans (emitted ▸ by decide)
    refine four.eq_of_pairwise (fun x y _ _ => le_antisymm) ?_ (by decide)
    exact List.pairwise_map.2 tables.types_ascending
  obtain ⟨-, -, kran, listed, found, name, -⟩ := tables.type_found "t:Kran" ⟨_, List.mem_cons_self .., rfl⟩
  have shown : ∃ row, a.type? "Kai" = some row ∧ row.elements.map (·.xmlName) = ["t:poller", "t:hook"] ∧
      row.attributes.map (·.name) = ["lift", "tons"] := by
    obtain ⟨t, here, row, -, found, name, shows⟩ :=
      tables.type_found "Kai" ⟨kai, List.mem_of_getElem? (i := 3) rfl, rfl⟩
    have own : quayOptions.labels.shorten t.name = "Kai" := shows.name.symm.trans name
    simp only [quay, Registry.ofEntries, List.mem_cons, List.not_mem_nil, or_false] at here
    rcases here with rfl | rfl | rfl | rfl
    · exact absurd own (by decide)
    · exact absurd own (by decide)
    · exact absurd own (by decide)
    refine ⟨row, found, ?_, ?_⟩
    · obtain ⟨poller, _, first, rest, elements⟩ := List.forall₂_cons_left_iff.1 shows.elements
      obtain ⟨hook, _, second, last, rfl⟩ := List.forall₂_cons_left_iff.1 rest
      obtain rfl := List.forall₂_nil_left_iff.1 last
      rw [elements, List.map_cons, List.map_cons, first.keyed rfl, second.declared _ rfl]
      decide
    · obtain ⟨rows, attributes, permuted⟩ := shows.attributes
      have tags := map_eq_of_forall₂ (g := Attribute.name) attributes fun _ _ shows => shows.name
      have two : (row.attributes.map (·.name)).Perm ["lift", "tons"] :=
        (permuted.map (·.name)).trans (tags ▸ by decide)
      refine two.eq_of_pairwise (fun x y _ _ => le_antisymm) ?_ (by decide)
      exact (List.pairwise_map.2 shows.ascending).imp le_of_lt
  obtain ⟨hoist, -, search, operation⟩ :=
    tables.operation_found "Hoist" ⟨"Lift", ⟨none, "kai"⟩, ⟨none, "kran"⟩, [], []⟩ rfl
  obtain ⟨d, input, request⟩ := operation.request
  cases input
  exact ⟨a, built, tables, names, ⟨kran, listed, found, name⟩, shown, ⟨hoist, search, operation.action, request⟩,
    tables.type_missing "Kran" (by decide), tables.operation_missing "Lift" rfl⟩

end Artifact

end SchemaGraph
