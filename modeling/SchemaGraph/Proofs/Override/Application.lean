import SchemaGraph.Proofs.Outcome
import SchemaGraph.Proofs.Override.Corrected

/-! What one correction makes of a graph.  Whether it finds its target depends on the keys of the types and
of their elements, which corrections keep, and for an alias on the operations. -/
namespace SchemaGraph

open Stateful TypeGraph

namespace Registry

variable {r : Registry}

theorem index_congr {r r' : Registry} (h : r.entries.map TypeEntry.key = r'.entries.map TypeEntry.key) :
    r.index = r'.index :=
  OrderedMap.ext (by rw [r.indexed, r'.indexed, h])

@[ext] theorem ext {r r' : Registry} (h : r.entries = r'.entries) : r = r' := by
  have index := index_congr (congrArg (List.map TypeEntry.key) h)
  cases r
  cases r'
  cases h
  cases index
  rfl

def mapEntries (r : Registry) (f : TypeEntry → TypeEntry) (keeps : ∀ t, (f t).key = t.key) : Registry :=
  ⟨r.entries.map f, r.index, by
    rw [List.map_map, show TypeEntry.key ∘ f = TypeEntry.key from funext keeps, r.indexed]⟩

theorem mapEntries_self {f : TypeEntry → TypeEntry} (keeps : ∀ t, (f t).key = t.key)
    (h : ∀ t, f t = t) : r.mapEntries f keeps = r := by
  obtain rfl : f = id := funext h
  exact ext (List.map_id _)

theorem modify_eq_mapEntries {key : String} {id : TypeId} (h : r.lookup key = some id)
    (f : TypeEntry → TypeEntry) (keeps : ∀ t, (f t).key = t.key) :
    r.modify id f keeps = r.mapEntries (fun t => if key = t.key then f t else t) (by
      intro t
      split
      · exact keeps t
      · rfl) := by
  ext1
  apply List.ext_getElem?
  intro i
  simp only [modify, mapEntries, List.getElem?_modify, List.getElem?_map]
  cases hi : r.entries[i]? with
  | none => rfl
  | some t =>
    -- The entry has the key exactly if it is the one that the key leads to.
    have found : key = t.key ↔ id.index = i := by
      constructor
      · intro hk
        have here : r.lookup key = some ⟨i⟩ := by
          rw [lookup_eq_some_iff, get?, hi, hk]
          rfl
        exact congrArg TypeId.index (Option.some.inj (h.symm.trans here))
      · rintro rfl
        rw [lookup_eq_some_iff, get?, hi] at h
        exact (Option.some.inj h).symm
    simp only [Option.map_eq_map, Option.map_some, found]

def shape (r : Registry) : List (String × List String) := r.entries.map fun t => (t.key, t.elements.keys)

theorem isSome_lookup_iff_shape {key : String} :
    (r.lookup key).isSome = true ↔ ∃ elements, (key, elements) ∈ r.shape := by
  rw [isSome_lookup_iff, shape]
  simp only [List.mem_map, Prod.mk.injEq]
  constructor
  · rintro ⟨t, ht, rfl⟩
    exact ⟨_, t, ht, rfl, rfl⟩
  · rintro ⟨_, t, ht, hk, -⟩
    exact ⟨t, ht, hk⟩

theorem mem_shape_iff {key : String} {elements : List String} {id : TypeId} (h : r.lookup key = some id) :
    (key, elements) ∈ r.shape ↔ elements = (r.get id).elements.keys := by
  obtain ⟨t, ht, rfl⟩ := Option.map_eq_some_iff.1 (lookup_eq_some_iff.1 h)
  rw [get, ht, shape]
  simp only [List.mem_map, Prod.mk.injEq]
  constructor
  · rintro ⟨t', ht', hk, rfl⟩
    obtain ⟨i, hi⟩ := List.mem_iff_getElem?.1 ht'
    have here : r.lookup t.key = some ⟨i⟩ := by
      rw [lookup_eq_some_iff, get?, hi, ← hk]
      rfl
    obtain rfl := Option.some.inj (h.symm.trans here)
    rw [get?, hi] at ht
    rw [Option.some.inj ht]
    rfl
  · rintro rfl
    exact ⟨t, List.mem_of_getElem? ht, rfl, rfl⟩

theorem lookup_congr {r' : Registry} (h : r'.shape = r.shape) : r'.lookup = r.lookup := by
  have keys := congrArg (List.map Prod.fst) h
  rw [shape, shape, List.map_map, List.map_map] at keys
  funext key
  rw [lookup, lookup, index_congr keys]

end Registry

namespace Correction

theorem key_onEntry (place : String → Option TypeId) (t : TypeEntry) (c : Correction) :
    (c.onEntry place t).key = t.key := by
  cases c with
  | target _ | operationAlias _ _ => rfl
  | _ =>
    simp only [onEntry]
    split <;> rfl

theorem keys_onEntry (place : String → Option TypeId) (t : TypeEntry) (c : Correction) :
    (c.onEntry place t).elements.keys = t.elements.keys := by
  cases c with
  | target _ | operationAlias _ _ => rfl
  | _ =>
    simp only [onEntry]
    split <;> simp

def Fits (g : TypeGraph) : Correction → Prop
  | .typeName key _ | .listName key _ | .extraProperties key _ | .textAttribute key _ | .target key =>
    ∃ elements, (key, elements) ∈ g.types.shape
  | .kind key k =>
    (∃ elements, (key, elements) ∈ g.types.shape) ∧
      ∀ item, k.item? = some item → (∃ elements, (item, elements) ∈ g.types.shape) ∧ item ≠ key
  | .elementName key element _ | .elementHint key element _ | .elementDefault key element _ =>
    ∃ elements, (key, elements) ∈ g.types.shape ∧ element ∈ elements
  | .operationAlias added name =>
    ∃ op, g.operations.get? name = some op ∧
      ∀ existing, g.operations.get? added = some existing → existing = op

def onOperations (operations : OrderedMap String Operation) : Correction → OrderedMap String Operation
  | .operationAlias added name =>
    match operations.get? added, operations.get? name with
    | none, some op => operations.insert added op
    | _, _ => operations
  | _ => operations

/-- What a correction makes of a graph that it fits. -/
def effect (c : Correction) (g : TypeGraph) : TypeGraph :=
  { g with
    types := g.types.mapEntries (c.onEntry g.types.lookup) fun t => c.key_onEntry _ t
    operations := c.onOperations g.operations }

theorem effect_eq (c : Correction) (h : ∀ place t, c.onEntry place t = t) (g : TypeGraph) :
    c.effect g = { g with operations := c.onOperations g.operations } := by
  rw [effect, Registry.mapEntries_self _ fun t => h _ t]

end Correction

section Step

variable {g : TypeGraph}

theorem correctedType_finds (g : TypeGraph) (key : String) :
    Ends (correctedType key) g
      (fun id g' => (g.types.lookup key = some id ∧ ∃ elements, (key, elements) ∈ g.types.shape) ∧ g' = g)
      fun _ g' => (¬ ∃ elements, (key, elements) ∈ g.types.shape) ∧ g' = g := by
  unfold correctedType
  rw [← Registry.isSome_lookup_iff_shape, ends_bind, ends_get]
  cases g.types.lookup key with
  | none => exact ⟨nofun, rfl⟩
  | some id => exact ⟨⟨rfl, rfl⟩, rfl⟩

theorem correctType_ends (g : TypeGraph) (key : String) (f : TypeEntry → TypeEntry)
    (keeps : ∀ t, (f t).key = t.key) :
    Ends (correctType key f keeps) g
      (fun _ g' => (∃ elements, (key, elements) ∈ g.types.shape) ∧ ∃ keeps,
        g' = { g with types := g.types.mapEntries (fun t => if key = t.key then f t else t) keeps })
      fun _ g' => (¬ ∃ elements, (key, elements) ∈ g.types.shape) ∧ g' = g := by
  unfold correctType
  rw [ends_bind]
  refine (correctedType_finds g key).mono ?_ fun _ _ => id
  rintro id g ⟨⟨h, known⟩, rfl⟩
  exact ⟨known, _, congrArg (fun types => { g with types }) (Registry.modify_eq_mapEntries h f keeps)⟩

theorem correctElement_ends (g : TypeGraph) (key element : String)
    (f : ElementDescriptor → ElementDescriptor) :
    Ends (correctElement key element f) g
      (fun _ g' => (∃ elements, (key, elements) ∈ g.types.shape ∧ element ∈ elements) ∧ ∃ keeps,
        g' = { g with
          types := g.types.mapEntries (fun t =>
            if key = t.key then { t with elements := t.elements.modify element f } else t) keeps })
      fun _ g' =>
        (¬ ∃ elements, (key, elements) ∈ g.types.shape ∧ element ∈ elements) ∧ g' = g := by
  unfold correctElement
  rw [ends_bind]
  refine (correctedType_finds g key).mono ?_ ?_
  · rintro id g ⟨⟨h, -⟩, rfl⟩
    rw [ends_bind, ends_get]
    simp only [Registry.mem_shape_iff h, exists_eq_left, OrderedMap.mem_keys_iff]
    split
    · next present =>
      exact ⟨present, _,
        congrArg (fun types => { g with types }) (Registry.modify_eq_mapEntries h _ _)⟩
    · next absent => exact ⟨absent, rfl⟩
  · rintro _ _ ⟨unknown, rfl⟩
    refine ⟨?_, rfl⟩
    rintro ⟨elements, known, -⟩
    exact unknown ⟨elements, known⟩

theorem correctKind_ends (g : TypeGraph) (key : String) (k : KindCorrection) :
    Ends (correctKind key k) g
      (fun _ g' => Correction.Fits g (.kind key k) ∧ ∃ keeps,
        g' = { g with
          types := g.types.mapEntries (fun t =>
            if key = t.key then
              { t with simpleKind := some k.kind, listItem := k.item?.bind g.types.lookup }
            else t) keeps })
      fun _ g' => ¬ Correction.Fits g (.kind key k) ∧ g' = g := by
  unfold correctKind Correction.Fits
  rw [ends_bind]
  refine (correctedType_finds g key).mono ?_ fun _ _ h => ⟨fun fits => h.1 fits.1, h.2⟩
  rintro id g ⟨⟨h, known⟩, rfl⟩
  have change := fun f keeps =>
    congrArg (fun types => { g with types }) (Registry.modify_eq_mapEntries h f keeps)
  rw [ends_bind]
  cases k with
  | list item =>
    unfold correctedKind
    rw [ends_bind]
    refine (correctedType_finds g item).mono ?_ ?_
    · rintro itemId g ⟨⟨hitem, knownItem⟩, rfl⟩
      -- Two keys lead to one place only if they are the same key.
      have own : itemId = id ↔ item = key := by
        constructor
        · rintro rfl
          rw [Registry.lookup_eq_some_iff] at h hitem
          exact Option.some.inj (hitem.symm.trans h)
        · rintro rfl
          exact Option.some.inj (hitem.symm.trans h)
      split
      · next same =>
        refine ⟨fun fits => ?_, rfl⟩
        exact (fits.2 item rfl).2 (own.1 same)
      · next other =>
        refine ⟨⟨known, ?_⟩, ?_⟩
        · rintro _ ⟨⟩
          exact ⟨knownItem, fun same => other (own.2 same)⟩
        · rw [← hitem]
          exact ⟨_, change _ _⟩
    · rintro _ g ⟨unknown, rfl⟩
      exact ⟨fun fits => unknown (fits.2 item rfl).1, rfl⟩
  | _ =>
    refine ⟨⟨known, ?_⟩, _, change _ _⟩
    rintro _ ⟨⟩

theorem addAlias_ends (g : TypeGraph) (added target : String) :
    Ends (addAlias added target) g
      (fun _ g' => Correction.Fits g (.operationAlias added target) ∧
        g' = { g with operations := Correction.onOperations g.operations (.operationAlias added target) })
      fun _ g' => ¬ Correction.Fits g (.operationAlias added target) ∧ g' = g := by
  unfold addAlias
  simp only [Correction.Fits, Correction.onOperations]
  rw [ends_bind, ends_get]
  cases g.operations.get? target with
  | none =>
    refine ⟨?_, rfl⟩
    rintro ⟨_, h, -⟩
    cases h
  | some op =>
    rw [ends_bind, ends_get]
    cases g.operations.get? added with
    | none =>
      refine ⟨⟨op, rfl, fun _ h => ?_⟩, rfl⟩
      cases h
    | some existing =>
      dsimp only
      split
      · next differs =>
        refine ⟨?_, rfl⟩
        rintro ⟨_, h, same⟩
        exact differs ((same existing rfl).trans (Option.some.inj h).symm)
      · next same =>
        refine ⟨⟨op, rfl, fun _ h => ?_⟩, rfl⟩
        exact (Option.some.inj h).symm.trans (Decidable.not_not.1 same)

/-- A correction takes effect where it fits and is refused elsewhere, with the graph left as it was. -/
theorem Correction.apply_ends (c : Correction) (g : TypeGraph) :
    Ends c.apply g (fun _ g' => c.Fits g ∧ g' = c.effect g) fun _ g' => ¬ c.Fits g ∧ g' = g := by
  cases c with
  | typeName key _ | listName key _ | extraProperties key _ | textAttribute key _ =>
    refine (correctType_ends g key _ _).mono ?_ fun _ _ => id
    rintro _ _ ⟨fits, _, rfl⟩
    exact ⟨fits, rfl⟩
  | kind key kind =>
    refine (correctKind_ends g key kind).mono ?_ fun _ _ => id
    rintro _ _ ⟨fits, _, rfl⟩
    exact ⟨fits, rfl⟩
  | elementName key element _ | elementHint key element _ | elementDefault key element _ =>
    refine (correctElement_ends g key element _).mono ?_ fun _ _ => id
    rintro _ _ ⟨fits, _, rfl⟩
    exact ⟨fits, rfl⟩
  | target key =>
    refine ends_map.2 ((correctedType_finds g key).mono ?_ fun _ _ => id)
    rintro _ g ⟨⟨-, known⟩, rfl⟩
    exact ⟨known, (effect_eq (.target key) (fun _ _ => rfl) g).symm⟩
  | operationAlias added name =>
    refine (addAlias_ends g added name).mono ?_ fun _ _ => id
    rintro _ _ ⟨fits, rfl⟩
    exact ⟨fits, (effect_eq (.operationAlias added name) (fun _ _ => rfl) g).symm⟩

theorem Correction.yields_apply_iff {c : Correction} {g' : TypeGraph} {u : Unit} :
    Yields c.apply g u g' ↔ c.Fits g ∧ g' = c.effect g := by
  constructor
  · exact (c.apply_ends g).answer
  · rintro ⟨fits, rfl⟩
    rw [yields_iff_ends]
    exact (c.apply_ends g).mono (fun _ _ h => ⟨rfl, h.2⟩) fun _ _ h => h.1 fits

end Step

end SchemaGraph
