import SchemaGraph.Json.Value
import SchemaGraph.OrderedMap
import SchemaGraph.QName

/-! Resolved types.  A type is addressed by its place in the registry, so that an entry can be referred to
while it is still being filled; no two entries have the same key. -/
namespace SchemaGraph

/-- The place of a type in a registry. -/
structure TypeId where
  index : Nat
deriving DecidableEq, Inhabited

inductive SimpleKind
  | boolean
  | decimal
  | string
  | enum
  /-- Literals of an enumeration, separated by blanks. -/
  | listOfEnum
deriving DecidableEq

namespace SimpleKind

def name : SimpleKind → String
  | boolean => "boolean"
  | decimal => "decimal"
  | string => "string"
  | enum => "enum"
  | listOfEnum => "list"

def all : List SimpleKind := [boolean, decimal, string, enum, listOfEnum]

def ofName? (s : String) : Option SimpleKind := all.find? (·.name == s)

@[simp] theorem ofName?_name (k : SimpleKind) : ofName? k.name = some k := by
  cases k <;> decide

end SimpleKind

/-- One element of a type, or one global element. -/
structure ElementDescriptor where
  typeId : TypeId
  isList : Bool
  /-- The serialized name where it differs from the source name. -/
  serializedName : Option String := none
  /-- The declared tag where it differs from the key of the entry. -/
  sourceName : Option QName := none
  formatHint : Option String := none
  /-- What is serialized for an absent element. -/
  defaultValue : Option Json := none
deriving Inhabited

def ElementDescriptor.substitute (d : ElementDescriptor) (typeId : TypeId) (sourceName : QName) :
    ElementDescriptor :=
  { d with typeId, sourceName := some sourceName }

/-- Elements under the text of their names, or of the names of substitute types. -/
abbrev ElementMap := OrderedMap String ElementDescriptor

/-- A named type, or one without a namespace whose name was made up. -/
structure TypeEntry where
  name : QName
  elements : ElementMap := ∅
  attributes : OrderedMap String (Option TypeId) := ∅
  isAbstract : Bool := false
  /-- The content is a collection. -/
  isList : Bool := false
  /-- None for complex types. -/
  simpleKind : Option SimpleKind := none
  enumValues : List String := []
  listItem : Option TypeId := none
  anyAttribute : Bool := false
  /-- The attribute that carries the value of a simple type with attributes. -/
  textAttribute : Option String := none
  serializedName : Option String := none
  listName : Option String := none
  /-- Properties that only the serialized form has. -/
  extraProperties : List String := []
deriving Inhabited

namespace TypeEntry

def key (t : TypeEntry) : String := t.name.clark

def isSimple (t : TypeEntry) : Bool := t.simpleKind.isSome

/-- A simple type with attributes keeps its value in an attribute of its own, named `Value` unless
another name is given. -/
def finish (t : TypeEntry) : TypeEntry :=
  if t.isSimple && !t.attributes.isEmpty && t.textAttribute.isNone then
    { t with textAttribute := some "Value" }
  else t

theorem key_finish (t : TypeEntry) : t.finish.key = t.key := by
  unfold finish
  split <;> rfl

end TypeEntry

/-- Types in the order in which they were entered, and the place of each under its key. -/
structure Registry where
  entries : List TypeEntry
  index : OrderedMap String TypeId
  indexed : index.entries = (entries.map TypeEntry.key).zipIdx.map (Prod.map id TypeId.mk)

namespace Registry

theorem keys_index (r : Registry) : r.index.keys = r.entries.map TypeEntry.key := by
  rw [OrderedMap.keys, r.indexed, List.map_map]
  exact List.zipIdx_map_fst 0 _

theorem nodup (r : Registry) : (r.entries.map TypeEntry.key).Nodup := r.keys_index ▸ r.index.nodup

def ofEntries (entries : List TypeEntry) (nodup : (entries.map TypeEntry.key).Nodup) : Registry where
  entries
  index := ⟨(entries.map TypeEntry.key).zipIdx.map (Prod.map id TypeId.mk), by
    rw [List.map_map]
    exact (List.zipIdx_map_fst 0 _).symm ▸ nodup⟩
  indexed := rfl

def empty : Registry := ⟨[], ∅, rfl⟩

instance : Inhabited Registry := ⟨empty⟩

def size (r : Registry) : Nat := r.entries.length

def lookup (r : Registry) (key : String) : Option TypeId := r.index.get? key

def get? (r : Registry) (id : TypeId) : Option TypeEntry := r.entries[id.index]?

/-- The entry at a place of the registry. -/
def get (r : Registry) (id : TypeId) : TypeEntry := (r.get? id).getD default

def keyOf (r : Registry) (id : TypeId) : String := (r.get id).key

def find? (r : Registry) (key : String) : Option TypeEntry := (r.lookup key).bind r.get?

theorem isSome_lookup_iff {r : Registry} {key : String} :
    (r.lookup key).isSome = true ↔ key ∈ r.entries.map TypeEntry.key := by
  rw [← keys_index, OrderedMap.mem_keys_iff]
  rfl

theorem lookup_eq_none_iff {r : Registry} {key : String} :
    r.lookup key = none ↔ key ∉ r.entries.map TypeEntry.key := by
  rw [← isSome_lookup_iff, Bool.not_eq_true, Option.isSome_eq_false_iff, Option.isNone_iff_eq_none]

def reserve? (r : Registry) (t : TypeEntry) : Option (TypeId × Registry) :=
  match h : r.lookup t.key with
  | some _ => none
  | none =>
    some (⟨r.size⟩, ⟨r.entries ++ [t], r.index.insert t.key ⟨r.size⟩, by
      have new : r.index.contains t.key = false := Option.isSome_eq_false_iff.2 (Option.isNone_iff_eq_none.2 h)
      rw [OrderedMap.entries_insert new, r.indexed, List.map_append, List.zipIdx_append, List.map_append]
      simp [size]⟩)

theorem reserve?_eq_none_iff {r : Registry} {t : TypeEntry} :
    r.reserve? t = none ↔ (r.lookup t.key).isSome := by
  unfold reserve?
  split
  · next h => simp [h]
  · next h => simp [h]

theorem of_reserve?_eq_some {r r' : Registry} {t : TypeEntry} {id : TypeId}
    (h : r.reserve? t = some (id, r')) :
    r.lookup t.key = none ∧ id = ⟨r.size⟩ ∧ r'.entries = r.entries ++ [t] := by
  unfold reserve? at h
  split at h
  · cases h
  · next hk =>
    cases h
    exact ⟨hk, rfl, rfl⟩

theorem map_modify_of_eq {α β : Type} (g : α → β) (f : α → α) (h : ∀ a, g (f a) = g a) (l : List α)
    (i : Nat) : (l.modify i f).map g = l.map g := by
  apply List.ext_getElem (by simp)
  intro n h₁ h₂
  simp only [List.getElem_map, List.getElem_modify]
  split
  · exact h _
  · rfl

def modify (r : Registry) (id : TypeId) (f : TypeEntry → TypeEntry)
    (keeps : ∀ t, (f t).key = t.key := by intro _; rfl) : Registry :=
  ⟨r.entries.modify id.index f, r.index, by rw [map_modify_of_eq _ _ keeps, r.indexed]⟩

def finish (r : Registry) : Registry :=
  ⟨r.entries.map TypeEntry.finish, r.index, by
    have kept : TypeEntry.key ∘ TypeEntry.finish = TypeEntry.key := funext TypeEntry.key_finish
    rw [List.map_map, kept, r.indexed]⟩

/-- The handles of a registry are the places below its size, and the key of an entry leads to it. -/
theorem lookup_eq_some_iff {r : Registry} {key : String} {id : TypeId} :
    r.lookup key = some id ↔ (r.get? id).map TypeEntry.key = some key := by
  obtain ⟨i⟩ := id
  rw [lookup, ← OrderedMap.mem_entries_iff, r.indexed, get?, ← List.getElem?_map]
  simp only [List.mem_map, Prod.exists, Prod.map_apply, id_eq, Prod.mk.injEq, TypeId.mk.injEq,
    List.mem_zipIdx_iff_getElem?]
  constructor
  · rintro ⟨k, j, found, rfl, rfl⟩
    exact found
  · exact fun found => ⟨key, i, found, rfl, rfl⟩

/-- The index agrees with a search through the entries. -/
theorem lookup_eq_findIdx? (r : Registry) (key : String) :
    r.lookup key = (r.entries.findIdx? (·.key == key)).map TypeId.mk := by
  ext ⟨i⟩
  rw [lookup_eq_some_iff, get?]
  simp only [Option.map_eq_some_iff, TypeId.mk.injEq, exists_eq_right, List.findIdx?_eq_some_iff_getElem]
  constructor
  · rintro ⟨t, found, own⟩
    obtain ⟨h, rfl⟩ := List.getElem?_eq_some_iff.1 found
    refine ⟨h, by simpa using own, fun j hj same => ?_⟩
    have apart := List.pairwise_iff_getElem.1 r.nodup j i (by simp; omega) (by simpa using h) hj
    exact apart (by simpa [own] using same)
  · rintro ⟨h, own, -⟩
    exact ⟨r.entries[i], List.getElem?_eq_getElem h, by simpa using own⟩

theorem lookup_eq_some_iff_keyOf {r : Registry} {key : String} {id : TypeId} :
    r.lookup key = some id ↔ id.index < r.size ∧ r.keyOf id = key := by
  rw [lookup_eq_some_iff, Option.map_eq_some_iff]
  unfold keyOf get get? size
  constructor
  · rintro ⟨t, ht, rfl⟩
    exact ⟨(List.getElem?_eq_some_iff.1 ht).1, by rw [ht]; rfl⟩
  · rintro ⟨h, rfl⟩
    exact ⟨_, List.getElem?_eq_getElem h, by rw [List.getElem?_eq_getElem h]; rfl⟩

end Registry

end SchemaGraph
