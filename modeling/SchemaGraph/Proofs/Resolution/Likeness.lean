import Mathlib.Data.List.Forall2
import SchemaGraph.Proofs.Resolution.Owners

/-! Entries of two registries that differ in nothing but their handles.  Handles are alike when they belong to
one definition, so that likeness outlasts whatever both registries take in, and like entries read the same
once every handle is replaced by the key behind it. -/
namespace SchemaGraph

namespace OrderedMap

variable {κ α β : Type} [DecidableEq κ] {R : α → β → Prop} {m : OrderedMap κ α} {m' : OrderedMap κ β}

def Related (R : α → β → Prop) (m : OrderedMap κ α) (m' : OrderedMap κ β) : Prop :=
  List.Forall₂ (fun e f => e.1 = f.1 ∧ R e.2 f.2) m.entries m'.entries

namespace Related

omit [DecidableEq κ] in
theorem empty : Related R (∅ : OrderedMap κ α) ∅ := .nil

omit [DecidableEq κ] in
theorem mono {R' : α → β → Prop} (h : Related R m m') (hR : ∀ a b, R a b → R' a b) : Related R' m m' :=
  List.Forall₂.imp (fun _ _ h => ⟨h.1, hR _ _ h.2⟩) h

theorem get? (h : Related R m m') (k : κ) : Option.Rel R (m.get? k) (m'.get? k) := by
  unfold Related at h
  unfold OrderedMap.get?
  generalize m.entries = l, m'.entries = l' at h ⊢
  induction h with
  | nil => exact .none
  | @cons e f _ _ head _ ih =>
    obtain ⟨j, a⟩ := e
    obtain ⟨j', b⟩ := f
    obtain ⟨rfl, hab⟩ : j = j' ∧ R a b := head
    rw [List.lookup_cons, List.lookup_cons]
    cases k == j with
    | true => exact .some hab
    | false => exact ih

theorem contains_eq (h : Related R m m') (k : κ) : m.contains k = m'.contains k := by
  unfold contains
  have found := h.get? k
  revert found
  generalize m.get? k = x, m'.get? k = y
  rintro (_ | _) <;> rfl

theorem insert (h : Related R m m') (k : κ) {a : α} {b : β} (hab : R a b) :
    Related R (m.insert k a) (m'.insert k b) := by
  change List.Forall₂ _ (Entries.put k a m.entries) (Entries.put k b m'.entries)
  unfold Related at h
  generalize m.entries = l, m'.entries = l' at h ⊢
  induction h with
  | nil => exact .cons ⟨rfl, hab⟩ .nil
  | @cons e f _ _ head rest ih =>
    rw [Entries.put, Entries.put, ← head.1]
    split
    · exact .cons ⟨rfl, hab⟩ rest
    · exact .cons head ih

theorem modify (h : Related R m m') (k : κ) {f : α → α} {g : β → β} (hfg : ∀ a b, R a b → R (f a) (g b)) :
    Related R (m.modify k f) (m'.modify k g) := by
  unfold OrderedMap.modify
  have found := h.get? k
  revert found
  generalize m.get? k = x, m'.get? k = y
  rintro (hab | _)
  · exact h.insert k (hfg _ _ hab)
  · exact h

omit [DecidableEq κ] in
theorem size_eq (h : Related R m m') : m.size = m'.size := List.Forall₂.length_eq h

omit [DecidableEq κ] in
theorem isEmpty_eq (h : Related R m m') : m.isEmpty = m'.isEmpty := by
  unfold Related at h
  unfold OrderedMap.isEmpty
  generalize m.entries = l, m'.entries = l' at h ⊢
  cases h <;> rfl

omit [DecidableEq κ] in
theorem all_eq (h : Related R m m') {p : α → Bool} {q : β → Bool} (hpq : ∀ a b, R a b → p a = q b) :
    m.values.all p = m'.values.all q := by
  unfold Related at h
  unfold values
  generalize m.entries = l, m'.entries = l' at h ⊢
  induction h with
  | nil => rfl
  | cons head _ ih => rw [List.map_cons, List.map_cons, List.all_cons, List.all_cons, hpq _ _ head.2, ih]

omit [DecidableEq κ] in
theorem map_eq (h : Related R m m') {γ : Type} {f : α → γ} {g : β → γ} (hfg : ∀ a b, R a b → f a = g b) :
    m.entries.map (Prod.map id f) = m'.entries.map (Prod.map id g) := by
  unfold Related at h
  generalize m.entries = l, m'.entries = l' at h ⊢
  induction h with
  | nil => rfl
  | cons head _ ih => rw [List.map_cons, List.map_cons, ih, Prod.map, Prod.map, head.1, hfg _ _ head.2]

end Related

end OrderedMap

namespace ResolveState

variable {c : ResolveContext} {s t s' t' : ResolveState} {m n : Nat} {i j : TypeId}

/-- The handles belong to one definition. -/
def SameOwner (c : ResolveContext) (s t : ResolveState) (i j : TypeId) : Prop :=
  ∃ d site, s.Owned c i d site ∧ t.Owned c j d site

theorem SameOwner.later (h : SameOwner c s t i j) (hs : s.Grows m s') (ht : t.Grows n t') :
    SameOwner c s' t' i j := by
  obtain ⟨d, site, left, right⟩ := h
  exact ⟨d, site, left.later hs, right.later ht⟩

theorem SameOwner.keyOf_eq (hi : c.set.Indexed) (h : SameOwner c s t i j) :
    s.types.keyOf i = t.types.keyOf j := by
  obtain ⟨d, site, left, right⟩ := h
  obtain ⟨type, found⟩ := Registry.has_iff.1 left.has
  have head := left.head_eq hi right
  rw [found, Option.map_some] at head
  obtain ⟨type', found', same⟩ := Option.map_eq_some_iff.1 head.symm
  have name : type'.name = type.name := congrArg Prod.fst same
  simp [Registry.keyOf, Registry.get, found, found', TypeEntry.key, name]

def DescriptorsAlike (c : ResolveContext) (s t : ResolveState) (d e : ElementDescriptor) : Prop :=
  ∃ id, SameOwner c s t d.typeId id ∧ e = { d with typeId := id }

abbrev ElementsAlike (c : ResolveContext) (s t : ResolveState) (m m' : ElementMap) : Prop :=
  m.Related (DescriptorsAlike c s t) m'

theorem DescriptorsAlike.later {d e : ElementDescriptor} (h : DescriptorsAlike c s t d e)
    (hs : s.Grows m s') (ht : t.Grows n t') : DescriptorsAlike c s' t' d e := by
  obtain ⟨id, same, rest⟩ := h
  exact ⟨id, same.later hs ht, rest⟩

theorem ElementsAlike.later {l l' : ElementMap} (h : ElementsAlike c s t l l') (hs : s.Grows m s')
    (ht : t.Grows n t') : ElementsAlike c s' t' l l' := h.mono fun _ _ h => h.later hs ht

end ResolveState

namespace TypeEntry

def bare (t : TypeEntry) : TypeEntry := { t with elements := ∅, attributes := ∅, listItem := none }

/-- What an entry says, with keys in place of handles. -/
structure Outline where
  bare : TypeEntry
  elements : List (String × String × ElementDescriptor)
  attributes : List (String × Option String)
  listItem : Option String

def outline (r : Registry) (t : TypeEntry) : Outline where
  bare := t.bare
  elements := t.elements.entries.map
    (Prod.map id fun d => (r.keyOf d.typeId, { d with typeId := default }))
  attributes := t.attributes.entries.map (Prod.map id (Option.map r.keyOf))
  listItem := t.listItem.map r.keyOf

end TypeEntry

namespace ResolveState

variable {c : ResolveContext} {s t s' t' : ResolveState} {m n : Nat} {e f : TypeEntry}

structure EntriesAlike (c : ResolveContext) (s t : ResolveState) (e f : TypeEntry) : Prop where
  bare : e.bare = f.bare
  elements : ElementsAlike c s t e.elements f.elements
  attributes : e.attributes.Related (Option.Rel (SameOwner c s t)) f.attributes
  listItem : Option.Rel (SameOwner c s t) e.listItem f.listItem

theorem SameOwner.option_later {x y : Option TypeId} (h : Option.Rel (SameOwner c s t) x y)
    (hs : s.Grows m s') (ht : t.Grows n t') : Option.Rel (SameOwner c s' t') x y := by
  cases h with
  | some h => exact .some (h.later hs ht)
  | none => exact .none

theorem SameOwner.map_keyOf_eq {x y : Option TypeId} (hi : c.set.Indexed)
    (h : Option.Rel (SameOwner c s t) x y) : x.map s.types.keyOf = y.map t.types.keyOf := by
  cases h with
  | some h => exact congrArg some (h.keyOf_eq hi)
  | none => rfl

namespace EntriesAlike

theorem later (h : EntriesAlike c s t e f) (hs : s.Grows m s') (ht : t.Grows n t') :
    EntriesAlike c s' t' e f where
  bare := h.bare
  elements := h.elements.later hs ht
  attributes := h.attributes.mono fun _ _ h => SameOwner.option_later h hs ht
  listItem := SameOwner.option_later h.listItem hs ht

theorem blank (c : ResolveContext) (s t : ResolveState) (name : QName) (isAbstract : Bool) :
    EntriesAlike c s t { name, isAbstract } { name, isAbstract } where
  bare := rfl
  elements := .empty
  attributes := .empty
  listItem := .none

theorem key_eq (h : EntriesAlike c s t e f) : e.key = f.key := by
  have key : e.bare.key = f.bare.key := by rw [h.bare]
  exact key

theorem outline_eq (hi : c.set.Indexed) (h : EntriesAlike c s t e f) :
    e.outline s.types = f.outline t.types := by
  unfold TypeEntry.outline
  have elements : e.elements.entries.map
      (Prod.map id fun d => (s.types.keyOf d.typeId, { d with typeId := default })) =
      f.elements.entries.map (Prod.map id fun d => (t.types.keyOf d.typeId, { d with typeId := default })) := by
    refine h.elements.map_eq ?_
    rintro d _ ⟨id, same, rfl⟩
    rw [same.keyOf_eq hi]
  have attributes := h.attributes.map_eq fun _ _ h => SameOwner.map_keyOf_eq hi h
  rw [h.bare, elements, attributes, SameOwner.map_keyOf_eq hi h.listItem]

end EntriesAlike

end ResolveState

end SchemaGraph
