import SchemaGraph.Proofs.Resolution.Steps

/-! States of resolution only grow.  Entries are added at the end and keep their names; of the entries
that are there when a definition is asked for none is changed, whatever comes of it. -/
namespace SchemaGraph

/-- What is settled about a type when it is entered. -/
def TypeEntry.head (t : TypeEntry) : QName × Bool := (t.name, t.isAbstract)

namespace Registry

def Has (r : Registry) (id : TypeId) : Prop := id.index < r.size

theorem has_iff {r : Registry} {id : TypeId} : r.Has id ↔ ∃ t, r.get? id = some t := by
  unfold Has get? size
  constructor
  · intro h
    exact ⟨_, List.getElem?_eq_getElem h⟩
  · rintro ⟨t, h⟩
    exact (List.getElem?_eq_some_iff.1 h).1

theorem has_of_lookup {r : Registry} {key : String} {id : TypeId} (h : r.lookup key = some id) :
    r.Has id := by
  have := lookup_eq_some_iff.1 h
  obtain ⟨t, ht, -⟩ := Option.map_eq_some_iff.1 this
  exact has_iff.2 ⟨t, ht⟩

@[simp] theorem size_modify (r : Registry) (id : TypeId) (f : TypeEntry → TypeEntry)
    (keeps : ∀ t, (f t).key = t.key) : (r.modify id f keeps).size = r.size := by
  simp [size, modify]

@[simp] theorem has_modify {r : Registry} {id i : TypeId} {f : TypeEntry → TypeEntry}
    (keeps : ∀ t, (f t).key = t.key) : (r.modify id f keeps).Has i ↔ r.Has i := by
  simp [Has]

theorem get?_modify_self {r : Registry} {id : TypeId} {t : TypeEntry} {f : TypeEntry → TypeEntry}
    (keeps : ∀ t, (f t).key = t.key) (h : r.get? id = some t) :
    (r.modify id f keeps).get? id = some (f t) := by
  unfold get? at h ⊢
  simp [modify, h]

theorem get?_modify_of_ne {r : Registry} {id i : TypeId} {f : TypeEntry → TypeEntry}
    (keeps : ∀ t, (f t).key = t.key) (h : i ≠ id) : (r.modify id f keeps).get? i = r.get? i := by
  have other : id.index ≠ i.index := fun same => h (by cases id; cases i; cases same; rfl)
  simp [get?, modify, other]

theorem has_reserve {r r' : Registry} {t : TypeEntry} {id i : TypeId}
    (h : r.reserve? t = some (id, r')) (hi : r.Has i) : r'.Has i := by
  have entries := (of_reserve?_eq_some h).2.2
  unfold Has size at hi ⊢
  rw [entries, List.length_append]
  omega

theorem lookup_reserve {r r' : Registry} {t : TypeEntry} {id : TypeId}
    (h : r.reserve? t = some (id, r')) : r'.lookup t.key = some id := by
  obtain ⟨-, rfl, entries⟩ := of_reserve?_eq_some h
  rw [lookup_eq_some_iff]
  simp [get?, size, entries]

theorem has_of_reserve {r r' : Registry} {t : TypeEntry} {id : TypeId}
    (h : r.reserve? t = some (id, r')) : r'.Has id := has_of_lookup (lookup_reserve h)

end Registry

namespace ResolveState

/-- `s'` has come out of `s` with the first `n` entries as they were. -/
structure Grows (n : Nat) (s s' : ResolveState) : Prop where
  kept : s'.types.entries.take n = s.types.entries.take n
  heads : s.types.entries.map TypeEntry.head <+: s'.types.entries.map TypeEntry.head
  anonymous : s.anonymous <:+ s'.anonymous
  elements : s'.elements = s.elements
  skippedHeaders : s.skippedHeaders <+: s'.skippedHeaders
  diagnostics : s.diagnostics <+: s'.diagnostics

namespace Grows

variable {m n : Nat} {s s' s'' : ResolveState}

theorem refl (n : Nat) (s : ResolveState) : s.Grows n s :=
  ⟨rfl, List.prefix_rfl, List.suffix_rfl, rfl, List.prefix_rfl, List.prefix_rfl⟩

theorem trans (h : s.Grows n s') (h' : s'.Grows n s'') : s.Grows n s'' where
  kept := h'.kept.trans h.kept
  heads := h.heads.trans h'.heads
  anonymous := h.anonymous.trans h'.anonymous
  elements := h'.elements.trans h.elements
  skippedHeaders := h.skippedHeaders.trans h'.skippedHeaders
  diagnostics := h.diagnostics.trans h'.diagnostics

theorem of_le (hmn : m ≤ n) (h : s.Grows n s') : s.Grows m s' where
  kept := by
    have := congrArg (List.take m) h.kept
    simpa [List.take_take, Nat.min_eq_left hmn] using this
  heads := h.heads
  anonymous := h.anonymous
  elements := h.elements
  skippedHeaders := h.skippedHeaders
  diagnostics := h.diagnostics

theorem size_le (h : s.Grows n s') : s.types.size ≤ s'.types.size := by
  simpa [Registry.size] using h.heads.length_le

theorem has {id : TypeId} (h : s.Grows n s') (hid : s.types.Has id) : s'.types.Has id :=
  Nat.lt_of_lt_of_le hid h.size_le

theorem get?_eq {id : TypeId} (h : s.Grows n s') (hid : id.index < n) :
    s'.types.get? id = s.types.get? id := by
  unfold Registry.get?
  rw [← List.getElem?_take_of_lt hid, h.kept, List.getElem?_take_of_lt hid]

theorem keys_subset (h : s.Grows n s') :
    s.types.entries.map TypeEntry.key ⊆ s'.types.entries.map TypeEntry.key := by
  have key : ∀ l : List TypeEntry, l.map TypeEntry.key =
      (l.map TypeEntry.head).map fun head => head.1.clark := by simp [TypeEntry.key, TypeEntry.head]
  rw [key, key]
  exact List.map_subset _ h.heads.subset

theorem get?_head {id : TypeId} {t : TypeEntry} (h : s.Grows n s') (ht : s.types.get? id = some t) :
    ∃ t', s'.types.get? id = some t' ∧ t'.head = t.head := by
  obtain ⟨rest, hrest⟩ := h.heads
  have head : (s.types.entries.map TypeEntry.head)[id.index]? = some t.head := by
    rw [List.getElem?_map]
    exact congrArg (Option.map TypeEntry.head) ht
  have inside := (List.getElem?_eq_some_iff.1 head).1
  have head' : (s'.types.entries.map TypeEntry.head)[id.index]? = some t.head := by
    rw [← hrest, List.getElem?_append_left inside, head]
  rw [List.getElem?_map] at head'
  exact Option.map_eq_some_iff.1 head'

theorem key_eq {id : TypeId} {t t' : TypeEntry} (h : s.Grows n s') (ht : s.types.get? id = some t)
    (ht' : s'.types.get? id = some t') : t'.key = t.key := by
  obtain ⟨_, found, head⟩ := h.get?_head ht
  cases found.symm.trans ht'
  exact congrArg (fun head => head.1.clark) head

theorem lookup {key : String} {id : TypeId} (h : s.Grows n s')
    (hl : s.types.lookup key = some id) : s'.types.lookup key = some id := by
  rw [Registry.lookup_eq_some_iff] at hl ⊢
  obtain ⟨t, ht, hk⟩ := Option.map_eq_some_iff.1 hl
  obtain ⟨t', ht', hh⟩ := h.get?_head ht
  have name : t'.name = t.name := congrArg Prod.fst hh
  rw [ht', ← hk]
  simp [TypeEntry.key, name]

theorem diagnose (n : Nat) (s : ResolveState) (d : Diagnostic) :
    s.Grows n { s with diagnostics := s.diagnostics ++ [d] } :=
  { refl n s with diagnostics := List.prefix_append _ _ }

theorem skip (n : Nat) (s : ResolveState) (key : String) :
    s.Grows n
      { s with skippedHeaders :=
          if s.skippedHeaders.contains key then s.skippedHeaders else s.skippedHeaders ++ [key] } :=
  { refl n s with
    skippedHeaders := by
      dsimp only
      split
      · exact List.prefix_rfl
      · exact List.prefix_append _ _ }

theorem recordAnonymous (n : Nat) (s : ResolveState) (p : TypeId × Site) :
    s.Grows n { s with anonymous := p :: s.anonymous } :=
  { refl n s with anonymous := List.suffix_cons _ _ }

theorem reserve {t : TypeEntry} {id : TypeId} {r : Registry} (hn : n ≤ s.types.size)
    (h : s.types.reserve? t = some (id, r)) : s.Grows n { s with types := r } :=
  have entries := (Registry.of_reserve?_eq_some h).2.2
  { refl n s with
    kept := by
      dsimp only
      rw [entries, List.take_append_of_le_length hn]
    heads := by
      dsimp only
      rw [entries, List.map_append]
      exact List.prefix_append _ _ }

/-- An entry that is not among the first `n` may be filled. -/
theorem modify {id : TypeId} {f : TypeEntry → TypeEntry} (keeps : ∀ t, (f t).key = t.key)
    (hn : n ≤ id.index) (head : ∀ t, (f t).head = t.head) :
    s.Grows n { s with types := s.types.modify id f keeps } :=
  { refl n s with
    kept := by
      apply List.ext_getElem?
      intro i
      by_cases hi : i < n
      · simp [Registry.modify, List.getElem?_take_of_lt hi, Nat.ne_of_gt (Nat.lt_of_lt_of_le hi hn)]
      · rw [List.getElem?_take, List.getElem?_take, if_neg hi, if_neg hi]
    heads := by
      dsimp only [Registry.modify]
      exact Registry.map_modify_of_eq _ _ head _ _ ▸ List.prefix_rfl }

end Grows

end ResolveState

open Stateful

section Growing

variable {c : ResolveContext} {s : ResolveState} {n : Nat}

theorem head_eq_of_start {t t' : TypeEntry} (h : t'.start = t.start) : t'.head = t.head := by
  have name : t'.name = t.name := congrArg (·.1) h
  have abstract : t'.isAbstract = t.isAbstract := congrArg (·.2.1) h
  rw [TypeEntry.head, TypeEntry.head, name, abstract]

theorem stable_grows : Stable (s.Grows n) (n ≤ ·.index) where
  diagnose _ _ ht := ht.trans (.diagnose n _ _)
  skip _ _ ht := ht.trans (.skip n _ _)
  fill _ _ _ keeps hid fills ht := ht.trans (.modify keeps hid fun t => head_eq_of_start (fills t).start)

theorem stableEntering_grows (hn : n ≤ s.types.size) : StableEntering (s.Grows n) (n ≤ ·.index) where
  toStable := stable_grows
  reserve := by
    intro t name isAbstract id types ht h
    have size := Nat.le_trans hn ht.size_le
    obtain ⟨-, rfl, -⟩ := Registry.of_reserve?_eq_some h
    exact ⟨size, ht.trans (.reserve size h)⟩
  recordAnonymous _ _ ht := ht.trans (.recordAnonymous n _ _)

theorem fillComplex_grows {resolve : ResolveType} {id : TypeId} {x : ComplexDef} {site : Site}
    (hresolve : ∀ d site context, Keeps (s.Grows n) (resolve d site context)) (hid : n ≤ id.index) :
    Keeps (s.Grows n) (fillComplex c resolve id x site) :=
  fillComplex_keeps hresolve stable_grows hid

theorem fillTo_grows (hn : n ≤ s.types.size) (depth : Nat) (id : TypeId) (d : TypeDef) (site : Site)
    (hid : n ≤ id.index) : Keeps (s.Grows n) (fillTo c depth id d site) :=
  fillTo_keeps (stableEntering_grows hn) depth id d site hid

theorem resolve_grows (c : ResolveContext) (depth : Nat) (s : ResolveState) (d : TypeDef) (site : Site)
    (context : Option QName) :
    Keeps (s.Grows s.types.size) (resolveType c (fillTo c depth) d site context) :=
  resolve_keeps (stableEntering_grows (Nat.le_refl _)) depth d site context

theorem resolve_adds {depth : Nat} :
    ∀ d site context, Keeps (s.Grows 0) (resolveType c (fillTo c depth) d site context) :=
  resolve_keeps (stableEntering_grows (Nat.zero_le _)) depth

theorem resolve_keeps_entry (c : ResolveContext) (depth : Nat) (d : TypeDef) (site : Site)
    (context : Option QName) (id : TypeId) (type : TypeEntry) :
    Keeps (fun s => s.types.get? id = some type) (resolveType c (fillTo c depth) d site context) := by
  intro s hs
  have inside : id.index < s.types.size := Registry.has_iff.2 ⟨type, hs⟩
  refine (resolve_grows c depth s d site context s (.refl _ s)).mono ?_ ?_
  · exact fun _ t h => (h.get?_eq inside).trans hs
  · exact fun _ t h => (h.get?_eq inside).trans hs

end Growing

end SchemaGraph
