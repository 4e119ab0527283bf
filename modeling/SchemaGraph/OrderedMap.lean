/-! Entries under distinct keys, in the order in which the keys were first inserted.  Inserting under a
key that is present replaces the value and keeps the place: `keys_insert`, `get?_insert`. -/
namespace SchemaGraph

variable {κ α β : Type} [DecidableEq κ]

theorem eraseDups_append_singleton (l : List κ) (k : κ) :
    (l ++ [k]).eraseDups = if k ∈ l then l.eraseDups else l.eraseDups ++ [k] := by
  rw [List.eraseDups_append]
  split
  · next h => simp [List.removeAll, h]
  · next h => simp [List.removeAll, h, List.eraseDups_cons]

namespace Entries

def put (k : κ) (a : α) : List (κ × α) → List (κ × α)
  | [] => [(k, a)]
  | e :: r => if e.1 = k then (k, a) :: r else e :: put k a r

theorem map_fst_put (k : κ) (a : α) (l : List (κ × α)) :
    (put k a l).map (·.1) = if k ∈ l.map (·.1) then l.map (·.1) else l.map (·.1) ++ [k] := by
  induction l with
  | nil => simp [put]
  | cons e r ih =>
    by_cases h : e.1 = k
    · simp [put, h]
    · have hk : k ≠ e.1 := Ne.symm h
      simp only [put, h, ↓reduceIte, List.map_cons, ih, List.mem_cons, hk, false_or]
      split <;> simp

theorem nodup_put (k : κ) (a : α) {l : List (κ × α)} (h : (l.map (·.1)).Nodup) :
    ((put k a l).map (·.1)).Nodup := by
  rw [map_fst_put]
  split
  · exact h
  · rename_i hk
    rw [List.nodup_append]
    exact ⟨h, by simp, by
      intro x hx y hy hxy
      simp only [List.mem_singleton] at hy
      exact hk (hy ▸ hxy ▸ hx)⟩

theorem lookup_put (k j : κ) (a : α) (l : List (κ × α)) :
    (put k a l).lookup j = if j = k then some a else l.lookup j := by
  induction l with
  | nil => by_cases h : j = k <;> simp [put, List.lookup_cons, h, beq_eq_false_iff_ne.2]
  | cons e r ih =>
    obtain ⟨e, b⟩ := e
    by_cases he : e = k
    · by_cases h : j = k
      · simp [put, he, h]
      · have : (j == k) = false := by simp [h]
        simp [put, he, h, List.lookup_cons, this]
    · by_cases h : j = e
      · have : j ≠ k := fun hk => he (h ▸ hk)
        simp [put, he, h]
      · have : (j == e) = false := by simp [h]
        simp [put, he, List.lookup_cons, this, ih]

theorem map_put_of_lookup (g : α → β) {k : κ} {a b : α} {l : List (κ × α)} (h : l.lookup k = some a)
    (hg : g b = g a) : (put k b l).map (Prod.map id g) = l.map (Prod.map id g) := by
  induction l with
  | nil => cases h
  | cons e r ih =>
    obtain ⟨j, c⟩ := e
    by_cases hj : j = k
    · subst hj
      obtain rfl : c = a := by simpa using h
      simp [put, hg]
    · have hk : (k == j) = false := by simp [Ne.symm hj]
      rw [List.lookup_cons, hk] at h
      simp [put, hj, ih h]

theorem put_eq_map {k : κ} {a : α} {l : List (κ × α)} (h : l.lookup k = some a)
    (nodup : (l.map (·.1)).Nodup) (f : α → α) :
    put k (f a) l = l.map fun e => (e.1, if e.1 = k then f e.2 else e.2) := by
  induction l with
  | nil => cases h
  | cons e r ih =>
    obtain ⟨j, c⟩ := e
    obtain ⟨hj, hr⟩ := List.nodup_cons.1 nodup
    by_cases hk : j = k
    · subst hk
      obtain rfl : c = a := by simpa using h
      have rest : ∀ e ∈ r, (e.1, if e.1 = j then f e.2 else e.2) = e := by
        intro e he
        have other : e.1 ≠ j := by
          rintro rfl
          exact hj (List.mem_map.2 ⟨e, he, rfl⟩)
        rw [if_neg other]
      rw [put, if_pos rfl, List.map_cons, if_pos rfl, List.map_congr_left rest, List.map_id']
    · have hk' : (k == j) = false := by simp [Ne.symm hk]
      rw [List.lookup_cons, hk'] at h
      simp [put, hk, ih h hr]

end Entries

/-- A finite map that remembers the order in which its keys came. -/
structure OrderedMap (κ α : Type) where
  entries : List (κ × α)
  nodup : (entries.map (·.1)).Nodup

namespace OrderedMap

def empty : OrderedMap κ α := ⟨[], by simp⟩

instance : Inhabited (OrderedMap κ α) := ⟨empty⟩
instance : EmptyCollection (OrderedMap κ α) := ⟨empty⟩

def keys (m : OrderedMap κ α) : List κ := m.entries.map (·.1)

def values (m : OrderedMap κ α) : List α := m.entries.map (·.2)

def size (m : OrderedMap κ α) : Nat := m.entries.length

def isEmpty (m : OrderedMap κ α) : Bool := m.entries.isEmpty

def get? (m : OrderedMap κ α) (k : κ) : Option α := m.entries.lookup k

def contains (m : OrderedMap κ α) (k : κ) : Bool := (m.get? k).isSome

def insert (m : OrderedMap κ α) (k : κ) (a : α) : OrderedMap κ α :=
  ⟨Entries.put k a m.entries, Entries.nodup_put k a m.nodup⟩

def ofList (l : List (κ × α)) : OrderedMap κ α :=
  l.foldl (fun m e => m.insert e.1 e.2) empty

def modify (m : OrderedMap κ α) (k : κ) (f : α → α) : OrderedMap κ α :=
  match m.get? k with
  | some a => m.insert k (f a)
  | none => m

def mapValues (m : OrderedMap κ α) (f : κ → α → β) : OrderedMap κ β :=
  ⟨m.entries.map fun e => (e.1, f e.1 e.2), by
    rw [List.map_map]
    exact m.nodup⟩

@[simp] theorem get?_empty (k : κ) : (empty : OrderedMap κ α).get? k = none := rfl

omit [DecidableEq κ] in
@[simp] theorem keys_empty : (empty : OrderedMap κ α).keys = [] := rfl

theorem get?_insert (m : OrderedMap κ α) (k j : κ) (a : α) :
    (m.insert k a).get? j = if j = k then some a else m.get? j :=
  Entries.lookup_put k j a m.entries

theorem contains_insert {m : OrderedMap κ α} {k j : κ} {a : α} :
    (m.insert k a).contains j = true ↔ j = k ∨ m.contains j = true := by
  unfold contains
  rw [get?_insert]
  by_cases h : j = k <;> simp [h]

theorem keys_insert (m : OrderedMap κ α) (k : κ) (a : α) :
    (m.insert k a).keys = if k ∈ m.keys then m.keys else m.keys ++ [k] :=
  Entries.map_fst_put k a m.entries

theorem keys_insert_eraseDups {m : OrderedMap κ α} {l : List κ} (h : m.keys = l.eraseDups) (k : κ)
    (a : α) : (m.insert k a).keys = (l ++ [k]).eraseDups := by
  rw [keys_insert, h, eraseDups_append_singleton]
  simp only [List.mem_eraseDups]

theorem mem_keys_iff (m : OrderedMap κ α) (k : κ) : k ∈ m.keys ↔ m.contains k = true := by
  obtain ⟨l, _⟩ := m
  simp only [keys, contains, get?]
  induction l with
  | nil => simp
  | cons e r ih =>
    obtain ⟨e, b⟩ := e
    by_cases h : k = e
    · simp [h]
    · have : (k == e) = false := by simp [h]
      simp only [List.map_cons, List.mem_cons, h, false_or, List.lookup_cons, this]
      exact ih (by rename_i hn; exact (List.nodup_cons.1 hn).2)

theorem mem_entries_iff (m : OrderedMap κ α) (k : κ) (a : α) :
    (k, a) ∈ m.entries ↔ m.get? k = some a := by
  obtain ⟨l, hl⟩ := m
  simp only [get?]
  induction l with
  | nil => simp
  | cons e r ih =>
    obtain ⟨e, b⟩ := e
    obtain ⟨he, hr⟩ := List.nodup_cons.1 hl
    by_cases h : k = e
    · subst h
      have : (k, a) ∉ r := fun hk => he (List.mem_map.2 ⟨(k, a), hk, rfl⟩)
      simp [this, eq_comm]
    · have hf : (k == e) = false := by simp [h]
      simp only [List.mem_cons, Prod.mk.injEq, h, false_and, false_or, List.lookup_cons, hf]
      exact ih hr

theorem get?_of_prefix {m m' : OrderedMap κ α} {k : κ} {a : α} (h : m.entries <+: m'.entries)
    (found : m.get? k = some a) : m'.get? k = some a := by
  rw [← mem_entries_iff] at found ⊢
  exact h.subset found

theorem contains_of_prefix {m m' : OrderedMap κ α} {k : κ} (h : m.entries <+: m'.entries)
    (here : m.contains k = true) : m'.contains k = true := by
  obtain ⟨a, found⟩ := Option.isSome_iff_exists.1 here
  exact Option.isSome_iff_exists.2 ⟨a, get?_of_prefix h found⟩

theorem mem_values_iff (m : OrderedMap κ α) (a : α) : a ∈ m.values ↔ ∃ k, m.get? k = some a := by
  simp only [values, List.mem_map, Prod.exists, exists_eq_right, mem_entries_iff]

theorem entries_insert {m : OrderedMap κ α} {k : κ} (h : m.contains k = false) (a : α) :
    (m.insert k a).entries = m.entries ++ [(k, a)] := by
  have hk : k ∉ m.keys := by simp [mem_keys_iff, h]
  obtain ⟨l, hl⟩ := m
  simp only [keys, insert] at hk ⊢
  clear hl h
  induction l with
  | nil => rfl
  | cons e r ih =>
    simp only [List.map_cons, List.mem_cons, not_or] at hk
    rw [Entries.put, if_neg (Ne.symm hk.1), ih hk.2, List.cons_append]

theorem values_insert {m : OrderedMap κ α} {k : κ} (h : m.contains k = false) (a : α) :
    (m.insert k a).values = m.values ++ [a] := by
  rw [values, entries_insert h, List.map_append]
  rfl

section OfList

variable {l before after : List (κ × α)} {m : OrderedMap κ α} {k : κ} {a : α}

theorem keys_foldl_insert {keys : List κ} (h : m.keys = keys.eraseDups) :
    (l.foldl (fun m e => m.insert e.1 e.2) m).keys = (keys ++ l.map (·.1)).eraseDups := by
  induction l generalizing m keys with
  | nil => simpa using h
  | cons e l ih => simpa using ih (keys_insert_eraseDups h e.1 e.2)

theorem get?_foldl_insert_of_not_mem (h : k ∉ l.map (·.1)) :
    (l.foldl (fun m e => m.insert e.1 e.2) m).get? k = m.get? k := by
  induction l generalizing m with
  | nil => rfl
  | cons e l ih =>
    rw [List.map_cons, List.mem_cons, not_or] at h
    rw [List.foldl_cons, ih h.2, get?_insert, if_neg h.1]

theorem keys_ofList (l : List (κ × α)) : (ofList l).keys = (l.map (·.1)).eraseDups := by
  have start : (empty : OrderedMap κ α).keys = [].eraseDups := by simp
  exact keys_foldl_insert start

theorem get?_ofList_of_last (last : k ∉ after.map (·.1)) :
    (ofList (before ++ (k, a) :: after)).get? k = some a := by
  rw [ofList, List.foldl_append, List.foldl_cons, get?_foldl_insert_of_not_mem last, get?_insert, if_pos rfl]

theorem exists_get?_ofList (here : k ∈ l.map (·.1)) (last : k ∉ after.map (·.1)) :
    ∃ a, (k, a) ∈ l ∧ ∀ before, (ofList (before ++ (l ++ after))).get? k = some a := by
  induction l with
  | nil => cases here
  | cons e l ih =>
    by_cases later : k ∈ l.map (·.1)
    · obtain ⟨a, ha, found⟩ := ih later
      exact ⟨a, List.mem_cons_of_mem _ ha, fun before => by simpa using found (before ++ [e])⟩
    · obtain rfl : k = e.1 := (List.mem_cons.1 here).resolve_right later
      have behind : e.1 ∉ (l ++ after).map (·.1) := by
        rw [List.map_append, List.mem_append, not_or]
        exact ⟨later, last⟩
      exact ⟨e.2, List.mem_cons_self .., fun before => get?_ofList_of_last behind⟩

end OfList

theorem of_mem_values_insert {m : OrderedMap κ α} {k : κ} {a b : α}
    (h : a ∈ (m.insert k b).values) : a = b ∨ a ∈ m.values := by
  obtain ⟨j, hj⟩ := (mem_values_iff _ _).1 h
  rw [get?_insert] at hj
  split at hj
  · exact .inl (Option.some.inj hj).symm
  · exact .inr ((mem_values_iff _ _).2 ⟨j, hj⟩)

theorem get?_modify (m : OrderedMap κ α) (k j : κ) (f : α → α) :
    (m.modify k f).get? j = if j = k then (m.get? k).map f else m.get? j := by
  unfold modify
  cases h : m.get? k with
  | none =>
    by_cases hj : j = k
    · simp [hj, h]
    · simp [hj]
  | some a => simp [get?_insert]

omit [DecidableEq κ] in
@[ext] theorem ext {m m' : OrderedMap κ α} (h : m.entries = m'.entries) : m = m' := by
  cases m
  cases m'
  cases h
  rfl

theorem modify_eq_mapValues (m : OrderedMap κ α) (k : κ) (f : α → α) :
    m.modify k f = m.mapValues fun j a => if j = k then f a else a := by
  apply ext
  unfold modify
  cases h : m.get? k with
  | some a => exact Entries.put_eq_map h m.nodup f
  | none =>
    have absent : ∀ e ∈ m.entries, e.1 ≠ k := by
      rintro ⟨j, a⟩ he rfl
      rw [mem_entries_iff, h] at he
      cases he
    have same : ∀ e ∈ m.entries, (e.1, if e.1 = k then f e.2 else e.2) = e := by
      intro e he
      rw [if_neg (absent e he)]
    change m.entries = m.entries.map fun e => (e.1, if e.1 = k then f e.2 else e.2)
    rw [List.map_congr_left same, List.map_id']

omit [DecidableEq κ] in
theorem mapValues_mapValues {γ : Type} (m : OrderedMap κ α) (f : κ → α → β) (g : κ → β → γ) :
    (m.mapValues f).mapValues g = m.mapValues fun k a => g k (f k a) := by
  simp [mapValues]

omit [DecidableEq κ] in
theorem mapValues_self (m : OrderedMap κ α) : (m.mapValues fun _ a => a) = m := by
  simp [mapValues]

theorem map_entries_modify (g : α → β) (m : OrderedMap κ α) (k : κ) {f : α → α}
    (hf : ∀ a, g (f a) = g a) :
    (m.modify k f).entries.map (Prod.map id g) = m.entries.map (Prod.map id g) := by
  unfold modify
  cases h : m.get? k with
  | none => rfl
  | some a => exact Entries.map_put_of_lookup g h (hf a)

omit [DecidableEq κ] in
@[simp] theorem keys_mapValues (m : OrderedMap κ α) (f : κ → α → β) :
    (m.mapValues f).keys = m.keys := by
  simp [keys, mapValues]

@[simp] theorem keys_modify (m : OrderedMap κ α) (k : κ) (f : α → α) : (m.modify k f).keys = m.keys := by
  rw [modify_eq_mapValues, keys_mapValues]

theorem get?_mapValues_eq_some {m : OrderedMap κ α} {f : κ → α → β} {k : κ} {b : β}
    (h : (m.mapValues f).get? k = some b) : ∃ a, m.get? k = some a ∧ b = f k a := by
  rw [← mem_entries_iff] at h
  obtain ⟨⟨j, a⟩, ha, heq⟩ := List.mem_map.1 h
  cases heq
  exact ⟨a, (mem_entries_iff _ _ _).1 ha, rfl⟩

end OrderedMap

end SchemaGraph
