import SchemaGraph.Proofs.Resolution.Growth

/-! Handles lead to entries.  The invariant covers half-filled entries too, so that it holds in the middle
of a recursion and after a fault. -/
namespace SchemaGraph

def TypeEntry.handles (t : TypeEntry) : List TypeId :=
  t.elements.values.map (·.typeId) ++ t.attributes.values.filterMap id ++ t.listItem.toList

namespace Registry

/-- Every handle in the entries leads to an entry. -/
def Closed (r : Registry) : Prop := ∀ t ∈ r.entries, ∀ id ∈ t.handles, r.Has id

def Covers (r : Registry) (elements : ElementMap) : Prop := ∀ d ∈ elements.values, r.Has d.typeId

variable {r r' : Registry} {elements : ElementMap}

theorem covers_empty (r : Registry) : r.Covers ∅ := by
  intro d hd
  cases hd

theorem Covers.mono (h : r.Covers elements) (hr : ∀ id, r.Has id → r'.Has id) :
    r'.Covers elements := fun d hd => hr _ (h d hd)

theorem Covers.get? {key : String} {d : ElementDescriptor} (h : r.Covers elements)
    (hd : elements.get? key = some d) : r.Has d.typeId :=
  h d ((OrderedMap.mem_values_iff _ _).2 ⟨key, hd⟩)

theorem Covers.insert {key : String} {d : ElementDescriptor} (h : r.Covers elements)
    (hd : r.Has d.typeId) : r.Covers (elements.insert key d) := by
  intro d' hd'
  rcases OrderedMap.of_mem_values_insert hd' with rfl | hd'
  · exact hd
  · exact h d' hd'

theorem Covers.modify {key : String} {f : ElementDescriptor → ElementDescriptor}
    (h : r.Covers elements) (hf : ∀ d, (f d).typeId = d.typeId) :
    r.Covers (elements.modify key f) := by
  intro d' hd'
  obtain ⟨k, hk⟩ := (OrderedMap.mem_values_iff _ _).1 hd'
  rw [OrderedMap.get?_modify] at hk
  split at hk
  · obtain ⟨d, hd, rfl⟩ := Option.map_eq_some_iff.1 hk
    rw [hf]
    exact h.get? hd
  · exact h.get? hk

end Registry

theorem TypeEntry.forall_handles {t : TypeEntry} {r : Registry} :
    (∀ id ∈ t.handles, r.Has id) ↔
      r.Covers t.elements ∧ (∀ id, some id ∈ t.attributes.values → r.Has id) ∧
        ∀ id, t.listItem = some id → r.Has id := by
  simp only [handles, List.mem_append, List.mem_map, List.mem_filterMap, id_eq,
    Option.mem_toList, exists_eq_right, Registry.Covers]
  constructor
  · intro h
    exact ⟨fun d hd => h _ (.inl (.inl ⟨d, hd, rfl⟩)), fun id hid => h id (.inl (.inr hid)),
      fun id hid => h id (.inr hid)⟩
  · rintro ⟨helements, hattributes, hitem⟩ id ((⟨d, hd, rfl⟩ | hid) | hid)
    · exact helements d hd
    · exact hattributes id hid
    · exact hitem id hid

namespace Registry

variable {r r' : Registry}

theorem closed_empty : Registry.empty.Closed := fun _ ht => absurd ht List.not_mem_nil

theorem Closed.reserve {t : TypeEntry} {id : TypeId} (h : r.Closed)
    (ht : ∀ id ∈ t.handles, r.Has id) (hr : r.reserve? t = some (id, r')) : r'.Closed := by
  have entries := (of_reserve?_eq_some hr).2.2
  intro t' ht' i hi
  have old : r.Has i := by
    rw [entries] at ht'
    rcases List.mem_append.1 ht' with ht' | ht'
    · exact h t' ht' i hi
    · obtain rfl := List.mem_singleton.1 ht'
      exact ht i hi
  exact has_reserve hr old

theorem of_mem_entries_modify {id : TypeId} {f : TypeEntry → TypeEntry}
    (keeps : ∀ t, (f t).key = t.key) {t : TypeEntry} (h : t ∈ (r.modify id f keeps).entries) :
    t ∈ r.entries ∨ ∃ t₀ ∈ r.entries, t = f t₀ := by
  obtain ⟨i, hi⟩ := List.mem_iff_getElem?.1 h
  simp only [modify, List.getElem?_modify] at hi
  obtain ⟨t₀, ht₀, rfl⟩ := Option.map_eq_some_iff.1 hi
  have mem : t₀ ∈ r.entries := List.mem_of_getElem? ht₀
  split
  · exact .inr ⟨t₀, mem, rfl⟩
  · exact .inl mem

theorem Closed.modify {id : TypeId} {f : TypeEntry → TypeEntry} (h : r.Closed)
    (keeps : ∀ t, (f t).key = t.key)
    (hf : ∀ t, (∀ id ∈ t.handles, r.Has id) → ∀ id ∈ (f t).handles, r.Has id) :
    (r.modify id f keeps).Closed := by
  intro t ht i hi
  rw [has_modify]
  rcases of_mem_entries_modify keeps ht with ht | ⟨t₀, ht₀, rfl⟩
  · exact h t ht i hi
  · exact hf t₀ (h t₀ ht₀) i hi

end Registry

def QName.IsSynthesized (name : QName) : Prop :=
  ∃ element : QName, name = ⟨none, element.localName ++ "AnonType"⟩

/-- What holds of every state of resolution, in the middle of a recursion as well as after a fault. -/
structure ResolveState.Sound (c : ResolveContext) (s : ResolveState) : Prop where
  closed : s.types.Closed
  covers : s.types.Covers s.elements
  named : ∀ t ∈ s.types.entries, c.isKnown t.name = true ∨ t.name.IsSynthesized
  anonymous : ∀ p ∈ s.anonymous, s.types.Has p.1
  /-- An entry belongs to one site at most. -/
  sites : (s.anonymous.map Prod.fst).Nodup

namespace ResolveState.Sound

variable {c : ResolveContext} {s : ResolveState}

theorem empty (c : ResolveContext) : ResolveState.empty.Sound c where
  closed := Registry.closed_empty
  covers := Registry.covers_empty _
  named := fun _ ht => absurd ht List.not_mem_nil
  anonymous := fun _ hp => absurd hp List.not_mem_nil
  sites := List.nodup_nil

theorem diagnose (h : s.Sound c) (d : Diagnostic) :
    Sound c { s with diagnostics := s.diagnostics ++ [d] } :=
  ⟨h.closed, h.covers, h.named, h.anonymous, h.sites⟩

theorem skip (h : s.Sound c) (keys : List String) : Sound c { s with skippedHeaders := keys } :=
  ⟨h.closed, h.covers, h.named, h.anonymous, h.sites⟩

theorem recordAnonymous (h : s.Sound c) {id : TypeId} {site : Site} (hid : s.types.Has id)
    (hnew : ∀ p ∈ s.anonymous, p.1 ≠ id) :
    Sound c { s with anonymous := (id, site) :: s.anonymous } where
  closed := h.closed
  covers := h.covers
  named := h.named
  anonymous := by
    intro p hp
    rcases List.mem_cons.1 hp with rfl | hp
    · exact hid
    · exact h.anonymous p hp
  sites := by
    refine List.nodup_cons.2 ⟨fun hm => ?_, h.sites⟩
    obtain ⟨p, hp, hpid⟩ := List.mem_map.1 hm
    exact hnew p hp hpid

theorem reserve (h : s.Sound c) {name : QName} {isAbstract : Bool} {id : TypeId} {r : Registry}
    (hname : c.isKnown name = true ∨ name.IsSynthesized)
    (hr : s.types.reserve? { name, isAbstract } = some (id, r)) : Sound c { s with types := r } := by
  have entries := (Registry.of_reserve?_eq_some hr).2.2
  have grows : ∀ id, s.types.Has id → r.Has id := fun _ => Registry.has_reserve hr
  refine ⟨h.closed.reserve (fun _ hi => absurd hi List.not_mem_nil) hr, h.covers.mono grows, ?_,
    fun p hp => grows _ (h.anonymous p hp), h.sites⟩
  intro t ht
  rw [entries] at ht
  rcases List.mem_append.1 ht with ht | ht
  · exact h.named t ht
  · obtain rfl := List.mem_singleton.1 ht
    exact hname

theorem modify (h : s.Sound c) {id : TypeId} {f : TypeEntry → TypeEntry}
    (keeps : ∀ t, (f t).key = t.key) (head : ∀ t, (f t).head = t.head)
    (hf : ∀ t, (∀ id ∈ t.handles, s.types.Has id) → ∀ id ∈ (f t).handles, s.types.Has id) :
    Sound c { s with types := s.types.modify id f keeps } := by
  have same : ∀ i, s.types.Has i → (s.types.modify id f keeps).Has i := fun _ =>
    (Registry.has_modify keeps).2
  refine ⟨h.closed.modify keeps hf, h.covers.mono same, ?_, fun p hp => same _ (h.anonymous p hp),
    h.sites⟩
  intro t ht
  rcases Registry.of_mem_entries_modify keeps ht with ht | ⟨t₀, ht₀, rfl⟩
  · exact h.named t ht
  · have name : (f t₀).name = t₀.name := congrArg Prod.fst (head t₀)
    rw [name]
    exact h.named t₀ ht₀

end ResolveState.Sound

end SchemaGraph
