import SchemaGraph.Proofs.Graph.Closed

/-! The header types are ordered unions.  The headers of all operations are gone through once, operation by
operation and inputs before outputs; three collections are filled on the way, and the graph is not touched
before the last header has been found. -/
namespace SchemaGraph

def Operation.headerUses (op : Operation) : List (String × String) :=
  (op.inputHeaders ++ op.outputHeaders).map fun name => (op.action, name.clark)

namespace TypeGraph

open Stateful

def headerUses (g : TypeGraph) : List (String × String) :=
  g.operations.values.flatMap Operation.headerUses

def KnowsHeader (g : TypeGraph) (key : String) : Prop := key ∈ g.skippedHeaders ∨ key ∈ g.elements.keys

instance (g : TypeGraph) (key : String) : Decidable (g.KnowsHeader key) :=
  inferInstanceAs (Decidable (_ ∨ _))

def firstUnknown (g : TypeGraph) (uses : List (String × String)) : Option (String × String) :=
  uses.find? fun use => ¬ g.KnowsHeader use.2

/-- `elements` has the headers that are not left out, each where it first occurs, as global elements. -/
structure Collects (g : TypeGraph) (headers : List String) (elements : ElementMap) : Prop where
  keys : elements.keys = (headers.filter (· ∉ g.skippedHeaders)).eraseDups
  global : ∀ key descriptor, elements.get? key = some descriptor → g.elements.get? key = some descriptor

/-- `left` has the headers that are left out, each with the first operation that uses it. -/
structure LeavesOut (g : TypeGraph) (uses : List (String × String)) (left : OrderedMap String String) :
    Prop where
  keys : left.keys = ((uses.map (·.2)).filter (· ∈ g.skippedHeaders)).eraseDups
  first : ∀ key action, left.get? key = some action → uses.find? (·.2 = key) = some (action, key)

theorem Collects.empty (g : TypeGraph) : g.Collects [] ∅ where
  keys := by simp [EmptyCollection.emptyCollection]
  global := by rintro _ _ ⟨⟩

theorem LeavesOut.empty (g : TypeGraph) : g.LeavesOut [] ∅ where
  keys := by simp [EmptyCollection.emptyCollection]
  first := by rintro _ _ ⟨⟩

variable {g g' : TypeGraph} {headers : List String} {elements target : ElementMap}
  {uses : List (String × String)} {left : OrderedMap String String} {action key : String}

theorem firstUnknown_eq_none_iff : g.firstUnknown uses = none ↔ ∀ use ∈ uses, g.KnowsHeader use.2 := by
  simp [firstUnknown]

theorem firstUnknown_append {uses' : List (String × String)} :
    g.firstUnknown (uses ++ uses') = (g.firstUnknown uses).or (g.firstUnknown uses') :=
  List.find?_append

section Step

theorem filter_concat {α : Type} (p : α → Bool) (l : List α) (a : α) :
    (l ++ [a]).filter p = if p a then l.filter p ++ [a] else l.filter p := by
  rw [List.filter_append, List.filter_cons, List.filter_nil]
  split <;> simp

theorem Collects.mem_keys_iff (h : g.Collects headers elements) :
    key ∈ elements.keys ↔ key ∈ headers ∧ key ∉ g.skippedHeaders := by
  rw [h.keys, List.mem_eraseDups, List.mem_filter, decide_eq_true_eq]

theorem Collects.skip (h : g.Collects headers elements) (skipped : key ∈ g.skippedHeaders) :
    g.Collects (headers ++ [key]) elements where
  keys := by rw [h.keys, filter_concat, if_neg (by simpa using skipped)]
  global := h.global

theorem Collects.again (h : g.Collects headers elements) (again : key ∈ elements.keys) :
    g.Collects (headers ++ [key]) elements where
  keys := by
    have seen := h.mem_keys_iff.1 again
    rw [h.keys, filter_concat, if_pos (by simpa using seen.2), eraseDups_append_singleton,
      if_pos (by simpa using seen)]
  global := h.global

theorem Collects.insert (h : g.Collects headers elements) (kept : key ∉ g.skippedHeaders)
    {descriptor : ElementDescriptor} (found : g.elements.get? key = some descriptor) :
    g.Collects (headers ++ [key]) (elements.insert key descriptor) where
  keys := by
    rw [filter_concat, if_pos (by simpa using kept)]
    exact OrderedMap.keys_insert_eraseDups h.keys key descriptor
  global := by
    intro other descriptor' at_other
    rw [OrderedMap.get?_insert] at at_other
    split at at_other
    · next same =>
      cases at_other
      exact same ▸ found
    · exact h.global other descriptor' at_other

theorem LeavesOut.keep (h : g.LeavesOut uses left) (kept : key ∉ g.skippedHeaders) :
    g.LeavesOut (uses ++ [(action, key)]) left where
  keys := by rw [List.map_append, List.map_singleton, filter_concat, if_neg (by simpa using kept), h.keys]
  first := fun other action' at_other => by
    rw [List.find?_append, h.first other action' at_other, Option.some_or]

theorem LeavesOut.mem_keys_iff (h : g.LeavesOut uses left) :
    key ∈ left.keys ↔ key ∈ uses.map (·.2) ∧ key ∈ g.skippedHeaders := by
  rw [h.keys, List.mem_eraseDups, List.mem_filter, decide_eq_true_eq]

theorem LeavesOut.again (h : g.LeavesOut uses left) (again : key ∈ left.keys) :
    g.LeavesOut (uses ++ [(action, key)]) left where
  keys := by
    have seen := h.mem_keys_iff.1 again
    rw [List.map_append, List.map_singleton, filter_concat, if_pos (by simpa using seen.2),
      eraseDups_append_singleton, if_pos (by simpa using seen), h.keys]
  first := fun other action' at_other => by
    rw [List.find?_append, h.first other action' at_other, Option.some_or]

theorem LeavesOut.insert (h : g.LeavesOut uses left) (skipped : key ∈ g.skippedHeaders)
    (new : key ∉ left.keys) : g.LeavesOut (uses ++ [(action, key)]) (left.insert key action) where
  keys := by
    rw [List.map_append, List.map_singleton, filter_concat, if_pos (by simpa using skipped)]
    exact OrderedMap.keys_insert_eraseDups h.keys key action
  first := by
    have unused : uses.find? (·.2 = key) = none := by
      rw [List.find?_eq_none]
      rintro ⟨action', other⟩ used same
      obtain rfl : other = key := by simpa using same
      exact new (h.mem_keys_iff.2 ⟨List.mem_map.2 ⟨_, used, rfl⟩, skipped⟩)
    intro other action' at_other
    rw [OrderedMap.get?_insert] at at_other
    rw [List.find?_append]
    split at at_other
    · next same =>
      subst same
      cases at_other
      rw [unused, Option.none_or]
      simp
    · rw [h.first other action' at_other, Option.some_or]

end Step

section Loop

def NamesUnknown (g : TypeGraph) (uses : List (String × String)) (e : ResolveError) : Prop :=
  ∃ action key, g.firstUnknown uses = some (action, key) ∧ e = .unknownHeader action key

theorem NamesUnknown.append {e : ResolveError} (h : g.NamesUnknown uses e) (rest : List (String × String)) :
    g.NamesUnknown (uses ++ rest) e := by
  obtain ⟨action, key, first, rfl⟩ := h
  exact ⟨action, key, by rw [firstUnknown_append, first, Option.some_or], rfl⟩

theorem NamesUnknown.prepend {e : ResolveError} {known : List (String × String)}
    (hk : g.firstUnknown known = none) (h : g.NamesUnknown uses e) : g.NamesUnknown (known ++ uses) e := by
  obtain ⟨action, key, first, rfl⟩ := h
  exact ⟨action, key, by rw [firstUnknown_append, hk, Option.none_or, first], rfl⟩

theorem addHeader_collects (hc : g.Collects headers target) (kept : key ∉ g.skippedHeaders) :
    Settles (g.addHeader action target key)
      (fun target => key ∈ g.elements.keys ∧ g.Collects (headers ++ [key]) target)
      fun e => key ∉ g.elements.keys ∧ e = .unknownHeader action key := by
  rw [OrderedMap.mem_keys_iff, OrderedMap.contains]
  unfold addHeader
  split
  · next again =>
    obtain ⟨descriptor, entered⟩ := Option.isSome_iff_exists.1 again
    rw [hc.global key descriptor entered]
    exact ⟨rfl, hc.again ((OrderedMap.mem_keys_iff _ _).2 again)⟩
  · split
    · next descriptor found => exact ⟨Option.isSome_of_mem found, hc.insert kept found⟩
    · next unknown => exact ⟨by simp [unknown], rfl⟩

theorem addHeaders_singleton (name : QName) (hc : g.Collects headers target) (hl : g.LeavesOut uses left) :
    Settles (g.addHeaders action [name] (target, left))
      (fun acc => g.firstUnknown [(action, name.clark)] = none ∧
        g.Collects (headers ++ [name.clark]) acc.1 ∧ g.LeavesOut (uses ++ [(action, name.clark)]) acc.2)
      (g.NamesUnknown [(action, name.clark)]) := by
  simp only [addHeaders, List.foldlM_cons, List.foldlM_nil, bind_pure]
  split
  · next skipped =>
    rw [List.contains_iff_mem] at skipped
    refine ⟨firstUnknown_eq_none_iff.2 (by simp [KnowsHeader, skipped]), hc.skip skipped, ?_⟩
    split
    · next again => exact hl.again ((OrderedMap.mem_keys_iff _ _).2 again)
    · next new => exact hl.insert skipped (by rwa [OrderedMap.mem_keys_iff])
  · next kept =>
    rw [List.contains_iff_mem] at kept
    refine Settles.bind ((addHeader_collects hc kept).mono (fun _ h => h) ?_) fun _ h => ?_
    · rintro _ ⟨unknown, rfl⟩
      exact ⟨action, name.clark, by simp [firstUnknown, KnowsHeader, kept, unknown], rfl⟩
    · exact ⟨firstUnknown_eq_none_iff.2 (by simp [KnowsHeader, h.1]), h.2, hl.keep kept⟩

theorem addHeaders_collects (names : List QName) (hc : g.Collects headers target)
    (hl : g.LeavesOut uses left) :
    Settles (g.addHeaders action names (target, left))
      (fun acc => g.firstUnknown (names.map fun name => (action, name.clark)) = none ∧
        g.Collects (headers ++ names.map QName.clark) acc.1 ∧
        g.LeavesOut (uses ++ names.map fun name => (action, name.clark)) acc.2)
      (g.NamesUnknown (names.map fun name => (action, name.clark))) := by
  induction names generalizing headers target uses left with
  | nil => exact ⟨rfl, by simpa using hc, by simpa using hl⟩
  | cons name rest ih =>
    have step : g.addHeaders action (name :: rest) (target, left) =
        g.addHeaders action [name] (target, left) >>= g.addHeaders action rest :=
      List.foldlM_append (l := [name])
    rw [step, List.map_cons, List.map_cons]
    refine Settles.bind ((addHeaders_singleton name hc hl).mono (fun _ h => h) fun e h => h.append _) ?_
    rintro ⟨target, left⟩ ⟨known, hc, hl⟩
    refine (ih hc hl).mono (fun acc h => ?_) fun e h => h.prepend known
    refine ⟨by rw [← List.singleton_append, firstUnknown_append, known, Option.none_or, h.1], ?_, ?_⟩
    · simpa using h.2.1
    · simpa using h.2.2

def joinHeaders (g : TypeGraph) (u : HeaderUnion) (op : Operation) : Except ResolveError HeaderUnion := do
  let (request, skipped) ← g.addHeaders op.action op.inputHeaders (u.request, u.skipped)
  let (response, skipped) ← g.addHeaders op.action op.outputHeaders (u.response, skipped)
  return ⟨request, response, skipped⟩

theorem headerUnion_eq_foldlM (g : TypeGraph) :
    g.headerUnion = g.operations.values.foldlM g.joinHeaders ⟨∅, ∅, ∅⟩ := rfl

structure Joins (g : TypeGraph) (operations : List Operation) (u : HeaderUnion) : Prop where
  request : g.Collects ((operations.flatMap (·.inputHeaders)).map QName.clark) u.request
  response : g.Collects ((operations.flatMap (·.outputHeaders)).map QName.clark) u.response
  skipped : g.LeavesOut (operations.flatMap Operation.headerUses) u.skipped

theorem joinHeaders_joins (op : Operation) {operations : List Operation} {u : HeaderUnion}
    (hu : g.Joins operations u) :
    Settles (g.joinHeaders u op)
      (fun u => g.firstUnknown op.headerUses = none ∧ g.Joins (operations ++ [op]) u)
      (g.NamesUnknown op.headerUses) := by
  have own : op.headerUses = op.inputHeaders.map (fun name => (op.action, name.clark)) ++
      op.outputHeaders.map fun name => (op.action, name.clark) := List.map_append
  rw [own, firstUnknown_append]
  refine Settles.bind ((addHeaders_collects op.inputHeaders hu.request hu.skipped).mono (fun _ h => h)
    fun e h => h.append _) ?_
  rintro ⟨request, skipped⟩ ⟨knownIn, hrequest, hskipped⟩
  refine Settles.bind ((addHeaders_collects op.outputHeaders hu.response hskipped).mono (fun _ h => h)
    fun e h => h.prepend knownIn) ?_
  rintro ⟨response, skipped⟩ ⟨knownOut, hresponse, hskipped⟩
  refine ⟨by rw [knownIn, knownOut, Option.none_or], ?_, ?_, ?_⟩
  · simpa using hrequest
  · simpa using hresponse
  · simpa [own] using hskipped

theorem foldlM_joinHeaders (rest : List Operation) {operations : List Operation} {u : HeaderUnion}
    (hu : g.Joins operations u) :
    Settles (rest.foldlM g.joinHeaders u)
      (fun u => g.firstUnknown (rest.flatMap Operation.headerUses) = none ∧ g.Joins (operations ++ rest) u)
      (g.NamesUnknown (rest.flatMap Operation.headerUses)) := by
  induction rest generalizing operations u with
  | nil => exact ⟨rfl, by simpa using hu⟩
  | cons op rest ih =>
    rw [List.foldlM_cons, List.flatMap_cons, firstUnknown_append]
    refine Settles.bind ((joinHeaders_joins op hu).mono (fun _ h => h) fun e h => h.append _) ?_
    rintro u ⟨known, hu⟩
    refine (ih hu).mono (fun u h => ⟨?_, ?_⟩) fun e h => h.prepend known
    · rw [known, Option.none_or, h.1]
    · simpa using h.2

theorem headerUnion_joins (g : TypeGraph) :
    Settles g.headerUnion (fun u => g.firstUnknown g.headerUses = none ∧ g.Joins g.operations.values u)
      (g.NamesUnknown g.headerUses) := by
  rw [headerUnion_eq_foldlM]
  have none : g.Joins [] ⟨∅, ∅, ∅⟩ := ⟨.empty g, .empty g, .empty g⟩
  exact foldlM_joinHeaders g.operations.values none

end Loop

theorem yields_reserveHeaders_iff {name : QName} {id : TypeId} :
    Yields (reserveHeaders name elements) g id g' ↔
      ∃ r, g.types.reserve? { name, elements } = some (id, r) ∧ g' = { g with types := r } := by
  refine ⟨(reserveHeaders_ends g name elements).answer, ?_⟩
  rintro ⟨r, entered, rfl⟩
  rw [yields_iff_ends, reserveHeaders, ends_bind, ends_get, entered]
  exact ⟨rfl, rfl⟩

def withHeaders (g : TypeGraph) (types : Registry) (request response : TypeId)
    (left : OrderedMap String String) : TypeGraph :=
  { g with
    types
    requestHeaders := some request
    responseHeaders := some response
    diagnostics := g.diagnostics ++ left.entries.map skippedHeader }

theorem yields_aggregateHeaders_iff :
    Yields aggregateHeaders g () g' ↔ ∃ u request response types types', g.headerUnion = .ok u ∧
      g.types.reserve? { name := requestHeadersName, elements := u.request } = some (request, types) ∧
      types.reserve? { name := responseHeadersName, elements := u.response } = some (response, types') ∧
      g' = g.withHeaders types' request response u.skipped := by
  simp only [aggregateHeaders, yields_bind, yields_get, yields_ofExcept, yields_modify,
    yields_reserveHeaders_iff]
  constructor
  · rintro ⟨_, _, ⟨rfl, rfl⟩, u, _, ⟨collected, rfl⟩, _, _, rfl, request, _, ⟨types, entered, rfl⟩, _, _,
      rfl, response, _, ⟨types', entered', rfl⟩, rfl⟩
    exact ⟨u, request, response, types, types', collected, entered, entered', rfl⟩
  · rintro ⟨u, request, response, types, types', collected, entered, entered', rfl⟩
    exact ⟨_, _, ⟨rfl, rfl⟩, u, _, ⟨collected, rfl⟩, (), _, rfl, request, _, ⟨types, entered, rfl⟩, (), _,
      rfl, response, _, ⟨types', entered', rfl⟩, rfl⟩

def headerKeys (g : TypeGraph) (type : Option TypeId) : List String :=
  ((type.bind g.types.get?).map (·.elements.keys)).getD []

theorem headerKeys_of_reserve {r types : Registry} {t : TypeEntry} {id : TypeId} {rest : List TypeEntry}
    (entered : r.reserve? t = some (id, types)) (entries : g'.types.entries = types.entries ++ rest) :
    g'.headerKeys (some id) = t.elements.keys := by
  obtain ⟨-, rfl, own⟩ := Registry.of_reserve?_eq_some entered
  simp [headerKeys, Registry.get?, Registry.size, entries, own]

theorem mem_headerKeys_iff (h : Yields aggregateHeaders g () g') {op : Operation} (listed : op ∈ g.operations.values) :
    (∀ header ∈ op.inputHeaders,
      header.clark ∈ g'.headerKeys g'.requestHeaders ↔ header.clark ∉ g.skippedHeaders) ∧
    ∀ header ∈ op.outputHeaders,
      header.clark ∈ g'.headerKeys g'.responseHeaders ↔ header.clark ∉ g.skippedHeaders := by
  obtain ⟨u, request, response, types, types', collected, entered, entered', rfl⟩ := yields_aggregateHeaders_iff.1 h
  obtain ⟨-, hu⟩ := (headerUnion_joins g).answer collected
  have later := (Registry.of_reserve?_eq_some entered').2.2
  have used {headers : Operation → List QName} {header : QName} (here : header ∈ headers op) :
      header.clark ∈ (g.operations.values.flatMap headers).map QName.clark :=
    List.mem_map_of_mem (List.mem_flatMap.2 ⟨op, listed, here⟩)
  constructor
  · intro header here
    change _ ∈ headerKeys _ (some request) ↔ _
    rw [headerKeys_of_reserve entered later, hu.request.mem_keys_iff]
    exact and_iff_right (used here)
  · intro header here
    change _ ∈ headerKeys _ (some response) ↔ _
    rw [headerKeys_of_reserve entered' (List.append_nil _).symm, hu.response.mem_keys_iff]
    exact and_iff_right (used here)

end TypeGraph

end SchemaGraph
