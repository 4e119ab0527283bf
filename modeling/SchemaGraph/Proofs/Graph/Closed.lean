import SchemaGraph.Compile
import SchemaGraph.Proofs.Graph.Corrections
import SchemaGraph.Proofs.Resolution.Requests

/-! Handles of a graph lead to entries: when the resolver hands it over, and through the steps that come
after, in any order and whether they fail or not. -/
namespace SchemaGraph

open Stateful

structure TypeGraph.Closed (g : TypeGraph) : Prop where
  types : g.types.Closed
  elements : g.types.Covers g.elements
  request : ∀ id, g.requestHeaders = some id → g.types.Has id
  response : ∀ id, g.responseHeaders = some id → g.types.Has id

theorem TypeEntry.exists_finish_eq (t : TypeEntry) : ∃ text, t.finish = { t with textAttribute := text } := by
  unfold finish
  split
  · exact ⟨_, rfl⟩
  · exact ⟨t.textAttribute, rfl⟩

theorem TypeEntry.handles_finish (t : TypeEntry) : t.finish.handles = t.handles := by
  obtain ⟨text, finished⟩ := t.exists_finish_eq
  rw [finished]
  rfl

theorem Registry.has_finish {r : Registry} {id : TypeId} : r.finish.Has id ↔ r.Has id := by
  simp [Has, size, finish]

theorem Registry.Closed.finish {r : Registry} (h : r.Closed) : r.finish.Closed := by
  intro t ht id hid
  obtain ⟨t₀, ht₀, rfl⟩ := List.mem_map.1 ht
  rw [TypeEntry.handles_finish] at hid
  exact has_finish.2 (h t₀ ht₀ id hid)

theorem ResolveState.Sound.graph {c : ResolveContext} {s : ResolveState} (h : s.Sound c) :
    s.graph.Closed where
  types := h.closed.finish
  elements := h.covers.mono fun _ => Registry.has_finish.2
  request := by rintro _ ⟨⟩
  response := by rintro _ ⟨⟩

namespace TypeGraph.Closed

variable {g : TypeGraph}

theorem operations (h : g.Closed) (operations : OrderedMap String Operation) :
    Closed { g with operations } :=
  ⟨h.types, h.elements, h.request, h.response⟩

theorem diagnose (h : g.Closed) (diagnostics : List Diagnostic) : Closed { g with diagnostics } :=
  ⟨h.types, h.elements, h.request, h.response⟩

theorem withRequest (h : g.Closed) {id : TypeId} (hid : g.types.Has id) :
    Closed { g with requestHeaders := some id } :=
  ⟨h.types, h.elements, fun _ hi => Option.some.inj hi ▸ hid, h.response⟩

theorem withResponse (h : g.Closed) {id : TypeId} (hid : g.types.Has id) :
    Closed { g with responseHeaders := some id } :=
  ⟨h.types, h.elements, h.request, fun _ hi => Option.some.inj hi ▸ hid⟩

theorem of_types {r : Registry} (h : g.Closed) (hr : r.Closed) (grows : ∀ id, g.types.Has id → r.Has id) :
    Closed { g with types := r } :=
  ⟨hr, h.elements.mono grows, fun id hid => grows id (h.request id hid),
    fun id hid => grows id (h.response id hid)⟩

theorem modify (h : g.Closed) {id : TypeId} {f : TypeEntry → TypeEntry}
    (keeps : ∀ t, (f t).key = t.key)
    (hf : ∀ t, (∀ id ∈ t.handles, g.types.Has id) → ∀ id ∈ (f t).handles, g.types.Has id) :
    Closed { g with types := g.types.modify id f keeps } :=
  h.of_types (h.types.modify keeps hf) fun _ => (Registry.has_modify keeps).2

theorem reserve (h : g.Closed) {t : TypeEntry} {id : TypeId} {r : Registry}
    (ht : ∀ id ∈ t.handles, g.types.Has id) (hr : g.types.reserve? t = some (id, r)) :
    Closed { g with types := r } :=
  h.of_types (h.types.reserve ht hr) fun _ => Registry.has_reserve hr

end TypeGraph.Closed

section Headers

variable {g : TypeGraph}

def ResolveError.IsUnknownHeader (e : ResolveError) : Prop :=
  ∃ operation element, e = .unknownHeader operation element

theorem addHeaders_settles (h : g.Closed) (action : String) (headers : List QName)
    (acc : ElementMap × OrderedMap String String) (hacc : g.types.Covers acc.1) :
    Settles (g.addHeaders action headers acc) (fun acc => g.types.Covers acc.1)
      ResolveError.IsUnknownHeader := by
  unfold TypeGraph.addHeaders
  refine Settles.foldlM hacc fun header _ acc hacc => ?_
  obtain ⟨target, skipped⟩ := acc
  dsimp only
  split
  · exact hacc
  · refine Settles.bind (Q := fun target => g.types.Covers target) ?_ fun _ ht => ht
    unfold TypeGraph.addHeader
    split
    · exact hacc
    · split
      · next descriptor hd => exact hacc.insert (h.elements.get? hd)
      · exact ⟨_, _, rfl⟩

theorem headerUnion_settles (h : g.Closed) :
    Settles g.headerUnion (fun u => g.types.Covers u.request ∧ g.types.Covers u.response)
      ResolveError.IsUnknownHeader := by
  unfold TypeGraph.headerUnion
  refine Settles.foldlM ⟨Registry.covers_empty _, Registry.covers_empty _⟩ fun op _ u hu => ?_
  refine (addHeaders_settles h op.action op.inputHeaders _ hu.1).bind fun request hr => ?_
  refine (addHeaders_settles h op.action op.outputHeaders (u.response, request.2) hu.2).bind ?_
  exact fun response hp => ⟨hr, hp⟩

theorem reserveHeaders_ends (g : TypeGraph) (name : QName) (elements : ElementMap) :
    Ends (TypeGraph.reserveHeaders name elements) g
      (fun id g' => ∃ r, g.types.reserve? { name, elements } = some (id, r) ∧ g' = { g with types := r })
      fun _ g' => g' = g ∧ (g.types.lookup name.clark).isSome = true := by
  unfold TypeGraph.reserveHeaders
  rw [ends_bind, ends_get]
  cases hr : g.types.reserve? { name, elements } with
  | none => exact ⟨rfl, Registry.reserve?_eq_none_iff.1 hr⟩
  | some p => exact ⟨p.2, rfl, rfl⟩

theorem aggregateHeaders_keeps {I : TypeGraph → Prop}
    (enter : ∀ g name elements id r, I g → g.types.reserve? { name, elements } = some (id, r) → I { g with types := r })
    (frame : ∀ g diagnostics request response, I g →
      I { g with diagnostics, requestHeaders := request, responseHeaders := response }) :
    Keeps I TypeGraph.aggregateHeaders := by
  have reserve (name : QName) (elements : ElementMap) : Keeps I (TypeGraph.reserveHeaders name elements) := by
    intro g hg
    refine (reserveHeaders_ends g name elements).mono ?_ fun _ _ h => h.1 ▸ hg
    rintro id _ ⟨r, entered, rfl⟩
    exact enter g name elements id r hg entered
  refine .bind_get fun _ => .bind (.ofExcept _) fun union => .bind (.modify fun g hg => ?_) fun _ => ?_
  · exact frame g _ g.requestHeaders g.responseHeaders hg
  refine .bind (reserve _ _) fun request => .bind (.modify fun g hg => ?_) fun _ => ?_
  · exact frame g g.diagnostics _ g.responseHeaders hg
  refine .bind (reserve _ _) fun response => .modify fun g hg => ?_
  exact frame g g.diagnostics g.requestHeaders _ hg

theorem handles_headers (name : QName) (elements : ElementMap) :
    TypeEntry.handles { name, elements } = elements.values.map (·.typeId) := by
  simp [TypeEntry.handles, OrderedMap.values, EmptyCollection.emptyCollection, OrderedMap.empty]

theorem lookup_of_reserve {name other : QName} {elements : ElementMap} {id : TypeId} {r : Registry}
    (hr : g.types.reserve? { name, elements } = some (id, r)) (hne : other.clark ≠ name.clark)
    (h : (r.lookup other.clark).isSome = true) : (g.types.lookup other.clark).isSome = true := by
  rw [Registry.isSome_lookup_iff] at h ⊢
  rw [(Registry.of_reserve?_eq_some hr).2.2, List.map_append, List.mem_append] at h
  rcases h with h | h
  · exact h
  · exact absurd (List.mem_singleton.1 h) hne

theorem aggregateHeaders_ends (h : g.Closed) :
    Ends TypeGraph.aggregateHeaders g (fun _ g' => g'.Closed) fun e g' => g'.Closed ∧
      (e.IsUnknownHeader ∨ (g.types.lookup TypeGraph.requestHeadersName.clark).isSome = true ∨
        (g.types.lookup TypeGraph.responseHeadersName.clark).isSome = true) := by
  have covered : ∀ {types : Registry} {elements : ElementMap} {name : QName},
      types.Covers elements → ∀ id ∈ TypeEntry.handles { name, elements }, types.Has id := by
    intro types elements name he id hid
    rw [handles_headers] at hid
    obtain ⟨d, hd, rfl⟩ := List.mem_map.1 hid
    exact he d hd
  unfold TypeGraph.aggregateHeaders
  rw [ends_bind, ends_get, ends_bind, ends_ofExcept]
  refine (headerUnion_settles h).mono ?_ fun e he => ⟨h, .inl he⟩
  rintro union ⟨hrequest, hresponse⟩
  have h₀ := h.diagnose (g.diagnostics ++ union.skipped.entries.map TypeGraph.skippedHeader)
  rw [ends_bind, ends_modify, ends_bind]
  refine (reserveHeaders_ends _ _ _).mono ?_ ?_
  · rintro request g₁ ⟨r, hr, rfl⟩
    have h₁ := h₀.reserve (covered hrequest) hr
    have grows : ∀ id, g.types.Has id → r.Has id := fun _ => Registry.has_reserve hr
    rw [ends_bind, ends_modify, ends_bind]
    have h₂ := h₁.withRequest (Registry.has_of_reserve hr)
    refine (reserveHeaders_ends _ _ _).mono ?_ ?_
    · rintro response g₂ ⟨r', hr', rfl⟩
      rw [ends_modify]
      have h₃ := h₂.reserve (covered (hresponse.mono grows)) hr'
      exact h₃.withResponse (Registry.has_of_reserve hr')
    · rintro e g₂ ⟨rfl, he⟩
      exact ⟨h₂, .inr (.inr (lookup_of_reserve hr (by decide) he))⟩
  · rintro e g₁ ⟨rfl, he⟩
    exact ⟨h₀, .inr (.inl he)⟩

end Headers

theorem correct_closed (table : OverrideTable) : Keeps TypeGraph.Closed (TypeGraph.correct table) :=
  correct_keeps (fun _ _ _ keeps hg hf => hg.modify keeps hf) (fun _ _ _ _ hg _ _ => hg.operations _)
    table

/-- The steps between resolution and the finished graph. -/
inductive Stage
  | operations (operations : OrderedMap String Operation)
  | headers
  | corrections (table : OverrideTable)

def Stage.apply : Stage → TypeGraph → TypeGraph
  | .operations entries, g => { g with operations := entries }
  | .headers, g => (exec TypeGraph.aggregateHeaders g).2
  | .corrections table, g => (exec (TypeGraph.correct table) g).2

theorem TypeGraph.Closed.apply {g : TypeGraph} (h : g.Closed) (stage : Stage) :
    (stage.apply g).Closed := by
  cases stage with
  | operations operations => exact h.operations operations
  | headers => exact Ends.left ((aggregateHeaders_ends h).mono (fun _ _ h => h) fun _ _ h => h.1)
  | corrections table => exact Ends.left (correct_closed table g h)

theorem TypeGraph.Closed.foldl_apply {g : TypeGraph} (h : g.Closed) (stages : List Stage) :
    (stages.foldl (fun g stage => stage.apply g) g).Closed := by
  induction stages generalizing g with
  | nil => exact h
  | cons stage rest ih => exact ih (h.apply stage)

section Compile

variable {c : ResolveContext} {s : ResolveState}

theorem clark_ne_of_isKnown {name : QName} {key : String} (h : c.isKnown name = true)
    (hkey : key.toList.head? ≠ some '{') : name.clark ≠ key := by
  obtain ⟨uri, localName⟩ := name
  cases uri with
  | none => simp [ResolveContext.isKnown] at h
  | some uri =>
    rintro rfl
    exact hkey (by simp [QName.clark])

theorem clark_ne_of_isSynthesized {name : QName} {key : String} (h : name.IsSynthesized)
    (hkey : key.toList.getLast? ≠ some 'e') : name.clark ≠ key := by
  obtain ⟨element, rfl⟩ := h
  rintro rfl
  exact hkey (by simp [QName.clark])

theorem ResolveState.Sound.lookup_eq_none (h : s.Sound c) {key : String}
    (hhead : key.toList.head? ≠ some '{') (hlast : key.toList.getLast? ≠ some 'e') :
    s.graph.types.lookup key = none := by
  rw [Registry.lookup_eq_none_iff]
  intro hmem
  obtain ⟨t, ht, hkey⟩ := List.mem_map.1 hmem
  obtain ⟨t₀, ht₀, rfl⟩ := List.mem_map.1 ht
  rw [TypeEntry.key_finish] at hkey
  rcases h.named t₀ ht₀ with hn | hn
  · exact clark_ne_of_isKnown hn hhead hkey
  · exact clark_ne_of_isSynthesized hn hlast hkey

theorem graph_settles (c : ResolveContext) :
    Settles c.graph (fun g => ∃ s : ResolveState, s.Sound c ∧ g = s.graph) ResolveError.OfInput := by
  have work : Serves c ResolveError.OfInput (c.resolvePlaceholders >>= fun _ => c.resolveAll) .empty
      fun _ _ => True :=
    Serves.bind (ResolveContext.resolvePlaceholders_serves (.empty c)) fun _ t ht _ =>
      ResolveContext.resolveAll_serves (Scope.allows_ofInput _) ht
  refine Settles.map_iff.2 (settles_result (Ends.mono work ?_ fun _ _ h => h.2.2))
  exact fun _ s h => ⟨s, h.2.1, rfl⟩

theorem compile_settles (set : DeclarationSet) (operations : List Operation)
    (overrides : OverrideTable) (options : ResolveOptions) :
    Settles (compile set operations overrides options) TypeGraph.Closed
      fun e => ∀ f, e = .resolve f → f.OfInput ∨ f.IsUnknownHeader := by
  unfold compile
  refine Settles.bind (Q := fun g => ∃ s : ResolveState, s.Sound _ ∧ g = s.graph)
    (Settles.mapError_iff.2 ((graph_settles _).mono (fun _ h => h) ?_)) ?_
  · rintro e he _ ⟨⟩
    exact .inl he
  rintro _ ⟨s, hs, rfl⟩
  have closed : (s.graph.addOperations operations).Closed := hs.graph.operations _
  refine Settles.bind (Q := TypeGraph.Closed) (Settles.mapError_iff.2 (settles_result
    ((aggregateHeaders_ends closed).mono (fun _ _ h => h) ?_))) ?_
  · rintro e g ⟨-, he⟩ _ ⟨⟩
    have request : s.graph.types.lookup TypeGraph.requestHeadersName.clark = none :=
      hs.lookup_eq_none (by decide) (by decide)
    have response : s.graph.types.lookup TypeGraph.responseHeadersName.clark = none :=
      hs.lookup_eq_none (by decide) (by decide)
    rcases he with he | he | he
    · exact .inr he
    · rw [show (s.graph.addOperations operations).types = s.graph.types from rfl, request] at he
      cases he
    · rw [show (s.graph.addOperations operations).types = s.graph.types from rfl, response] at he
      cases he
  intro g hg
  refine Settles.bind (Q := TypeGraph.Closed) (Settles.mapError_iff.2 (settles_result ?_)) ?_
  · exact (correct_closed overrides g hg).mono (fun _ _ h => h) fun _ _ _ => nofun
  intro g hg
  refine Settles.bind (Q := fun _ => True) (Settles.mapError_iff.2 ?_) fun _ _ => hg
  cases g.check with
  | ok _ => trivial
  | error e => rintro _ ⟨⟩

/-- Whatever a resolver has been asked for, and whatever becomes of its graph afterwards, keys are
distinct and lead to their entries, and handles lead to entries.  A further request ends with the handle
of an entry or with a fault of the declarations or the tables, and no name is ever entered twice. -/
theorem handles_lead_to_entries (c : ResolveContext) (requests : List Request) (stages : List Stage) :
    let s := c.stateAfter requests
    let g := stages.foldl (fun g stage => stage.apply g) s.graph
    (g.types.entries.map TypeEntry.key).Nodup ∧
      (∀ key id, g.types.lookup key = some id ↔ id.index < g.types.size ∧ g.types.keyOf id = key) ∧
      g.Closed ∧
      (∀ t ∈ s.types.entries, c.isKnown t.name = true ∨ t.name.IsSynthesized) ∧
      (∀ request, Ends (c.answer request) s
        (fun answer t => ∀ id, answer = some id → t.types.Has id) fun e _ => e.OfInput) ∧
      ∀ set operations overrides options key,
        compile set operations overrides options ≠ .error (.resolve (.duplicateType key)) := by
  intro s g
  have sound := c.sound_stateAfter requests
  refine ⟨g.types.nodup, fun _ _ => Registry.lookup_eq_some_iff_keyOf,
    sound.graph.foldl_apply stages, sound.named, fun request => ?_, ?_⟩
  · exact Ends.mono (ResolveContext.answer_serves request (Scope.allows_ofInput _) sound)
      (fun _ _ h => h.2.2) fun _ _ h => h.2.2
  · intro set operations overrides options key h
    rcases (compile_settles set operations overrides options).fault h _ rfl with h | ⟨_, _, h⟩
    · exact h
    · cases h

end Compile

end SchemaGraph
