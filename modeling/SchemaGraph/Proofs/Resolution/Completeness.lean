import Mathlib.Data.List.Induction
import SchemaGraph.Proofs.Graph.Closed
import SchemaGraph.Proofs.Linking.Accepted
import SchemaGraph.Proofs.Resolution.Adding
import SchemaGraph.Proofs.Resolution.Memo

/-! What resolving everything leaves in the graph.  Every element that a document lists is kept or left out by
name, the kept ones in the order in which they were come to, and every listed type of a known namespace has an
entry. -/
namespace SchemaGraph

open Stateful

namespace Registry

theorem lookup_finish (r : Registry) (key : String) : r.finish.lookup key = r.lookup key := rfl

theorem get?_finish (r : Registry) (id : TypeId) : r.finish.get? id = (r.get? id).map TypeEntry.finish :=
  List.getElem?_map ..

end Registry

def DeclarationSet.isTyped (s : DeclarationSet) (name : QName) : Bool :=
  (s.element? name).any (·.typeRef != .unspecified)

def DeclarationSet.typedElements (s : DeclarationSet) : List QName :=
  (s.documents.flatMap (·.elements)).filter s.isTyped

def Load.key? (s : DeclarationSet) : Load → Option String
  | .element name => if s.isTyped name then some name.clark else none
  | .type _ => none

theorem filterMap_key?_loads (s : DeclarationSet) :
    s.loads.filterMap (Load.key? s) = s.typedElements.map QName.clark := by
  have document (doc : DocumentIndex) :
      doc.loads.filterMap (Load.key? s) = (doc.elements.filter s.isTyped).map QName.clark := by
    have types : doc.types.filterMap (Load.key? s ∘ .type) = [] := List.filterMap_eq_nil_iff.2 fun _ _ => rfl
    rw [DocumentIndex.loads, List.filterMap_append, List.filterMap_map, List.filterMap_map, types,
      List.append_nil]
    induction doc.elements with
    | nil => rfl
    | cons name rest ih => by_cases h : s.isTyped name <;> simp [Load.key?, h, ih]
  unfold DeclarationSet.loads DeclarationSet.typedElements
  rw [List.filterMap_flatMap]
  simp only [document]
  induction s.documents with
  | nil => rfl
  | cons doc rest ih => rw [List.flatMap_cons, List.flatMap_cons, List.filter_append, List.map_append, ih]

theorem isTyped_iff {s : DeclarationSet} {name : QName} {decl : ElementDecl} (declared : s.element? name = some decl) :
    s.isTyped name = true ↔ decl.typeRef ≠ .unspecified := by
  simp [DeclarationSet.isTyped, declared]

theorem eraseDups_concat (l : List String) (k : Option String) :
    (l ++ k.toList).eraseDups = l.eraseDups ++ (k.filter fun k => !l.eraseDups.contains k).toList := by
  cases k with
  | none => simp
  | some k =>
    rw [Option.toList_some, eraseDups_append_singleton]
    by_cases h : k ∈ l <;> simp [Option.filter, h]

namespace ResolveContext

variable {c : ResolveContext} {s t : ResolveState} {a : Load} {l : List Load} {name : QName}

abbrev Loads (c : ResolveContext) : List Load → ResolveState → ResolveState → Prop :=
  Through fun a s t => Yields (c.load a) s () t

theorem exists_added_of_load (hi : c.set.Indexed) (h : Yields (c.load (.element name)) s () t) :
    ∃ decl elements key u, c.set.element? name = some decl ∧ decl.name = name ∧
      ElementAdded c c.resolve "(global)" decl ⟨.element name, []⟩ decl.occurs s.elements s elements key u ∧
      t = { u with elements } := by
  unfold load resolveGlobal at h
  obtain ⟨decl, declared, h⟩ := yields_ofExcept_bind.1 h
  obtain ⟨_, _, get, h⟩ := yields_bind.1 h
  obtain ⟨rfl, rfl⟩ := yields_get.1 get
  obtain ⟨⟨elements, key⟩, u, added, h⟩ := yields_bind.1 h
  obtain rfl := yields_modify.1 h
  have declared := DeclarationSet.element_eq_ok_iff.1 declared
  exact ⟨decl, elements, key, u, declared, hi.elements name decl declared, elementAdded_of_addElement added, rfl⟩

theorem elements_of_load_type (h : Yields (c.load (.type name)) s () t) : t.elements = s.elements := by
  obtain ⟨id, h, -⟩ := yields_map.1 h
  obtain ⟨d, -, h⟩ := exists_of_yields_resolveName h
  exact ((resolve_grows c _ s d _ _ s (.refl _ s)).answer h).elements

section Keys

theorem keys_of_load (hi : c.set.Indexed) (h : Yields (c.load a) s () t) :
    t.elements.keys =
      s.elements.keys ++ ((a.key? c.set).filter fun key => !s.elements.keys.contains key).toList := by
  cases a with
  | type name =>
    rw [elements_of_load_type h]
    simp [Load.key?]
  | element name =>
    obtain ⟨decl, elements, key, u, declared, rfl, added, rfl⟩ := exists_added_of_load hi h
    cases added with
    | entered resolved new =>
      have typed := (isTyped_iff declared).2 fun unspecified => nomatch (typeRef_eq_of_yields resolved).2 unspecified
      have absent : decl.name.clark ∉ s.elements.keys := by simp [OrderedMap.mem_keys_iff, new]
      simp [OrderedMap.keys_insert, Load.key?, typed, absent, Option.filter]
    | duplicate resolved taken =>
      have present := (OrderedMap.mem_keys_iff _ _).2 taken
      by_cases typed : c.set.isTyped decl.name = true <;> simp [Load.key?, Option.filter, present, typed]
    | skipped resolved header =>
      have untyped : c.set.isTyped decl.name = false := by
        rw [Bool.eq_false_iff, ne_eq, isTyped_iff declared, not_not]
        exact (typeRef_eq_of_yields resolved).1 rfl
      simp [Load.key?, untyped]

theorem keys_of_loads (hi : c.set.Indexed) (empty : s.elements.keys = []) (h : c.Loads l s t) :
    t.elements.keys = (l.filterMap (Load.key? c.set)).eraseDups := by
  induction l using List.reverseRecOn generalizing t with
  | nil =>
    obtain rfl := Through.nil_iff.1 h
    exact empty
  | append_singleton l a ih =>
    obtain ⟨u, before, last⟩ := Through.append_iff.1 h
    obtain ⟨v, load, rest⟩ := Through.cons_iff.1 last
    obtain rfl := Through.nil_iff.1 rest
    have last_key : [a].filterMap (Load.key? c.set) = (a.key? c.set).toList := by
      cases h : a.key? c.set <;> simp [h]
    rw [List.filterMap_append, last_key, eraseDups_concat, ← ih before]
    exact keys_of_load hi load

end Keys

theorem advances_of_loads (within : l ⊆ c.set.loads) (hs : s.Sound c) (h : c.Loads l s t) :
    s.Advances t ∧ t.Sound c := by
  refine h.lift (I := fun s t => s.Sound c → s.Advances t ∧ t.Sound c) (fun s hs => ⟨.refl s, hs⟩) ?_ ?_ hs
  · intro s t u first rest hs
    obtain ⟨advances, ht⟩ := first hs
    obtain ⟨advances', hu⟩ := rest ht
    exact ⟨advances.trans advances', hu⟩
  · intro a listed s t step hs
    obtain ⟨advances, ht, -⟩ := (load_serves (Scope.allows_ofInput _) (within listed) hs).answer step
    exact ⟨advances, ht⟩

theorem elements_fresh (c : ResolveContext) : c.fresh.elements = ∅ := by
  have grows : Keeps (ResolveState.empty.Grows 0) c.resolvePlaceholders :=
    resolvePlaceholders_keeps (stableEntering_grows (Nat.le_refl _))
  exact (Ends.left (grows .empty (.refl 0 .empty))).elements

theorem exists_loads_of_graph {g : TypeGraph} (h : c.graph = .ok g) :
    ∃ t, c.Loads c.set.loads c.fresh t ∧ g = t.graph := by
  obtain ⟨t, run, rfl⟩ := map_eq_ok_iff.1 h
  obtain ⟨_, s, placeholders, run⟩ := yields_bind.1 (result_eq_ok_iff.1 run)
  have start : s = c.fresh := (congrArg Prod.snd placeholders).symm
  rw [resolveAll_eq_forM, start] at run
  exact ⟨t, Through.yields_forM_iff.1 run, rfl⟩

/-- What a global element is kept as: the type that its declaration led to when it was come to, after
everything listed before it, and the repeatability of the declaration.  The entry of the type stays. -/
inductive KeptAs (c : ResolveContext) (g : TypeGraph) : String → ElementDescriptor → Prop
  | reached {before after : List Load} {name : QName} {decl : ElementDecl} {s t : ResolveState} {id : TypeId}
      {type : TypeEntry} (order : c.set.loads = before ++ .element name :: after)
      (run : Yields (before.forM c.load) c.fresh () s) (new : s.elements.contains name.clark = false)
      (declared : c.set.element? name = some decl)
      (typed : Yields (resolveRef c c.resolve ⟨.element name, []⟩ (some name) decl.typeRef) s (some id) t)
      (entry : t.types.get? id = some type) (stays : g.types.get? id = some type.finish) :
      KeptAs c g name.clark { typeId := id, isList := decl.occurs.isRepeated }

theorem sound_around {before after : List Load} {r u : ResolveState} (start : r.Sound c)
    (order : c.set.loads = before ++ a :: after) (first : c.Loads before r s) (step : Yields (c.load a) s () u)
    (rest : c.Loads after u t) : u.Sound c ∧ u.Advances t := by
  have inside : a :: after ⊆ c.set.loads := order ▸ List.subset_append_right _ _
  obtain ⟨listed, later⟩ := List.cons_subset.1 inside
  have hs := (advances_of_loads (order ▸ List.subset_append_left _ _) start first).2
  have hu := (advances_of_loads (List.cons_subset.2 ⟨listed, List.nil_subset _⟩) hs (.singleton step)).2
  exact ⟨hu, (advances_of_loads later hu rest).1⟩

theorem entered_or_skipped_of_loads (hi : c.set.Indexed) (start : s.Sound c) (h : c.Loads c.set.loads s t)
    (listed : .element name ∈ c.set.loads) : ∃ decl, c.set.element? name = some decl ∧
      (decl.typeRef ≠ .unspecified ∧ name.clark ∈ t.elements.keys ∨
        decl.typeRef = .unspecified ∧ name ∈ c.options.headerOnly ∧ name.clark ∈ t.skippedHeaders) := by
  obtain ⟨before, after, r, u, order, first, step, rest⟩ := h.of_mem listed
  have advances := (sound_around start order first step rest).2
  obtain ⟨decl, elements, key, v, declared, rfl, added, rfl⟩ := exists_added_of_load hi step
  refine ⟨decl, declared, added.entered_or_skipped.imp ?_ ?_⟩
  · exact And.imp_right fun entered => (advances.elements.map Prod.fst).subset entered
  · rintro ⟨untyped, header, skipped⟩
    exact ⟨untyped, header, advances.skippedHeaders.subset skipped⟩

section Everything

variable (hi : c.set.Indexed) (h : c.Loads c.set.loads c.fresh t)
include hi h

theorem element_of_loads (listed : .element name ∈ c.set.loads) :
    name.clark ∈ t.elements.keys ∨ name.clark ∈ t.skippedHeaders := by
  obtain ⟨decl, -, h⟩ := entered_or_skipped_of_loads hi c.sound_fresh h listed
  exact h.imp And.right fun h => h.2.2

theorem type_of_loads (listed : .type name ∈ c.set.loads) (known : c.isKnown name = true) :
    (t.types.lookup name.clark).isSome = true := by
  obtain ⟨before, after, s, u, order, first, step, rest⟩ := h.of_mem listed
  have advances := (sound_around c.sound_fresh order first step rest).2
  obtain ⟨id, answered, -⟩ := yields_map.1 step
  obtain ⟨d, declared, answered⟩ := exists_of_yields_resolveName answered
  have own := hi.name_of_type? declared
  have remembered := resolve_remembers (own_of_name own (.inl known)) answered
  rw [advances.lookup (remembered.lookup_named own)]
  rfl

theorem keptAs_of_loads {key : String} {e : ElementDescriptor} (found : t.elements.get? key = some e) :
    KeptAs c t.graph key e := by
  -- The key is put among the others in one of the loads, which is the load of an element of that key.
  have absent : c.fresh.elements.contains key ≠ true := by
    rw [elements_fresh]
    exact Bool.false_ne_true
  have present : t.elements.contains key = true := Option.isSome_iff_exists.2 ⟨e, found⟩
  obtain ⟨before, a, after, s, u, order, first, step, rest, new, entered⟩ :=
    h.exists_step (P := fun s => s.elements.contains key = true) absent present
  obtain ⟨sound, advances⟩ := sound_around c.sound_fresh order first step rest
  cases a with
  | type name => exact absurd (elements_of_load_type step ▸ entered) new
  | element name =>
    obtain ⟨decl, elements, added, v, declared, rfl, here, rfl⟩ := exists_added_of_load hi step
    cases here with
    | duplicate resolved taken => exact absurd entered new
    | skipped resolved header => exact absurd entered new
    | @entered id v resolved fresh =>
      obtain rfl := (OrderedMap.contains_insert.1 entered).resolve_right new
      have own := OrderedMap.get?_insert s.elements decl.name.clark decl.name.clark
        { typeId := id, isList := decl.occurs.isRepeated }
      rw [if_pos rfl] at own
      obtain rfl := Option.some.inj (found.symm.trans (OrderedMap.get?_of_prefix advances.elements own))
      obtain ⟨type, entry⟩ := Registry.has_iff.1 (sound.covers.get? own)
      refine .reached order (Through.yields_forM_iff.2 first) (Bool.eq_false_iff.2 new) declared resolved entry ?_
      exact (Registry.get?_finish _ _).trans (congrArg _ (advances.get?_eq entry))

end Everything

end ResolveContext

/-- Resolving everything leaves out nothing that a document lists, and where no document was rejected nothing
that is declared. -/
theorem resolveAll_complete {c : ResolveContext} {g : TypeGraph} (hc : c.set.Built) (h : c.graph = .ok g) :
    (∀ doc ∈ c.set.documents, ∀ name ∈ doc.elements,
      name.clark ∈ g.elements.keys ∨ name.clark ∈ g.skippedHeaders) ∧
    g.elements.keys = (c.set.typedElements.map QName.clark).eraseDups ∧
    (∀ key e, g.elements.get? key = some e → c.KeptAs g key e) ∧
    (∀ doc ∈ c.set.documents, ∀ name ∈ doc.types, c.isKnown name = true →
      (g.types.lookup name.clark).isSome = true) ∧
    (c.set.Accepted → ∀ name,
      (c.set.elements.contains name = true → name.clark ∈ g.elements.keys ∨ name.clark ∈ g.skippedHeaders) ∧
      (c.set.types.contains name = true → c.isKnown name = true → (g.types.lookup name.clark).isSome = true)) := by
  have hi := hc.indexed
  obtain ⟨t, loads, rfl⟩ := ResolveContext.exists_loads_of_graph h
  have elements : ∀ doc ∈ c.set.documents, ∀ name ∈ doc.elements,
      name.clark ∈ t.elements.keys ∨ name.clark ∈ t.skippedHeaders := by
    intro doc hdoc name listed
    refine ResolveContext.element_of_loads hi loads (List.mem_flatMap.2 ⟨doc, hdoc, ?_⟩)
    exact List.mem_append_left _ (List.mem_map_of_mem listed)
  have types : ∀ doc ∈ c.set.documents, ∀ name ∈ doc.types, c.isKnown name = true →
      (t.graph.types.lookup name.clark).isSome = true := by
    intro doc hdoc name listed known
    have loaded : .type name ∈ c.set.loads :=
      List.mem_flatMap.2 ⟨doc, hdoc, List.mem_append_right _ (List.mem_map_of_mem listed)⟩
    have entered := ResolveContext.type_of_loads hi loads loaded known
    rwa [← Registry.lookup_finish] at entered
  have no_elements : c.fresh.elements.keys = [] := by
    rw [ResolveContext.elements_fresh]
    rfl
  refine ⟨elements, ?_, fun key e => ResolveContext.keptAs_of_loads hi loads, types, fun accepted name => ?_⟩
  · rw [← filterMap_key?_loads]
    exact ResolveContext.keys_of_loads hi no_elements loads
  · constructor
    · intro declared
      obtain ⟨doc, hdoc, listed⟩ := accepted.listed.elements name declared
      exact elements doc hdoc name listed
    · intro declared
      obtain ⟨doc, hdoc, listed⟩ := accepted.listed.types name declared
      exact types doc hdoc name listed

/-- Orders and their headers are in one document, receipts in another.  A receipt refers to an order. -/
def depot : DeclarationSet :=
  let order := fun localName => (⟨some "urn:order", localName⟩ : QName)
  let receipt := fun localName => (⟨some "urn:receipt", localName⟩ : QName)
  let element := fun name typeRef occurs => (⟨name, typeRef, occurs, false, none⟩ : ElementDecl)
  let complex := fun name particles =>
    (⟨some name, false, .complex ⟨.none, .elements ⟨.sequence, .once, particles⟩, [], false⟩⟩ : TypeDef)
  let add := fun doc s => (exec (DeclarationSet.add doc) s).2
  add
    { targetNamespace := some "urn:receipt"
      types := [complex (receipt "Receipt") [.elementRef (order "Order") .once]]
      elements := [element (receipt "Receipt") (.named (receipt "Receipt")) .once] } <|
  add
    { targetNamespace := some "urn:order"
      types := [complex (order "Order") [.element (element (order "item") (.named (.xsd "string")) .once)]]
      elements := [element (order "Trace") .unspecified .once,
        element (order "Order") (.named (order "Order")) .once] } .empty

theorem depot_complete :
    let order := fun localName => (⟨some "urn:order", localName⟩ : QName)
    let receipt : QName := ⟨some "urn:receipt", "Receipt"⟩
    let c : ResolveContext := ⟨depot, .ofSet depot, {}, { headerOnly := [order "Trace"] }⟩
    ∃ g, c.graph = .ok g ∧ g.elements.keys = [(order "Order").clark, receipt.clark] ∧
      (order "Trace").clark ∈ g.skippedHeaders ∧ (g.types.lookup receipt.clark).isSome = true ∧
      ∀ key e, g.elements.get? key = some e → c.KeptAs g key e := by
  intro order receipt c
  have run : c.graph.toOption.any (fun _ => true) = true := by decide +kernel
  obtain ⟨g, graph, -⟩ := exists_eq_ok_of_any run
  obtain ⟨elements, keys, kept, types, -⟩ := resolveAll_complete (c := c) (.add (.add .empty _) _) graph
  have typed : (depot.typedElements.map QName.clark).eraseDups = [(order "Order").clark, receipt.clark] := by
    decide +kernel
  have trace : order "Trace" ∈ depot.documents.flatMap (·.elements) := by decide +kernel
  have listed : receipt ∈ depot.documents.flatMap (·.types) := by decide +kernel
  obtain ⟨doc, hdoc, trace⟩ := List.mem_flatMap.1 trace
  obtain ⟨doc', hdoc', listed⟩ := List.mem_flatMap.1 listed
  have left_out : (order "Trace").clark ∉ g.elements.keys := by
    rw [keys, typed]
    decide
  exact ⟨g, graph, keys.trans typed, (elements doc hdoc _ trace).resolve_left left_out,
    types doc' hdoc' receipt listed (by decide +kernel), kept⟩

end SchemaGraph
