import SchemaGraph.Proofs.Graph.HeaderTypes
import SchemaGraph.Proofs.Resolution.Completeness
import SchemaGraph.Proofs.Resolution.Content
import SchemaGraph.Proofs.Resolution.Owners

/-! Headers that are left out, and global elements that are kept.  What is left out is known by its text alone, whether
it was declared globally or inside a type, so that a header inside a type can stand for a global element that has a
type and was kept. -/
namespace SchemaGraph

open Stateful

namespace ResolveContext

/-- The definitions that requests can lead to: those of the set, those asked for, and what elements and attributes
declare inline. -/
inductive Upon (c : ResolveContext) (requests : List Request) : TypeDef → Prop
  | named {name : QName} {d : TypeDef} (declared : c.set.type? name = some d) : Upon c requests d
  | requested {d : TypeDef} {site : Site} {context : Option QName}
      (listed : .definition d site context ∈ requests) : Upon c requests d
  | global {name : QName} {decl : ElementDecl} {d : TypeDef} (declared : c.set.element? name = some decl)
      (inline : decl.typeRef = .inline d) : Upon c requests d
  | content {e d : TypeDef} {x : ComplexDef} {items : List (Option ElementDecl)} {decl : ElementDecl}
      (outer : Upon c requests e) (complex : e.complex? = some x) (effective : Effective c.set x items)
      (listed : some decl ∈ items) (inline : decl.typeRef = .inline d) : Upon c requests d
  | attribute {e d : TypeDef} {l : DeclarationSet.AttributeList} {name : String} (outer : Upon c requests e)
      (inherited : c.set.inheritedAttributes [] e = .ok l) (listed : (name, .inline d) ∈ l.attributes) :
      Upon c requests d

/-- The element is global, or in the content of a type that the requests can lead to. -/
def Finds (c : ResolveContext) (requests : List Request) (decl : ElementDecl) : Prop :=
  (∃ name, c.set.element? name = some decl) ∨
  ∃ d x items, c.Upon requests d ∧ d.complex? = some x ∧ Effective c.set x items ∧ some decl ∈ items

/-- The element has no type and is for headers only. -/
def BareHeader (c : ResolveContext) (decl : ElementDecl) : Prop :=
  decl.typeRef = .unspecified ∧ decl.name ∈ c.options.headerOnly

/-- The elements without a type in the content of the complex type are bare headers with their texts in `skipped`. -/
def SkipsContent (c : ResolveContext) (d : TypeDef) (skipped : List String) : Prop :=
  ∃ x items, d.complex? = some x ∧ Effective c.set x items ∧ ∀ decl, some decl ∈ items →
    decl.typeRef = .unspecified → c.BareHeader decl ∧ decl.name.clark ∈ skipped

/-- The text of a bare header that the requests can find. -/
def LeftOut (c : ResolveContext) (requests : List Request) (key : String) : Prop :=
  ∃ decl, c.Finds requests decl ∧ c.BareHeader decl ∧ decl.name.clark = key

def TypedGlobal (c : ResolveContext) (key : String) : Prop :=
  ∃ name decl, c.set.element? name = some decl ∧ decl.typeRef ≠ .unspecified ∧ decl.name.clark = key

def reach (c : ResolveContext) (requests : List Request) : Reach c where
  asked d _ _ := c.Upon requests d
  filled d _ := c.Upon requests d
  elements decl _ := c.Finds requests decl
  named := .named
  global declared := .inl ⟨_, declared⟩
  inline := by
    rintro decl d _ (⟨name, declared⟩ | ⟨e, x, items, outer, complex, effective, listed⟩) inline
    · exact .global declared inline
    · exact .content outer complex effective listed inline
  standIn := .named
  own upon _ := upon
  anonymous upon := upon
  attributes := .attribute
  content upon complex laid_out listed :=
    .inr ⟨_, _, _, upon, complex, (DeclarationSet.layout_effective c.set _ _ _ _).answer laid_out,
      List.mem_map.2 ⟨_, listed, rfl⟩⟩

theorem SkipsContent.later {c : ResolveContext} {d : TypeDef} {skipped skipped' : List String}
    (h : c.SkipsContent d skipped) (sub : skipped ⊆ skipped') : c.SkipsContent d skipped' := by
  obtain ⟨x, items, hx, effective, h⟩ := h
  exact ⟨x, items, hx, effective, fun decl listed untyped => (h decl listed untyped).imp_right fun here => sub here⟩

section Only

/-- Only bare headers are left out, and only elements with a type are kept. -/
structure Divides (c : ResolveContext) (requests : List Request) (s : ResolveState) : Prop where
  skipped : ∀ key ∈ s.skippedHeaders, c.LeftOut requests key
  kept : ∀ key ∈ s.elements.keys, c.TypedGlobal key

variable {c : ResolveContext} {requests : List Request} {s : ResolveState}

theorem Divides.of_eq {s' : ResolveState} (h : c.Divides requests s) (skipped : s'.skippedHeaders = s.skippedHeaders)
    (elements : s'.elements = s.elements) : c.Divides requests s' :=
  ⟨skipped ▸ h.skipped, elements ▸ h.kept⟩

theorem stableEntering_divides : (c.reach requests).StableEntering (c.Divides requests) fun _ _ => True where
  diagnose _ _ h := h.of_eq rfl rfl
  skip s decl _ found untyped header h := by
    refine ⟨fun key hk => ?_, h.kept⟩
    dsimp only at hk
    split at hk
    · exact h.skipped key hk
    · rcases List.mem_append.1 hk with hk | hk
      · exact h.skipped key hk
      · exact ⟨decl, found, ⟨untyped, header⟩, (List.mem_singleton.1 hk).symm⟩
  fill _ _ _ _ _ _ _ _ h := h.of_eq rfl rfl
  reserve _ _ _ _ _ h _ := ⟨fun _ => trivial, h.of_eq rfl rfl⟩
  recordAnonymous _ _ h := h.of_eq rfl rfl

theorem resolveGlobal_divides {name : QName} : Keeps (c.Divides requests) (c.resolveGlobal name) := by
  refine Keeps.bind_ofExcept fun decl declared s hs => ?_
  have declared := DeclarationSet.element_eq_ok_iff.1 declared
  rw [ends_bind, ends_get, ends_bind]
  have keeps : Keeps (c.Divides requests)
      (addElement c c.resolve s.elements decl ⟨.element name, []⟩ decl.occurs "(global)") :=
    Reach.addElement_keeps (R := c.reach requests)
      (fun d site context => Reach.resolve_keeps stableEntering_divides _ d site context)
      stableEntering_divides.toStable (.inl ⟨name, declared⟩)
  -- The new map of elements is put in place at the end, so its keys are compared with those before the addition.
  refine ends_iff.2 ⟨fun (elements, key) t run => ?_, fun e t run => (keeps s hs).fault run⟩
  have ht := (keeps s hs).answer run
  rw [ends_modify]
  refine ⟨ht.skipped, fun other here => ?_⟩
  cases elementAdded_of_addElement run with
  | duplicate | skipped => exact hs.kept other here
  | entered typed new =>
    rcases OrderedMap.contains_insert.1 ((OrderedMap.mem_keys_iff _ _).1 here) with rfl | here
    · exact ⟨name, decl, declared, mt (typeRef_eq_of_yields typed).2 (Option.some_ne_none _), rfl⟩
    · exact hs.kept other ((OrderedMap.mem_keys_iff _ _).2 here)

theorem load_divides (a : Load) : Keeps (c.Divides requests) (c.load a) := by
  cases a with
  | element name => exact resolveGlobal_divides
  | type name => exact .map _ (Reach.resolveName_keeps stableEntering_divides)

theorem answer_divides {r : Request} (listed : r ∈ requests) : Keeps (c.Divides requests) (c.answer r) := by
  cases r with
  | all =>
    refine .bind ?_ fun _ => .pure _
    rw [resolveAll_eq_forM]
    exact .forM fun a _ => load_divides a
  | named name => exact .map _ (Reach.resolveName_keeps stableEntering_divides)
  | definition d site context =>
    exact .map _ (Reach.resolve_keeps stableEntering_divides _ d site context (.requested listed))

theorem fresh_divides : c.Divides requests c.fresh := by
  have none : c.Divides requests .empty := ⟨nofun, nofun⟩
  exact Ends.left (Reach.resolvePlaceholders_keeps stableEntering_divides .empty none)

theorem foldl_next_divides {l : List Request} (listed : l ⊆ requests) (hs : c.Divides requests s) :
    c.Divides requests (l.foldl c.next s) := by
  induction l generalizing s with
  | nil => exact hs
  | cons r rest ih =>
    obtain ⟨here, later⟩ := List.cons_subset.1 listed
    exact ih later (Ends.left (answer_divides here s hs))

theorem stateAfter_divides (c : ResolveContext) (requests : List Request) :
    c.Divides requests (c.stateAfter requests) :=
  foldl_next_divides (List.Subset.refl _) fresh_divides

end Only

end ResolveContext

section Content

variable {c : ResolveContext} {s t : ResolveState} {id : TypeId} {d : TypeDef} {site : Site}

theorem ElementPlaced.skipped_of_untyped {resolve : ResolveType} {owner : String} {decl : ElementDecl} {p q : Progress}
    {answer : Option TypeId} (h : ElementPlaced c resolve owner decl site p answer q)
    (untyped : decl.typeRef = .unspecified) : c.BareHeader decl ∧ decl.name.clark ∈ q.state.skippedHeaders := by
  cases h with
  | entered typed | duplicate typed => cases (typeRef_eq_of_yields typed).2 untyped
  | skipped _ header => exact ⟨⟨untyped, header⟩, mem_skip _ _⟩

theorem skipsContent_of_fillTo {depth : Nat} (complex : d.isSimple = false)
    (h : Yields (fillTo c depth id d site) s () t) : c.SkipsContent d t.skippedHeaders := by
  cases depth with
  | zero => exact absurd h not_yields_throw
  | succ depth =>
    obtain ⟨x, hx⟩ := d.exists_complex? complex
    obtain ⟨u, -, h⟩ := fillComplex_of_fillWith resolve_adds complex hx h
    obtain ⟨before, layout, v, entry, -, laid_out, placed, -, later, -⟩ := through_of_fillComplex h
    refine ⟨x, _, hx, (DeclarationSet.layout_effective c.set _ _ _ _).answer laid_out, fun decl listed untyped => ?_⟩
    -- The element is left out at its own leaf, and what comes after it only adds.
    obtain ⟨leaf, listed, same⟩ := List.mem_map.1 listed
    obtain ⟨_, _, p, q, -, -, step, rest⟩ := placed.of_mem listed
    cases step with
    | wildcard => cases same
    | element own others =>
      obtain rfl := Option.some.inj same
      obtain ⟨bare, skipped⟩ := own.skipped_of_untyped untyped
      have until_end := (others.leads (resolve_grows c depth)).trans (Through.leads (resolve_grows c depth) rest)
      exact ⟨bare, later.skippedHeaders.subset (until_end.state.skippedHeaders.subset skipped)⟩

theorem skipsContent_of_resolveName {name : QName} (hi : c.set.Indexed) (declared : c.set.type? name = some d)
    (complex : d.isSimple = false) (known : c.isKnown name = true) (new : s.types.lookup name.clark = none)
    (h : Yields (c.resolveName name) s id t) : c.SkipsContent d t.skippedHeaders := by
  have own := hi.name_of_type? declared
  rw [ResolveContext.resolveName_eq declared] at h
  cases resolved_of_resolveType h with
  | named own' found =>
    obtain rfl := Option.some.inj (own.symm.trans own')
    cases found.symm.trans new
  | enterNamed own' _ entered =>
    obtain rfl := Option.some.inj (own.symm.trans own')
    obtain ⟨u, -, filled⟩ := enters_of_enterNamed declared known entered
    exact skipsContent_of_fillTo complex filled
  | standIn _ simple | enterStandIn _ simple => cases complex.symm.trans simple

end Content

namespace ResolveContext

/-- Texts tell apart global elements, and bare headers that are not global from global elements with a type. -/
structure HeadersApart (c : ResolveContext) (requests : List Request) : Prop where
  global : ∀ name name' decl decl', c.set.element? name = some decl → c.set.element? name' = some decl' →
    name.clark = name'.clark → name = name'
  inner : ∀ decl, c.Finds requests decl → c.set.element? decl.name ≠ some decl → c.BareHeader decl →
    ¬ c.TypedGlobal decl.name.clark

variable {c : ResolveContext} {requests : List Request}

theorem HeadersApart.not_typedGlobal {key : String} (hi : c.set.Indexed) (apart : c.HeadersApart requests)
    (leftOut : c.LeftOut requests key) : ¬ c.TypedGlobal key := by
  obtain ⟨decl, found, bare, rfl⟩ := leftOut
  by_cases global : c.set.element? decl.name = some decl
  · rintro ⟨name, other, declared, typed, same⟩
    obtain rfl := hi.elements name other declared
    rw [apart.global _ _ _ _ declared global same] at declared
    cases declared.symm.trans global
    exact typed bare.1
  · exact apart.inner decl found global bare

end ResolveContext

def TypeGraph.KeepsHeaders (g g' : TypeGraph) : Prop :=
  ∀ op ∈ g.operations.values,
    (∀ header ∈ op.inputHeaders, header.clark ∈ g.elements.keys → header.clark ∈ g'.headerKeys g'.requestHeaders) ∧
    ∀ header ∈ op.outputHeaders, header.clark ∈ g.elements.keys → header.clark ∈ g'.headerKeys g'.responseHeaders

open ResolveContext

/-- Whatever has been asked for, what is left out are bare headers that are global or in the content of a type, and what
is kept are global elements with a type.  The two have nothing in common, and no global element is lost as a header,
where texts tell such headers from such elements.  Where they do not, they come to have something in common: the bare
headers in the content of a type are left out once it is resolved, and all global elements with a type are kept once
everything is. -/
theorem left_out_and_kept {c : ResolveContext} (hc : c.set.Built) (requests : List Request) :
    let g := (c.stateAfter requests).graph
    (∀ key ∈ g.skippedHeaders, c.LeftOut requests key) ∧
    (∀ key ∈ g.elements.keys, c.TypedGlobal key) ∧
    (c.HeadersApart requests → g.skippedHeaders.Disjoint g.elements.keys ∧
      ∀ g₁ g₂ : TypeGraph, g₁.elements = g.elements → g₁.skippedHeaders = g.skippedHeaders →
        Yields TypeGraph.aggregateHeaders g₁ () g₂ → g₁.KeepsHeaders g₂) ∧
    (∀ before later name d answer t, requests = before ++ .named name :: later → c.set.type? name = some d →
      d.isSimple = false → c.isKnown name = true → (c.stateAfter before).types.lookup name.clark = none →
      Yields (c.answer (.named name)) (c.stateAfter before) answer t → c.SkipsContent d g.skippedHeaders) ∧
    ∀ before later answer t, requests = before ++ .all :: later →
      Yields (c.answer .all) (c.stateAfter before) answer t →
      ∀ doc ∈ c.set.documents, ∀ name ∈ doc.elements, ∃ decl, c.set.element? name = some decl ∧
        (decl.typeRef ≠ .unspecified ∧ name.clark ∈ g.elements.keys ∨
          c.BareHeader decl ∧ name.clark ∈ g.skippedHeaders) := by
  intro g
  have hi := hc.indexed
  have divides := stateAfter_divides c requests
  refine ⟨divides.skipped, divides.kept, fun apart => ?_, ?_, ?_⟩
  · have disjoint : g.skippedHeaders.Disjoint g.elements.keys := fun key skipped kept =>
      apart.not_typedGlobal hi (divides.skipped key skipped) (divides.kept key kept)
    refine ⟨disjoint, fun g₁ g₂ elements skipped aggregated op listed => ?_⟩
    rw [elements]
    obtain ⟨request, response⟩ := TypeGraph.mem_headerKeys_iff aggregated listed
    rw [skipped] at request response
    exact ⟨fun header here kept => (request header here).2 (disjoint · kept),
      fun header here kept => (response header here).2 (disjoint · kept)⟩
  · intro before later name d answer t order declared complex known new run
    obtain ⟨id, named, -⟩ := yields_map.1 run
    have skipped := skipsContent_of_resolveName hi declared complex known new named
    have advances : t.Advances (c.stateAfter requests) := order ▸ advances_stateAfter run
    exact skipped.later advances.skippedHeaders.subset
  · intro before later answer t order run doc hdoc name listed
    have advances : t.Advances (c.stateAfter requests) := order ▸ advances_stateAfter run
    obtain ⟨_, u, all, rest⟩ := yields_bind.1 run
    obtain ⟨-, rfl⟩ := yields_pure.1 rest
    rw [resolveAll_eq_forM] at all
    have loads := Through.yields_forM_iff.1 all
    have loaded : .element name ∈ c.set.loads :=
      List.mem_flatMap.2 ⟨doc, hdoc, List.mem_append_left _ (List.mem_map_of_mem listed)⟩
    obtain ⟨decl, declared, h⟩ := entered_or_skipped_of_loads hi (sound_stateAfter c before) loads loaded
    obtain rfl := hi.elements name decl declared
    refine ⟨decl, declared, h.imp ?_ ?_⟩
    · exact And.imp_right fun entered => (advances.elements.map Prod.fst).subset entered
    · rintro ⟨untyped, header, skipped⟩
      exact ⟨⟨untyped, header⟩, advances.skippedHeaders.subset skipped⟩

def postName (localName : String) : QName := ⟨some "urn:post", localName⟩

/-- Letters and parcels carry headers of their own, without a type.  A header of the same name as that of the letters is
declared globally, with a type. -/
def post : SchemaDocument :=
  let carries := fun localName header => (⟨some (postName localName), false,
    .complex ⟨.none, .elements ⟨.sequence, .once, [.element ⟨postName header, .unspecified, .once, false, none⟩]⟩, [],
      false⟩⟩ : TypeDef)
  { targetNamespace := some "urn:post"
    types := [carries "Parcel" "Trace", carries "Letter" "Stamp"]
    elements := [⟨postName "Stamp", .named (.xsd "string"), .once, false, none⟩] }

def TypeGraph.stamped (g : TypeGraph) : TypeGraph :=
  { g with
    operations := (∅ : OrderedMap String Operation).insert "Send"
      ⟨"Send", postName "Stamp", postName "Stamp", [postName "Stamp"], []⟩ }

theorem post_left_out :
    let stamp := postName "Stamp"
    let trace := postName "Trace"
    let letter := postName "Letter"
    ∃ set d, result DeclarationSet.link (exec (DeclarationSet.add post) .empty).2 = .ok set ∧
      set.type? letter = some d ∧
      (let c : ResolveContext := ⟨set, .ofSet set, {}, { headerOnly := [stamp, trace] }⟩
        let requests := [.named letter, .all]
        let g := (c.stateAfter requests).graph
        c.SkipsContent d g.skippedHeaders ∧ stamp.clark ∈ g.skippedHeaders ∧ stamp.clark ∈ g.elements.keys ∧
          c.LeftOut requests stamp.clark ∧ c.TypedGlobal stamp.clark ∧
          ∃ g₂, Yields TypeGraph.aggregateHeaders g.stamped () g₂ ∧ ¬ g.stamped.KeepsHeaders g₂) ∧
      (let c : ResolveContext := ⟨set, .ofSet set, {}, { headerOnly := [trace] }⟩
        let g := (c.stateAfter [.all]).graph
        g.skippedHeaders = [trace.clark] ∧ g.elements.keys = [stamp.clark] ∧ c.HeadersApart [.all] ∧
          ∃ g₂, Yields TypeGraph.aggregateHeaders g.stamped () g₂ ∧ g.stamped.KeepsHeaders g₂) := by
  intro stamp trace letter
  have run : ((result DeclarationSet.link (exec (DeclarationSet.add post) .empty).2).toOption.any fun set =>
      (set.type? letter).any fun d => !d.isSimple && decide (set.elements.keys = [stamp]) &&
        decide (set.documents.map (·.elements) = [[stamp]]) && set.isTyped stamp &&
        (let c : ResolveContext := ⟨set, .ofSet set, {}, { headerOnly := [stamp, trace] }⟩
          let g := (c.stateAfter [.named letter, .all]).graph
          c.isKnown letter && decide (c.fresh.types.lookup letter.clark = none) &&
            gives (c.answer (.named letter)) c.fresh (fun _ _ => true) &&
            gives (c.answer .all) (c.stateAfter [.named letter]) (fun _ _ => true) &&
            decide (stamp.clark ∈ g.skippedHeaders) &&
            gives TypeGraph.aggregateHeaders g.stamped fun _ g₂ =>
              !decide (stamp.clark ∈ g₂.headerKeys g₂.requestHeaders)) &&
        (let c : ResolveContext := ⟨set, .ofSet set, {}, { headerOnly := [trace] }⟩
          let g := (c.stateAfter [.all]).graph
          decide (g.skippedHeaders = [trace.clark]) && decide (g.elements.keys = [stamp.clark]) &&
            gives TypeGraph.aggregateHeaders g.stamped fun _ _ => true)) = true := by decide +kernel
  obtain ⟨set, linked, run⟩ := exists_eq_ok_of_any run
  obtain ⟨d, declared, run⟩ := (Option.any_eq_true _ _).1 run
  simp only [Bool.and_eq_true, Bool.not_eq_true', decide_eq_true_eq, decide_eq_false_iff_not, gives_iff, and_true]
    at run
  obtain ⟨⟨⟨⟨⟨complex, elements⟩, documents⟩, typed⟩, first⟩, ⟨left_out, kept⟩, _, g₂', aggregated⟩ := run
  obtain ⟨⟨⟨⟨⟨known, new⟩, _, _, named⟩, _, _, all⟩, skipped⟩, _, g₂, dropped, gone⟩ := first
  have built : set.Built := DeclarationSet.built_of_link (.add .empty post) linked
  have only {name : QName} {decl : ElementDecl} (h : set.element? name = some decl) : name = stamp := by
    have listed := (OrderedMap.mem_keys_iff set.elements name).2 (Option.isSome_of_mem h)
    rw [elements] at listed
    exact List.mem_singleton.1 listed
  obtain ⟨doc, hdoc, listed⟩ : ∃ doc ∈ set.documents, doc.elements = [stamp] :=
    List.mem_map.1 (documents ▸ List.mem_singleton_self [stamp])
  refine ⟨set, d, linked, declared, ?_, ?_⟩
  · obtain ⟨bare, global, -, content, everything⟩ := left_out_and_kept
      (c := ⟨set, .ofSet set, {}, { headerOnly := [stamp, trace] }⟩) built [.named letter, .all]
    obtain ⟨decl, here, h⟩ :=
      everything [.named letter] [] _ _ rfl all doc hdoc stamp (listed ▸ List.mem_singleton_self _)
    obtain ⟨-, entered⟩ := h.resolve_right fun h => (isTyped_iff here).1 typed h.1.1
    refine ⟨content [] [.all] letter d _ _ rfl declared complex known new named, skipped, entered, bare _ skipped,
      global _ entered, g₂, dropped, fun keeps => gone ?_⟩
    exact (keeps _ (List.mem_singleton_self _)).1 stamp (List.mem_singleton_self _) entered
  · obtain ⟨-, -, disjoint, -⟩ := left_out_and_kept
      (c := ⟨set, .ofSet set, {}, { headerOnly := [trace] }⟩) built [.all]
    have apart : HeadersApart ⟨set, .ofSet set, {}, { headerOnly := [trace] }⟩ [.all] := by
      refine ⟨fun _ _ _ _ h h' _ => (only h).trans (only h').symm, ?_⟩
      rintro decl - - ⟨-, header⟩ ⟨name, other, here, -, same⟩
      rw [List.mem_singleton.1 header, built.indexed.elements name other here, only here] at same
      exact absurd same (by decide)
    exact ⟨left_out, kept, apart, g₂', aggregated, (disjoint apart).2 _ _ rfl rfl aggregated⟩

end SchemaGraph
