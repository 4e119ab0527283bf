import SchemaGraph.Proofs.Resolution.Expansion

/-! Elements and the types below abstract types share one space of names.  A name that an element has taken is not
given to a type below; an element whose name a type below has taken is left out with a remark. -/
namespace SchemaGraph

open Stateful Relation

section Steps

variable {c : ResolveContext} {resolve : ResolveType} {owner : String} {decl : ElementDecl} {site : Site}
  {occurs : Occurs} {name : Option String} {base sub : QName} {d : TypeDef}

theorem free_of_addConcrete {e : ElementDescriptor} {elements elements' : ElementMap} {w q : ResolveState}
    (hierarchy : c.hierarchy = .ofSet c.set)
    (h : Yields (addConcrete c resolve elements decl e base owner) w elements' q)
    (below : TransGen c.set.ExtendsType sub base) (declared : c.set.type? sub = some d)
    (concrete : d.isAbstract = false) : elements.contains sub.clark = false := by
  obtain ⟨u, added, -⟩ := subtypesAdded_of_addConcrete h
  obtain ⟨before, after, ⟨mid, y⟩, ⟨mid', z⟩, -, first, step, -⟩ :=
    added.of_mem (hierarchy ▸ ClassHierarchy.mem_descendants_iff.2 below)
  cases step with
  | abstract declared' isAbstract =>
    obtain rfl := Option.some.inj (declared.symm.trans declared')
    cases concrete.symm.trans isAbstract
  | entered _ _ _ new =>
    refine Bool.eq_false_iff.2 fun taken => ?_
    rw [OrderedMap.contains_of_prefix (SubtypesAdded.entries_le first) taken] at new
    cases new

/-- The types below the type of an element are looked for: the element is no head, its key is free, and its type, if
that can be resolved, has an abstract entry with the name `base`, not one of simple values. -/
structure Expands (c : ResolveContext) (resolve : ResolveType) (decl : ElementDecl) (site : Site) (base : QName)
    (p : Found × ResolveState) : Prop where
  typed : decl.typeRef ≠ .unspecified
  alone : c.set.substitutes decl.name = []
  new : p.1.elements.contains decl.name.clark = false
  entry : ∀ i w, Yields (resolveRef c resolve site (some decl.name) decl.typeRef) p.2 (some i) w →
    ∃ type, w.types.get? i = some type ∧ type.name = base ∧ type.isAbstract = true ∧ type.isSimple = false

variable {p q : Found × ResolveState}

theorem get?_nameEntry {elements : ElementMap} (new : elements.contains decl.name.clark = false) (i : TypeId)
    (occurs : Occurs) (name : Option String) :
    (nameEntry (elements.insert decl.name.clark { typeId := i, isList := occurs.isRepeated }) (some decl.name.clark)
      name).get? decl.name.clark =
        some { typeId := i, isList := occurs.isRepeated, serializedName := name.filter (!·.isEmpty) } := by
  rw [← OrderedMap.mem_entries_iff, entries_nameEntry new]
  exact List.mem_append_right _ (List.mem_singleton.2 rfl)

theorem Expands.free (h : Expands c resolve decl site base p) (hierarchy : c.hierarchy = .ofSet c.set)
    (added : LeafAdded c resolve owner (name, .element decl site occurs) p q)
    (below : TransGen c.set.ExtendsType sub base) (declared : c.set.type? sub = some d)
    (concrete : d.isAbstract = false) : p.1.elements.contains sub.clark = false := by
  obtain ⟨⟨elements', listName⟩, t⟩ := q
  obtain ⟨elements, key, w, own, rest⟩ := added_of_addContentElement added
  have before : p.1.elements.entries <+: (nameEntry elements key name).entries := own.named_entries_le
  cases own with
  | @entered i w typed fresh =>
    obtain ⟨type, entry, rfl, isAbstract, complex⟩ := h.entry i _ typed
    have own := get?_nameEntry fresh i occurs name
    cases rest with
    | members joined => exact absurd h.alone joined
    | nothing _ plain =>
      obtain ⟨type', entry', simple⟩ := plain _ own
      obtain rfl := Option.some.inj (entry.symm.trans entry')
      cases complex.symm.trans (simple isAbstract)
    | subtypes _ own' entry' _ _ subtypes =>
      obtain rfl := Option.some.inj (own.symm.trans own')
      obtain rfl := Option.some.inj (entry.symm.trans entry')
      have free := free_of_addConcrete hierarchy subtypes below declared concrete
      refine Bool.eq_false_iff.2 fun taken => ?_
      cases free.symm.trans (OrderedMap.contains_of_prefix before taken)
  | duplicate _ taken => cases h.new.symm.trans taken
  | skipped untyped _ => exact absurd ((typeRef_eq_of_yields untyped).1 rfl) h.typed

theorem Expands.fails {e : ResolveError} {t : ResolveState} (h : Expands c resolve decl site base p)
    (fails : Fails (addLeaf c resolve name owner p.1 (.element decl site occurs)) p.2 e t) :
    Fails (resolveRef c resolve site (some decl.name) decl.typeRef) p.2 e t ∨
      ∃ elements descriptor i w, Yields (resolveRef c resolve site (some decl.name) decl.typeRef) p.2 (some i) w ∧
        Fails (addConcrete c resolve elements decl descriptor base owner) w e t := by
  unfold addLeaf addContentElement at fails
  rcases fails_bind.1 fails with fails | ⟨⟨elements, key⟩, w, added, fails⟩
  · unfold addElement at fails
    rcases fails_bind.1 fails with fails | ⟨answer, w, typed, fails⟩
    · exact .inl fails
    · cases answer with
      | none => exact absurd ((typeRef_eq_of_yields typed).1 rfl) h.typed
      | some i =>
        dsimp only at fails
        rw [h.new, if_neg Bool.false_ne_true] at fails
        exact absurd fails not_fails_pure
  · cases elementAdded_of_addElement added with
    | @entered i w typed fresh =>
      obtain ⟨type, entry, rfl, isAbstract, complex⟩ := h.entry i _ typed
      have own := get?_nameEntry fresh i occurs name
      have members : (c.set.substitutes decl.name).isEmpty = true := by rw [h.alone]; rfl
      dsimp only at fails
      rw [members, Bool.not_true, if_neg Bool.false_ne_true, Option.bind_some, own] at fails
      dsimp only at fails
      rcases fails_bind.1 fails with fails | ⟨type', _, read, fails⟩
      · exact absurd fails (Yields.not_fails (yields_entryAt.2 ⟨entry, rfl⟩))
      · obtain ⟨entry', rfl⟩ := yields_entryAt.1 read
        obtain rfl := Option.some.inj (entry.symm.trans entry')
        rw [isAbstract, complex, Bool.not_false, Bool.and_self, if_pos rfl] at fails
        rcases fails_bind.1 fails with fails | ⟨_, _, _, fails⟩
        · exact .inr ⟨_, _, i, w, typed, fails⟩
        · exact absurd fails not_fails_pure
    | duplicate _ taken => cases h.new.symm.trans taken
    | skipped untyped _ => exact absurd ((typeRef_eq_of_yields untyped).1 rfl) h.typed

theorem fails_of_addSubtype {descriptor : ElementDescriptor} {acc : ElementMap × Nat} {s t : ResolveState}
    {e : ResolveError} (declared : c.set.type? sub = some d)
    (h : Fails (addSubtype c resolve decl descriptor owner acc sub) s e t) :
    d.isAbstract = false ∧
      (e = .expansionCollision owner decl.name sub.clark ∨ Fails (resolve d (siteOfType sub) none) s e t) := by
  unfold addSubtype at h
  rw [DeclarationSet.type_eq_ok_iff.2 declared] at h
  rcases fails_bind.1 h with h | ⟨_, _, found, h⟩
  · exact absurd h (Yields.not_fails (yields_ofExcept.2 ⟨rfl, rfl⟩))
  obtain ⟨same, rfl⟩ := yields_ofExcept.1 found
  cases same
  split at h
  · exact absurd h not_fails_pure
  · next concrete =>
    refine ⟨Bool.eq_false_iff.2 concrete, ?_⟩
    rcases fails_bind.1 h with h | ⟨i, u, -, h⟩
    · exact .inr h
    dsimp only at h
    split at h
    · rcases fails_bind.1 h with h | ⟨_, _, h, -⟩
      · exact .inl (fails_throw.1 h).1.symm
      · exact absurd h not_yields_throw
    · exact absurd h not_fails_pure

theorem fails_of_addConcrete {descriptor : ElementDescriptor} {elements : ElementMap} {w t : ResolveState}
    {e : ResolveError} (hierarchy : c.hierarchy = .ofSet c.set)
    (hresolve : ∀ s d site context, Keeps (ResolveState.Grows 0 s) (resolve d site context))
    (h : Fails (addConcrete c resolve elements decl descriptor base owner) w e t) :
    ∃ sub d, TransGen c.set.ExtendsType sub base ∧ c.set.type? sub = some d ∧ d.isAbstract = false ∧
      (e = .expansionCollision owner decl.name sub.clark ∨
        ∃ v, w.Grows 0 v ∧ Fails (resolve d (siteOfType sub) none) v e t) := by
  unfold addConcrete at h
  rcases fails_bind.1 h with h | ⟨⟨added, count⟩, u, -, h⟩
  · obtain ⟨before, sub, after, acc, v, split, first, h⟩ := fails_foldlM_iff.1 h
    have below : TransGen c.set.ExtendsType sub base := by
      rw [← ClassHierarchy.mem_descendants_iff, ← hierarchy, split]
      exact List.mem_append_right _ (List.mem_cons_self ..)
    obtain ⟨_, ⟨d, declared, -⟩, -⟩ := TransGen.head'_iff.1 below
    obtain ⟨concrete, h⟩ := fails_of_addSubtype declared h
    have kept : Keeps (w.Grows 0) (before.foldlM (addSubtype c resolve decl descriptor owner) (elements, 0)) :=
      .foldlM fun _ _ _ => addSubtype_keeps (hresolve w)
    exact ⟨sub, d, below, declared, concrete, h.imp_right fun h => ⟨v, (kept w (.refl 0 w)).answer first, h⟩⟩
  · dsimp only at h
    split at h
    · rcases fails_bind.1 h with h | ⟨_, _, -, h⟩
      · exact absurd h (Yields.not_fails (a := ()) (yields_diagnose.2 rfl))
      · exact absurd h not_fails_pure
    · exact absurd h not_fails_pure

theorem RestAdded.grows {elements elements' : ElementMap} {key : Option String} {s t : ResolveState}
    (hresolve : ∀ s d site context, Keeps (ResolveState.Grows 0 s) (resolve d site context))
    (h : RestAdded c resolve owner decl elements key s elements' t) : s.Grows 0 t := by
  cases h with
  | members _ added => exact (addSubstitutes_keeps (hresolve s) stable_grows s (.refl 0 s)).answer added
  | nothing => exact .refl 0 s
  | subtypes _ _ _ _ _ added => exact (addConcrete_keeps (hresolve s) stable_grows s (.refl 0 s)).answer added

theorem remark_of_leafAdded (hresolve : ∀ s d site context, Keeps (ResolveState.Grows 0 s) (resolve d site context))
    (taken : p.1.elements.contains decl.name.clark = true)
    (kept : decl.typeRef = .unspecified → decl.name ∉ c.options.headerOnly)
    (h : LeafAdded c resolve owner (name, .element decl site occurs) p q) :
    ⟨.duplicateElement, owner ++ "/" ++ decl.name.clark, "element declared twice; keeping the first"⟩ ∈
      q.2.diagnostics := by
  obtain ⟨elements, key, w, own, rest⟩ := added_of_addContentElement h
  refine (rest.grows hresolve).diagnostics.subset ?_
  cases own with
  | entered _ fresh => cases taken.symm.trans fresh
  | duplicate => exact List.mem_append_right _ (List.mem_singleton.2 rfl)
  | skipped untyped header => exact absurd header (kept ((typeRef_eq_of_yields untyped).1 rfl))

end Steps

theorem expands_of_fillLeaves {c : ResolveContext} {depth : Nat} {id : TypeId} {d b : TypeDef} {x : ComplexDef}
    {site place : Site} {s u : ResolveState} {key : String} {layout : Layout} {before : List (Option String × Leaf)}
    {found : Found} {decl : ElementDecl} {base : QName} (hc : c.set.Built) (apart : c.set.KeysApart)
    (assigned : s.Assigned c) (owned : s.Owned c id d site) (hx : d.complex? = some x)
    (hlayout : c.set.layout key [] site x = .ok layout) (within : ∀ leaf ∈ before, leaf.2 ∈ layout.leaves)
    (added : Yields (fillLeaves c (resolveType c (fillTo c depth)) id d site key before) s found u)
    (typed : decl.typeRef = .named base) (hb : c.set.type? base = some b) (isAbstract : b.isAbstract = true)
    (complex : b.isSimple = false) (alone : c.set.substitutes decl.name = [])
    (new : found.elements.contains decl.name.clark = false) :
    Expands c (resolveType c (fillTo c depth)) decl place base (found, u) := by
  refine ⟨fun untyped => ?_, alone, new, fun i w h => ?_⟩
  · cases typed.symm.trans untyped
  · obtain ⟨type, entry, name_eq, abstract_eq, plain⟩ :=
      entry_of_typed hc.indexed apart assigned owned hx hlayout within added typed hb complex h
    exact ⟨type, entry, name_eq, abstract_eq.trans isAbstract, plain⟩

/-- The faults that come before the collision of an element with the content behind it: in the attributes or an item
before the element, in the choices there, in the type of the element or in a type below. -/
inductive FaultBefore (c : ResolveContext) (resolve : ResolveType) (id : TypeId) (d : TypeDef) (site : Site)
    (owner : String) (plan : Plan) (before : List (Option String × Leaf)) (decl : ElementDecl) (place : Site)
    (base : QName) (s : ResolveState) (e : ResolveError) : Prop
  | items {t : ResolveState} (fails : Fails (fillLeaves c resolve id d site owner before) s e t)
  | stop (fault : plan.fault = some e) (early : plan.leaves <+: before)
  | own {found : Found} {u t : ResolveState} (added : Yields (fillLeaves c resolve id d site owner before) s found u)
      (fails : Fails (resolveRef c resolve place (some decl.name) decl.typeRef) u e t)
  | below {found : Found} {u v t : ResolveState} {sub : QName} {d' : TypeDef}
      (added : Yields (fillLeaves c resolve id d site owner before) s found u) (later : u.Grows 0 v)
      (below : TransGen c.set.ExtendsType sub base) (declared : c.set.type? sub = some d')
      (fails : Fails (resolve d' (siteOfType sub) none) v e t)

/-- An element and the concrete types below the abstract type of another one cannot have one name between them if the
element comes first: the other element then fails to be added, with a collision if nothing else is wrong before.  If
the element comes last it is left out with a remark, and the entry is that of the type below. -/
theorem names_disjoint {c : ResolveContext} {depth : Nat} {id : TypeId} {d : TypeDef} {x : ComplexDef} {site : Site}
    {s : ResolveState} {type : TypeEntry} {layout : Layout} (hc : c.set.Built) (apart : c.set.KeysApart)
    (hierarchy : c.hierarchy = .ofSet c.set) (assigned : s.Assigned c) (owned : s.Owned c id d site)
    (hd : d.isSimple = false) (hx : d.complex? = some x) (entry : s.types.get? id = some type)
    (hlayout : c.set.layout type.key [] site x = .ok layout) {before after : List (Option String × Leaf)}
    {name : Option String} {decl : ElementDecl} {place : Site} {occurs : Occurs}
    (split : layout.namedLeaves c type.key = before ++ (name, .element decl place occurs) :: after)
    {base : QName} {b : TypeDef} (typed : decl.typeRef = .named base) (hb : c.set.type? base = some b)
    (isAbstract : b.isAbstract = true) (complex : b.isSimple = false) (alone : c.set.substitutes decl.name = [])
    (new : ∀ found u, Yields (fillLeaves c (resolveType c (fillTo c depth)) id d site type.key before) s found u →
      found.elements.contains decl.name.clark = false)
    {sub : QName} {b' : TypeDef} (below : TransGen c.set.ExtendsType sub base) (hsub : c.set.type? sub = some b')
    (concrete : b'.isAbstract = false) {name' : Option String} {other : ElementDecl} {place' : Site}
    {occurs' : Occurs} (same : other.name.clark = sub.clark)
    (kept : other.typeRef = .unspecified → other.name ∉ c.options.headerOnly) :
    let resolve := resolveType c (fillTo c depth)
    let fill := fillTo c (depth + 1) id d site
    ((name', .element other place' occurs') ∈ before →
      (∀ t, ¬ Yields fill s () t) ∧
      ∀ e t, Fails fill s e t →
        (∃ sub' d', TransGen c.set.ExtendsType sub' base ∧ c.set.type? sub' = some d' ∧ d'.isAbstract = false ∧
          e = .expansionCollision type.key decl.name sub'.clark) ∨
        FaultBefore c resolve id d site type.key (layout.plan c type.key) before decl place base s e) ∧
    ((name', .element other place' occurs') ∈ after → ∀ t, Yields fill s () t →
      ∃ filled i, t.types.get? id = some filled ∧
        filled.elements.get? other.name.clark = some
          { typeId := i, isList := occurs.isRepeated, sourceName := some decl.name
            serializedName := some ((name.filter (!·.isEmpty)).getD decl.name.localName) } ∧
        ⟨.duplicateElement, type.key ++ "/" ++ other.name.clark, "element declared twice; keeping the first"⟩ ∈
          t.diagnostics) := by
  intro resolve fill
  have grows : ∀ s d site context, Keeps (ResolveState.Grows 0 s) (resolve d site context) := fun _ => resolve_adds
  have expands : ∀ found u, Yields (fillLeaves c resolve id d site type.key before) s found u →
      Expands c resolve decl place base (found, u) := by
    intro found u added
    refine expands_of_fillLeaves hc apart assigned owned hx hlayout (fun leaf hleaf => ?_) added typed hb isAbstract
      complex alone (new found u added)
    exact Layout.mem_leaves_of_namedLeaves (split ▸ List.mem_append_left _ hleaf)
  constructor
  · intro earlier
    have blocked : ∀ p q : Found × ResolveState, Yields (fillLeaves c resolve id d site type.key before) s p.1 p.2 →
        ¬ LeafAdded c resolve type.key (name, .element decl place occurs) p q := by
      intro p q first added
      obtain ⟨u, -, through⟩ := yields_fillLeaves_iff.1 first
      obtain ⟨lead, rest, p', q', -, -, taken, later⟩ := through.of_mem earlier
      have here := OrderedMap.contains_of_prefix (LeafAdded.through_entries_le later) (contains_of_kept kept taken)
      rw [same] at here
      cases here.symm.trans ((expands p.1 p.2 first).free hierarchy added below hsub concrete)
    refine ⟨fun t => not_yields_of_blocked (grows s) hd hx entry hlayout split blocked, fun e t h => ?_⟩
    rcases fails_of_blocked (grows s) hd hx entry hlayout split blocked h with ⟨_, h⟩ | ⟨fault, early⟩ | h
    · exact .inr (.items h)
    · exact .inr (.stop fault early)
    obtain ⟨found, u, first, h⟩ := h
    rcases (expands found u first).fails h with h | ⟨_, _, i, w, typed', h⟩
    · exact .inr (.own first h)
    obtain ⟨sub', d', below', declared', concrete', h⟩ := fails_of_addConcrete hierarchy grows h
    rcases h with collision | ⟨v, later, h⟩
    · exact .inl ⟨sub', d', below', declared', concrete', collision⟩
    · have grown := (resolveRef_keeps (grows u) u (.refl 0 u)).answer typed'
      exact .inr (.below first (grown.trans later) below' declared' h)
  · intro later t h
    obtain ⟨fault, found, v, added, last⟩ := (yields_fillWith_iff (grows s) hd hx entry hlayout).1 h
    rw [Layout.leaves_plan_of_fault fault, split] at added
    obtain ⟨p, q, first, added, rest⟩ := exists_leafAdded_of_fillLeaves added
    have expands := expands p.1 p.2 first
    obtain ⟨i, w, read, typed', -, entry', -, expanded⟩ := expanded_of_leafAdded hierarchy grows alone expands.new
      (contains_of_leafAdded expands.typed added) added
    obtain ⟨type', found', rfl, isAbstract', plain⟩ := expands.entry i w typed'
    obtain rfl := Option.some.inj (found'.symm.trans entry')
    have expanded := (expanded isAbstract').resolve_left fun simple => by cases plain.symm.trans simple.1
    obtain ⟨j, -, -, -, -, -, got⟩ := expanded.concrete sub b' hsub concrete below
    rw [← same] at got
    obtain ⟨lead, tail, p', q', -, before', left_out, after'⟩ := rest.of_mem later
    have taken : p'.1.elements.contains other.name.clark = true :=
      Option.isSome_iff_exists.2 ⟨_, OrderedMap.get?_of_prefix (LeafAdded.through_entries_le before') got⟩
    have remark := remark_of_leafAdded grows taken kept left_out
    have grown : q'.2.Grows 0 v := LeafAdded.through_keeps stable_grows (grows q'.2) after' (.refl 0 q'.2)
    obtain ⟨has, rfl⟩ := yields_modifyType.1 last
    obtain ⟨filled, hfilled⟩ := Option.isSome_iff_exists.1 has
    exact ⟨filled.withContent layout found, j, Registry.get?_modify_self (by intro _; rfl) hfilled,
      OrderedMap.get?_of_prefix (LeafAdded.through_entries_le rest) got, grown.diagnostics.subset remark⟩

def galleryName (localName : String) : QName := ⟨some "urn:gallery", localName⟩

def galleryElement (localName : String) (type : QName) : ElementDecl :=
  ⟨galleryName localName, .named type, .once, false, none⟩

/-- A circle is a shape.  Sketches and drawings have a shape and an element that is called like that type. -/
def gallery : ResolveContext :=
  let complex := fun localName isAbstract derivation content => (⟨some (galleryName localName), isAbstract,
    .complex ⟨derivation, content, [], false⟩⟩ : TypeDef)
  let shape : Particle := .element (galleryElement "shape" (galleryName "Shape"))
  let circle : Particle := .element (galleryElement "Circle" (.xsd "string"))
  let set := (exec (DeclarationSet.add
    { targetNamespace := some "urn:gallery"
      types := [complex "Shape" true .none .empty, complex "Circle" false (.extension (galleryName "Shape")) .empty,
        complex "Sketch" false .none (.elements ⟨.sequence, .once, [circle, shape]⟩),
        complex "Drawing" false .none (.elements ⟨.sequence, .once, [shape, circle]⟩)] }) .empty).2
  ⟨set, .ofSet set, {}, {}⟩

theorem gallery_keysApart : gallery.set.KeysApart := .of_run (by decide +kernel) (by decide +kernel)

theorem gallery_circle : ∃ b b', gallery.set.type? (galleryName "Shape") = some b ∧ b.isAbstract = true ∧
    b.isSimple = false ∧ gallery.set.type? (galleryName "Circle") = some b' ∧ b'.isAbstract = false ∧
    TransGen gallery.set.ExtendsType (galleryName "Circle") (galleryName "Shape") := by
  have run : ((gallery.set.type? (galleryName "Shape")).any fun b => b.isAbstract && !b.isSimple &&
      (gallery.set.type? (galleryName "Circle")).any fun b' => !b'.isAbstract &&
        b'.extensionBase? == some (galleryName "Shape")) = true := by decide +kernel
  obtain ⟨b, hb, run⟩ := (Option.any_eq_true _ _).1 run
  rw [Bool.and_eq_true, Bool.and_eq_true, Bool.not_eq_true'] at run
  obtain ⟨⟨isAbstract, complex⟩, run⟩ := run
  obtain ⟨b', hb', run⟩ := (Option.any_eq_true _ _).1 run
  rw [Bool.and_eq_true, Bool.not_eq_true', beq_iff_eq] at run
  exact ⟨b, b', hb, isAbstract, complex, hb', run.1, .single ⟨b', hb', run.2⟩⟩

def areTwo (first second : ElementDecl) : List (Option String × Leaf) → Bool
  | [(none, leaf), (none, leaf')] => leaf.isOnce first && leaf'.isOnce second
  | _ => false

theorem exists_of_areTwo {first second : ElementDecl} {leaves : List (Option String × Leaf)}
    (h : areTwo first second leaves = true) : ∃ site occurs site' occurs', occurs.isRepeated = false ∧
      leaves = [(none, .element first site occurs), (none, .element second site' occurs')] := by
  unfold areTwo at h
  split at h
  · rw [Bool.and_eq_true] at h
    obtain ⟨site, occurs, rfl, once⟩ := Leaf.eq_element_of_isOnce h.1
    obtain ⟨site', occurs', rfl, -⟩ := Leaf.eq_element_of_isOnce h.2
    exact ⟨site, occurs, site', occurs', once, rfl⟩
  · cases h

def galleryTest (localName : String) (first second : ElementDecl)
    (p : TypeDef → TypeId → ResolveState → String → List (Option String × Leaf) → Bool) : Bool :=
  let name := galleryName localName
  gallery.isKnown name && gives (Resolve.reserve name false) (gallery.stateAfter []) fun id s =>
    gallery.set.testLayout name s id fun d _ type layout =>
      !d.isAbstract && areTwo first second (layout.namedLeaves gallery type.key) &&
        p d id s type.key (layout.namedLeaves gallery type.key)

theorem exists_of_galleryTest {localName : String} {first second : ElementDecl}
    {p : TypeDef → TypeId → ResolveState → String → List (Option String × Leaf) → Bool}
    (h : galleryTest localName first second p = true) :
    let site := siteOfType (galleryName localName)
    ∃ d x id s type layout place occurs place' occurs', gallery.set.type? (galleryName localName) = some d ∧
      d.isSimple = false ∧ d.complex? = some x ∧ s.types.get? id = some type ∧
      gallery.set.layout type.key [] site x = .ok layout ∧ occurs.isRepeated = false ∧
      layout.namedLeaves gallery type.key =
        [(none, .element first place occurs), (none, .element second place' occurs')] ∧
      Yields (Resolve.reserve (galleryName localName) false) (gallery.stateAfter []) id s ∧ s.Assigned gallery ∧
      s.Owned gallery id d site ∧ p d id s type.key (layout.namedLeaves gallery type.key) = true := by
  intro site
  unfold galleryTest at h
  rw [Bool.and_eq_true] at h
  obtain ⟨known, run⟩ := h
  obtain ⟨id, s, reserved, run⟩ := gives_iff.1 run
  obtain ⟨d, x, type, layout, declared, complex, hx, entry, hlayout, run⟩ := DeclarationSet.exists_of_testLayout run
  rw [Bool.and_eq_true, Bool.and_eq_true, Bool.not_eq_true'] at run
  obtain ⟨⟨concrete, two⟩, run⟩ := run
  obtain ⟨place, occurs, place', occurs', once, leaves⟩ := exists_of_areTwo two
  obtain ⟨assigned, owned⟩ := owned_of_reserve_stateAfter gallery_keysApart.unnamed
    (DeclarationSet.Built.add .empty _).indexed (fun _ _ _ listed => absurd listed List.not_mem_nil) declared known
    (concrete.symm ▸ reserved)
  exact ⟨d, x, id, s, type, layout, place, occurs, place', occurs', declared, complex, hx, entry, hlayout, once, leaves,
    reserved, assigned, owned, run⟩

theorem gallery_names :
    let start := gallery.stateAfter []
    let enter := fun localName => Resolve.reserve (galleryName localName) false
    let fill := fun localName id d => fillTo gallery 7 id d (siteOfType (galleryName localName))
    (∃ d id s, gallery.set.type? (galleryName "Sketch") = some d ∧ Yields (enter "Sketch") start id s ∧
      ∀ t, ¬ Yields (fill "Sketch" id d) s () t) ∧
    ∃ d id s t filled i, gallery.set.type? (galleryName "Drawing") = some d ∧ Yields (enter "Drawing") start id s ∧
      Yields (fill "Drawing" id d) s () t ∧ t.types.get? id = some filled ∧
      filled.elements.get? (galleryName "Circle").clark = some
        { typeId := i, isList := false, sourceName := some (galleryName "shape"), serializedName := some "shape" } := by
  intro start enter fill
  let shape := galleryElement "shape" (galleryName "Shape")
  let circle := galleryElement "Circle" (.xsd "string")
  have alone : gallery.set.substitutes shape.name = [] := by decide +kernel
  have typed : circle.typeRef ≠ .unspecified := by
    intro untyped
    cases untyped
  obtain ⟨b, b', hb, isAbstract, plain, hb', concrete, below⟩ := gallery_circle
  constructor
  · have run : galleryTest "Sketch" circle shape (fun d id s key leaves =>
        gives (fillLeaves gallery (resolveType gallery (fillTo gallery 6)) id d
          (siteOfType (galleryName "Sketch")) key (leaves.take 1)) s fun found _ =>
            !found.elements.contains shape.name.clark) = true := by decide +kernel
    obtain ⟨d, x, id, s, type, layout, place, occurs, place', occurs', declared, complex, hx, entry, hlayout, -, leaves,
      reserved, assigned, owned, run⟩ := exists_of_galleryTest run
    rw [leaves] at run
    obtain ⟨found, u, added, free⟩ := gives_iff.1 run
    have new : ∀ found u, Yields (fillLeaves gallery (resolveType gallery (fillTo gallery 6)) id d
        (siteOfType (galleryName "Sketch")) type.key [(none, .element circle place occurs)]) s found u →
        found.elements.contains shape.name.clark = false := by
      intro found' u' added'
      obtain ⟨rfl, -⟩ := added'.unique added
      exact (Bool.not_eq_true' _).mp free
    obtain ⟨refused, -⟩ := @names_disjoint gallery 6 _ _ _ _ _ _ _ (.add .empty _) gallery_keysApart rfl assigned
      owned complex hx entry hlayout [(none, .element circle place occurs)] [] _ _ _ _ leaves _ _ rfl hb isAbstract
      plain alone new _ _ below hb' concrete none circle place occurs rfl (absurd · typed)
    exact ⟨d, id, s, declared, reserved, (refused (List.mem_singleton.2 rfl)).1⟩
  · have run : galleryTest "Drawing" shape circle (fun d id s _ _ =>
        (exec (fill "Drawing" id d) s).1.toOption.isSome) = true := by decide +kernel
    obtain ⟨d, x, id, s, type, layout, place, occurs, place', occurs', declared, complex, hx, entry, hlayout, once,
      leaves, reserved, assigned, owned, run⟩ := exists_of_galleryTest run
    obtain ⟨_, t, populated⟩ := exists_yields_of_isSome run
    have new : ∀ found u, Yields (fillLeaves gallery (resolveType gallery (fillTo gallery 6)) id d
        (siteOfType (galleryName "Drawing")) type.key []) s found u →
        found.elements.contains shape.name.clark = false := by
      intro found u added
      obtain ⟨_, -, through⟩ := yields_fillLeaves_iff.1 added
      cases Through.nil_iff.1 through
      rfl
    obtain ⟨-, lost⟩ := @names_disjoint gallery 6 _ _ _ _ _ _ _ (.add .empty _) gallery_keysApart rfl assigned
      owned complex hx entry hlayout [] _ _ _ _ _ leaves _ _ rfl hb isAbstract plain alone new _ _ below hb' concrete
      none circle place' occurs' rfl (absurd · typed)
    obtain ⟨filled, i, hfilled, found, -⟩ := lost (List.mem_singleton.2 rfl) t populated
    rw [once] at found
    exact ⟨d, id, s, t, filled, i, declared, reserved, populated, hfilled, found⟩

end SchemaGraph
