import SchemaGraph.Proofs.Linking.Extensions
import SchemaGraph.Proofs.Resolution.Assigned

/-! Elements of abstract types.  Behind such an element the content has an entry for each concrete type that
extends the abstract one, made from the entry of the element, and none of them is changed by what comes later. -/
namespace SchemaGraph

open Stateful Relation

section Entries

variable {c : ResolveContext} {resolve : ResolveType} {owner : String} {decl : ElementDecl} {site : Site}
  {occurs : Occurs} {name : Option String} {elements elements' : ElementMap} {s t : ResolveState}

theorem entries_nameEntry {id : TypeId} (new : elements.contains decl.name.clark = false) :
    (nameEntry (elements.insert decl.name.clark { typeId := id, isList := occurs.isRepeated })
        (some decl.name.clark) name).entries =
      elements.entries ++ [(decl.name.clark,
        { typeId := id, isList := occurs.isRepeated, serializedName := name.filter (!·.isEmpty) })] := by
  cases name with
  | none => exact OrderedMap.entries_insert new _
  | some name =>
    unfold nameEntry
    dsimp only
    split
    · next empty => rw [OrderedMap.entries_insert new]; simp [Option.filter, empty]
    · next named => rw [OrderedMap.entries_modify_insert new]; simp [Option.filter, named]

theorem ElementAdded.named_entries_le {key : Option String}
    (h : ElementAdded c resolve owner decl site occurs elements s elements' key t) :
    elements.entries <+: (nameEntry elements' key name).entries := by
  cases h with
  | entered _ new =>
    rw [entries_nameEntry new]
    exact List.prefix_append _ _
  | duplicate => exact List.prefix_rfl
  | skipped => exact List.prefix_rfl

theorem entries_le_of_addSubstitute {head member : QName}
    (h : Yields (addSubstitute c resolve head owner elements member) s elements' t) :
    elements.entries <+: elements'.entries := by
  unfold addSubstitute at h
  obtain ⟨decl, -, h⟩ := yields_ofExcept_bind.1 h
  obtain ⟨⟨added, key⟩, u, added, h⟩ := yields_bind.1 h
  cases elementAdded_of_addElement added with
  | entered _ new =>
    obtain ⟨rfl, rfl⟩ := yields_pure.1 h
    rw [OrderedMap.entries_modify_insert new]
    exact List.prefix_append _ _
  | duplicate | skipped =>
    obtain ⟨rfl, rfl⟩ := yields_pure.1 h
    exact List.prefix_rfl

theorem RestAdded.entries_le {key : Option String}
    (h : RestAdded c resolve owner decl elements key s elements' t) : elements.entries <+: elements'.entries := by
  cases h with
  | members _ added =>
    exact (Through.of_foldlM added).lift (I := fun p q => p.1.entries <+: q.1.entries) (fun _ => List.prefix_rfl)
      (fun _ _ _ => List.IsPrefix.trans) fun _ _ _ _ => entries_le_of_addSubstitute
  | nothing => exact List.prefix_rfl
  | subtypes _ _ _ _ _ added =>
    obtain ⟨u, added, -⟩ := subtypesAdded_of_addConcrete added
    exact added.entries_le

theorem LeafAdded.entries_le {leaf : Option String × Leaf} {p q : Found × ResolveState}
    (h : LeafAdded c resolve owner leaf p q) : p.1.elements.entries <+: q.1.elements.entries := by
  obtain ⟨name, leaf⟩ := leaf
  cases leaf with
  | element decl site occurs =>
    obtain ⟨elements, key, u, own, rest⟩ := added_of_addContentElement h
    exact own.named_entries_le.trans rest.entries_le
  | wildcard =>
    obtain ⟨_, _, -, h⟩ := yields_bind.1 h
    have same : p.1 = q.1 := (yields_pure.1 h).1
    exact same ▸ List.prefix_rfl

end Entries

/-- What has become of the entry `e` of an element whose type is abstract, with the name `base`.  Resolving that
type led to the state `w`, adding the element to the state `q`; the content has `elements` by the state `t`. -/
structure Expanded (c : ResolveContext) (resolve : ResolveType) (owner : String) (decl : ElementDecl)
    (e : ElementDescriptor) (base : QName) (w q : ResolveState) (elements : ElementMap) (t : ResolveState) : Prop where
  concrete : ∀ name d, c.set.type? name = some d → d.isAbstract = false → TransGen c.set.ExtendsType name base →
    ∃ id y z, w.Grows 0 y ∧ Yields (resolve d (siteOfType name) none) y id z ∧ z.Grows 0 t ∧
      elements.get? name.clark = some
        { typeId := id, isList := e.isList, sourceName := some decl.name
          serializedName := some (e.serializedName.getD decl.name.localName) }
  remark : (∀ name d, c.set.type? name = some d → TransGen c.set.ExtendsType name base → d.isAbstract = true) →
    q = { w with diagnostics := w.diagnostics ++ [⟨.noConcreteSubtypes, owner ++ "/" ++ decl.name.clark,
      "abstract type " ++ base.clark ++ " has no concrete subtype"⟩] }
  stays : q.diagnostics <+: t.diagnostics

section Subtypes

variable {c : ResolveContext} {resolve : ResolveType} {owner : String} {decl : ElementDecl}
  {e : ElementDescriptor} {base : QName} {elements elements' : ElementMap} {w q t : ResolveState}

theorem Expanded.later {t' : ResolveState} (h : Expanded c resolve owner decl e base w q elements t)
    (entries : elements.entries <+: elements'.entries) (grows : t.Grows 0 t') :
    Expanded c resolve owner decl e base w q elements' t' where
  concrete := by
    intro name d declared concrete below
    obtain ⟨id, y, z, before, typed, after, found⟩ := h.concrete name d declared concrete below
    exact ⟨id, y, z, before, typed, after.trans grows, OrderedMap.get?_of_prefix entries found⟩
  remark := h.remark
  stays := h.stays.trans grows.diagnostics

variable (hresolve : ∀ s d site context, Keeps (ResolveState.Grows 0 s) (resolve d site context))
include hresolve

theorem SubtypesAdded.grows {l : List QName} {p q : ElementMap × ResolveState}
    (h : SubtypesAdded c resolve decl e l p q) : p.2.Grows 0 q.2 :=
  h.lift (I := fun p q => p.2.Grows 0 q.2) (fun _ => .refl 0 _) (fun _ _ _ => .trans)
    fun _ _ p _ => SubtypeAdded.grows (hresolve p.2)

theorem expanded_of_addConcrete (hierarchy : c.hierarchy = .ofSet c.set)
    (plain : e = { typeId := e.typeId, isList := e.isList, serializedName := e.serializedName })
    (h : Yields (addConcrete c resolve elements decl e base owner) w elements' q) :
    Expanded c resolve owner decl e base w q elements' q := by
  obtain ⟨u, added, hq⟩ := subtypesAdded_of_addConcrete h
  have below {name : QName} : name ∈ c.hierarchy.descendants base ↔ TransGen c.set.ExtendsType name base :=
    hierarchy ▸ ClassHierarchy.mem_descendants_iff
  refine ⟨?_, ?_, List.prefix_rfl⟩
  · intro name d declared concrete extends_
    obtain ⟨before, after, ⟨between, y⟩, ⟨between', z⟩, -, first, step, rest⟩ := added.of_mem (below.2 extends_)
    have last : u.Grows 0 q := by
      rw [hq]
      split
      · exact .diagnose 0 u _
      · exact .refl 0 u
    have later := (SubtypesAdded.grows hresolve rest).trans last
    have later_entries := SubtypesAdded.entries_le rest
    cases step with
    | abstract declared' isAbstract =>
      obtain rfl := Option.some.inj (declared.symm.trans declared')
      cases concrete.symm.trans isAbstract
    | @entered d' id _ declared' _ typed _ =>
      obtain rfl := Option.some.inj (declared.symm.trans declared')
      refine ⟨id, y, z, SubtypesAdded.grows hresolve first, typed, later, OrderedMap.get?_of_prefix later_entries ?_⟩
      refine (OrderedMap.get?_insert between name.clark name.clark _).trans ?_
      rw [if_pos rfl, plain]
      rfl
  · intro abstract
    -- Abstract types are passed over, so that nothing happens before the remark.
    have same : (elements, w) = (elements', u) := added.lift (I := Eq) (fun _ => rfl) (fun _ _ _ => .trans) (by
      rintro name hname ⟨m, s⟩ ⟨m', s'⟩ step
      cases step with
      | abstract => rfl
      | entered declared concrete _ _ =>
        cases concrete.symm.trans (abstract _ _ declared (below.1 hname)))
    cases same
    rw [hq, if_pos rfl]

end Subtypes

section Simple

theorem stableEntering_isSimple (id : TypeId) :
    StableEntering (fun s => ∃ type, s.types.get? id = some type ∧ type.isSimple = true) fun _ => True where
  diagnose _ _ h := h
  skip _ _ h := h
  fill := by
    rintro s i f keeps - fills ⟨type, entry, simple⟩
    by_cases same : id = i
    · subst same
      exact ⟨f type, Registry.get?_modify_self keeps entry, (fills type).simple simple⟩
    · exact ⟨type, (Registry.get?_modify_of_ne keeps same).trans entry, simple⟩
  reserve := by
    rintro s name isAbstract i types ⟨type, entry, simple⟩ reserved
    have grows := ResolveState.Grows.reserve (Nat.le_refl _) reserved
    exact ⟨trivial, type, (grows.get?_eq (Registry.has_iff.2 ⟨type, entry⟩)).trans entry, simple⟩
  recordAnonymous _ _ h := h

end Simple

section Leaves

variable {c : ResolveContext} {resolve : ResolveType} {owner : String} {l : List (Option String × Leaf)}
  {p q : Found × ResolveState}

theorem LeafAdded.through_entries_le (h : Through (LeafAdded c resolve owner) l p q) :
    p.1.elements.entries <+: q.1.elements.entries :=
  h.lift (I := fun p q => p.1.elements.entries <+: q.1.elements.entries) (fun _ => List.prefix_rfl)
    (fun _ _ _ => List.IsPrefix.trans) fun _ _ _ _ => LeafAdded.entries_le

theorem LeafAdded.through_keeps {I : ResolveState → Prop} {P : TypeId → Prop} (stable : Stable I P)
    (hresolve : ∀ d site context, Keeps I (resolve d site context))
    (h : Through (LeafAdded c resolve owner) l p q) (hp : I p.2) : I q.2 := by
  induction h with
  | nil => exact hp
  | cons step _ ih => exact ih ((addLeaf_keeps hresolve stable _ hp).answer step)

end Leaves

theorem contains_of_kept {c : ResolveContext} {resolve : ResolveType} {owner : String} {decl : ElementDecl}
    {site : Site} {occurs : Occurs} {name : Option String} {p q : Found × ResolveState}
    (kept : decl.typeRef = .unspecified → decl.name ∉ c.options.headerOnly)
    (h : LeafAdded c resolve owner (name, .element decl site occurs) p q) :
    q.1.elements.contains decl.name.clark = true := by
  obtain ⟨elements, key, w, own, rest⟩ := added_of_addContentElement h
  rw [← OrderedMap.mem_keys_iff]
  refine (rest.entries_le.map Prod.fst).subset ?_
  cases own with
  | entered _ fresh =>
    rw [entries_nameEntry fresh]
    simp
  | duplicate _ taken => exact (OrderedMap.mem_keys_iff _ _).2 taken
  | skipped untyped header => exact absurd header (kept ((typeRef_eq_of_yields untyped).1 rfl))

theorem contains_of_leafAdded {c : ResolveContext} {resolve : ResolveType} {owner : String} {decl : ElementDecl}
    {site : Site} {occurs : Occurs} {name : Option String} {p q : Found × ResolveState}
    (typed : decl.typeRef ≠ .unspecified)
    (h : LeafAdded c resolve owner (name, .element decl site occurs) p q) :
    q.1.elements.contains decl.name.clark = true :=
  contains_of_kept (fun untyped => absurd untyped typed) h

/-- Behind an element of an abstract type there are entries for all concrete types below. -/
theorem expanded_of_leafAdded {c : ResolveContext} {resolve : ResolveType} {owner : String} {decl : ElementDecl}
    {site : Site} {occurs : Occurs} {name : Option String} {p q : Found × ResolveState}
    (hierarchy : c.hierarchy = .ofSet c.set)
    (hresolve : ∀ s d site context, Keeps (ResolveState.Grows 0 s) (resolve d site context))
    (alone : c.set.substitutes decl.name = []) (new : p.1.elements.contains decl.name.clark = false)
    (present : q.1.elements.contains decl.name.clark = true)
    (h : LeafAdded c resolve owner (name, .element decl site occurs) p q) :
    ∃ id w type, let e : ElementDescriptor :=
        { typeId := id, isList := occurs.isRepeated, serializedName := name.filter (!·.isEmpty) }
      Yields (resolveRef c resolve site (some decl.name) decl.typeRef) p.2 (some id) w ∧
      q.1.elements.get? decl.name.clark = some e ∧ w.types.get? id = some type ∧ w.Grows 0 q.2 ∧
      (type.isAbstract = true → type.isSimple = true ∧ q.2 = w ∨
        Expanded c resolve owner decl e type.name w q.2 q.1.elements q.2) := by
  obtain ⟨⟨elements', listName⟩, t⟩ := q
  obtain ⟨elements, key, w, own, rest⟩ := added_of_addContentElement h
  cases own with
  | @entered id w typed fresh =>
    have own : (nameEntry (p.1.elements.insert decl.name.clark { typeId := id, isList := occurs.isRepeated })
        (some decl.name.clark) name).get? decl.name.clark = some
          { typeId := id, isList := occurs.isRepeated, serializedName := name.filter (!·.isEmpty) } := by
      rw [← OrderedMap.mem_entries_iff, entries_nameEntry fresh]
      exact List.mem_append_right _ (List.mem_singleton.2 rfl)
    have kept := OrderedMap.get?_of_prefix rest.entries_le own
    cases rest with
    | members joined => exact absurd alone joined
    | nothing _ concrete =>
      obtain ⟨type, entry, simple⟩ := concrete _ own
      exact ⟨id, _, type, typed, kept, entry, .refl 0 _, fun isAbstract => .inl ⟨simple isAbstract, rfl⟩⟩
    | subtypes _ own' entry isAbstract complex added =>
      obtain rfl := Option.some.inj (own.symm.trans own')
      have grows := (addConcrete_keeps (hresolve w) stable_grows w (.refl 0 w)).answer added
      exact ⟨id, w, _, typed, kept, entry, grows, fun _ => .inr (expanded_of_addConcrete hresolve hierarchy rfl added)⟩
  | duplicate _ taken => cases new.symm.trans taken
  | skipped _ _ =>
    cases rest with
    | members joined => exact absurd alone joined
    | nothing => cases new.symm.trans present
    | subtypes _ own' => cases own'

/-- An entry that was simple when an item was added still is when the content has been put into its type. -/
theorem isSimple_of_filled {c : ResolveContext} {depth : Nat} {id i : TypeId} {owner : String}
    {after : List (Option String × Leaf)} {q : Found × ResolveState} {found : Found} {v t : ResolveState}
    {layout : Layout} {keeps : ∀ t, (TypeEntry.withContent layout found t).key = t.key} {read type : TypeEntry}
    (entry : q.2.types.get? i = some read) (simple : read.isSimple = true)
    (rest : Through (LeafAdded c (resolveType c (fillTo c depth)) owner) after q (found, v))
    (last : Yields (Resolve.modifyType id (TypeEntry.withContent layout found) keeps) v () t)
    (filled : t.types.get? i = some type) : type.isSimple = true := by
  have stays := stableEntering_isSimple i
  have walked := LeafAdded.through_keeps stays.toStable (resolve_keeps stays depth) rest ⟨read, entry, simple⟩
  obtain ⟨-, rfl⟩ := yields_modifyType.1 last
  obtain ⟨type', filled', simple⟩ := stays.fill v id _ keeps trivial (fun _ => ⟨rfl, fun simple => simple⟩) walked
  obtain rfl := Option.some.inj (filled.symm.trans filled')
  exact simple

/-- The expansion of abstract types is complete.  When a complex type has been filled, each element of its content
that is alone in its substitution group and has an entry of its own, with an abstract type that is not simple, has
behind it an entry for every concrete type that extends that type, or one remark if there is none.  Where entries belong
to definitions, it is the declaration of its type that makes the element expand.  Entries stay as they are, whatever
comes later in the content and whatever is resolved afterwards. -/
theorem abstract_expanded {c : ResolveContext} {depth : Nat} {id : TypeId} {d : TypeDef} {site : Site}
    {s t : ResolveState} (hierarchy : c.hierarchy = .ofSet c.set) (hd : d.isSimple = false)
    (h : Yields (fillTo c (depth + 1) id d site) s () t) :
    let resolve := resolveType c (fillTo c depth)
    ∃ x layout entry found u v, d.complex? = some x ∧ t.types.get? id = some entry ∧
      c.set.layout entry.key [] site x = .ok layout ∧
      (layout.namedLeaves c entry.key).map Prod.snd = layout.leaves ∧ entry.elements = found.elements ∧
      Through (LeafAdded c resolve entry.key) (layout.namedLeaves c entry.key) (⟨∅, none⟩, u) (found, v) ∧
      (∀ before name decl site' occurs after,
        layout.namedLeaves c entry.key = before ++ (name, .element decl site' occurs) :: after →
        c.set.substitutes decl.name = [] →
        ∃ p q, Through (LeafAdded c resolve entry.key) before (⟨∅, none⟩, u) p ∧
          LeafAdded c resolve entry.key (name, .element decl site' occurs) p q ∧
          Through (LeafAdded c resolve entry.key) after q (found, v) ∧
          (p.1.elements.contains decl.name.clark = false → q.1.elements.contains decl.name.clark = true →
            ∃ i w, let e : ElementDescriptor :=
                { typeId := i, isList := occurs.isRepeated, serializedName := name.filter (!·.isEmpty) }
              Yields (resolveRef c resolve site' (some decl.name) decl.typeRef) p.2 (some i) w ∧
              entry.elements.get? decl.name.clark = some e ∧
              (∀ type, t.types.get? i = some type → type.isAbstract = true → type.isSimple = false →
                Expanded c resolve entry.key decl e type.name w q.2 entry.elements t) ∧
              (c.set.Built → c.set.KeysApart → s.Assigned c → s.Owned c id d site → ∀ base b,
                decl.typeRef = .named base → c.set.type? base = some b → b.isAbstract = true → b.isSimple = false →
                Expanded c resolve entry.key decl e base w q.2 entry.elements t))) ∧
      ∀ depth' d' site' context, Keeps (fun w => w.types.get? id = some entry)
        (resolveType c (fillTo c depth') d' site' context) := by
  intro resolve
  obtain ⟨x, layout, filled, before, found, u, v, hx, hlayout, attributes, through, last, hentry, same⟩ :=
    exists_filled resolve_adds hd h
  have elements : filled.elements = found.elements := by
    rw [same]
    rfl
  have vt : v.Grows 0 t := by
    refine (stable_grows.filling _ (Nat.zero_le _) ?_ v (.refl 0 v)).answer last
    exact fun _ => ⟨rfl, fun simple => simple⟩
  refine ⟨x, layout, filled, found, u, v, hx, hentry, hlayout, map_snd_namedLeaves _ _ _, elements, through, ?_,
    fun depth' d' site' context => resolve_keeps_entry c depth' d' site' context id _⟩
  intro before name decl site' occurs after split alone
  have parts := through
  rw [split] at parts
  obtain ⟨p, first, rest⟩ := Through.append_iff.1 parts
  obtain ⟨q, step, rest⟩ := Through.cons_iff.1 rest
  refine ⟨p, q, first, step, rest, fun new present => ?_⟩
  obtain ⟨i, w, read, typed, own, entry, wq, expanded⟩ :=
    expanded_of_leafAdded hierarchy (fun _ => resolve_adds) alone new present step
  have later := LeafAdded.through_entries_le rest
  rw [← elements] at later
  have qt := (LeafAdded.through_keeps stable_grows resolve_adds rest (.refl 0 q.2)).trans vt
  refine ⟨i, w, typed, OrderedMap.get?_of_prefix later own, fun type found isAbstract complex => ?_,
    fun built apart assigned owned base b named declared isAbstract complex => ?_⟩
  · obtain ⟨type', found', head⟩ := (wq.trans qt).get?_head entry
    obtain rfl := Option.some.inj (found'.symm.trans found)
    have name : type'.name = read.name := congrArg Prod.fst head
    rcases expanded ((congrArg Prod.snd head).symm.trans isAbstract) with ⟨simple, rfl⟩ | expanded
    · have still := isSimple_of_filled entry simple rest last found'
      cases complex.symm.trans still
    · rw [name]
      exact expanded.later later qt
  · have within : ∀ leaf ∈ before, leaf.2 ∈ layout.leaves := fun leaf hleaf =>
      Layout.mem_leaves_of_namedLeaves (split ▸ List.mem_append_left _ hleaf)
    obtain ⟨type', found', name, abstract_eq, plain⟩ := entry_of_typed built.indexed apart assigned owned hx hlayout
      within (yields_fillLeaves_iff.2 ⟨u, attributes, first⟩) named declared complex typed
    obtain rfl := Option.some.inj (entry.symm.trans found')
    have expanded := (expanded (abstract_eq.trans isAbstract)).resolve_left fun simple => by
      cases plain.symm.trans simple.1
    rw [name] at expanded
    exact expanded.later later qt

/-- A berth is for a vessel of one kind or another, or it has a note.  Tugs are an abstract kind. -/
def harbour : DeclarationSet :=
  let name := fun localName => (⟨some "urn:harbour", localName⟩ : QName)
  let element := fun localName typeRef => (.element ⟨name localName, .named typeRef, .once, false, none⟩ : Particle)
  let kind := fun localName isAbstract base => (⟨some (name localName), isAbstract,
    .complex ⟨.extension (name base), .empty, [], false⟩⟩ : TypeDef)
  (exec (DeclarationSet.add
    { targetNamespace := some "urn:harbour"
      types := [⟨some (name "Vessel"), true, .complex .empty⟩, kind "Ferry" false "Vessel", kind "Tug" true "Vessel",
        kind "SeaTug" false "Tug",
        ⟨some (name "Berth"), false, .complex ⟨.none, .elements ⟨.choice, .once,
          [element "vessel" (name "Vessel"), element "note" (.xsd "string")]⟩, [], false⟩⟩] }) .empty).2

theorem harbour_vessels : ∀ localName ∈ ["Ferry", "SeaTug"],
    ∃ d, harbour.type? ⟨some "urn:harbour", localName⟩ = some d ∧ d.isAbstract = false ∧
      TransGen harbour.ExtendsType ⟨some "urn:harbour", localName⟩ ⟨some "urn:harbour", "Vessel"⟩ := by
  have run : ([("Ferry", false, "Vessel"), ("Tug", true, "Vessel"), ("SeaTug", false, "Tug")].all
      fun (sub, isAbstract, base) => (harbour.type? ⟨some "urn:harbour", sub⟩).any fun d =>
        d.isAbstract == isAbstract && d.extensionBase? == some ⟨some "urn:harbour", base⟩) = true := by decide +kernel
  simp only [List.all_cons, List.all_nil, Bool.and_true, Bool.and_eq_true, Option.any_eq_true, beq_iff_eq] at run
  obtain ⟨⟨ferry, hferry, concrete, fromVessel⟩, ⟨tug, htug, -, fromVessel'⟩, seaTug, hseaTug, concrete', fromTug⟩ := run
  intro localName hname
  rcases List.mem_cons.1 hname with rfl | hname
  · exact ⟨ferry, hferry, concrete, .single ⟨ferry, hferry, fromVessel⟩⟩
  · obtain rfl := List.mem_singleton.1 hname
    exact ⟨seaTug, hseaTug, concrete', .head ⟨seaTug, hseaTug, fromTug⟩ (.single ⟨tug, htug, fromVessel'⟩)⟩

theorem berth_expanded :
    let name := fun localName => (⟨some "urn:harbour", localName⟩ : QName)
    let berth := name "Berth"
    let named : OverrideTable := { choiceGroups := .ofList [((berth.clark, none), some "moored")] }
    let c : ResolveContext := ⟨harbour, .ofSet harbour, named, {}⟩
    ∃ d id s t entry, harbour.type? berth = some d ∧ d.isSimple = false ∧
      Yields (Resolve.reserve berth false) (c.stateAfter []) id s ∧
      Yields (fillTo c 7 id d (siteOfType berth)) s () t ∧ t.types.get? id = some entry ∧
      ∀ localName ∈ ["Ferry", "SeaTug"], ∃ id, entry.elements.get? (name localName).clark = some
        { typeId := id, isList := false, serializedName := some "moored", sourceName := some (name "vessel") } := by
  intro name berth named c
  let vessel : ElementDecl := ⟨name "vessel", .named (name "Vessel"), .once, false, none⟩
  have built : harbour.Built := .add .empty _
  have apart : harbour.KeysApart := .of_run (by decide +kernel) (by decide +kernel)
  have run : gives (Resolve.reserve berth false) (c.stateAfter []) (fun id s =>
      harbour.testLayout berth s id fun d _ type layout => !d.isAbstract && type.key == berth.clark &&
        (layout.namedLeaves c berth.clark).head?.any (fun leaf => leaf.1 == some "moored" && leaf.2.isOnce vessel) &&
        gives (fillTo c 7 id d (siteOfType berth)) s fun _ t =>
          (t.types.get? id).any fun entry => entry.key == berth.clark) = true := by decide +kernel
  obtain ⟨id, s, reserved, run⟩ := gives_iff.1 run
  obtain ⟨d, x, type, layout, declared, complex, hx, -, hlayout, run⟩ := DeclarationSet.exists_of_testLayout run
  rw [Bool.and_eq_true, Bool.and_eq_true, Bool.and_eq_true, Bool.not_eq_true', beq_iff_eq] at run
  obtain ⟨⟨⟨concrete, own⟩, laid⟩, run⟩ := run
  obtain ⟨_, t, filled, run⟩ := gives_iff.1 run
  obtain ⟨entry, hentry, run⟩ := (Option.any_eq_true _ _).1 run
  have key := beq_iff_eq.1 run
  have vessels : ∃ b, harbour.type? (name "Vessel") = some b ∧ b.isAbstract = true ∧ b.isSimple = false := by
    have run : ((harbour.type? (name "Vessel")).any fun b => b.isAbstract && !b.isSimple) = true := by decide +kernel
    obtain ⟨b, hb, run⟩ := (Option.any_eq_true _ _).1 run
    rw [Bool.and_eq_true, Bool.not_eq_true'] at run
    exact ⟨b, hb, run⟩
  obtain ⟨b, hb, isAbstract, plain⟩ := vessels
  obtain ⟨assigned, owned⟩ := owned_of_reserve_stateAfter apart.unnamed built.indexed
    (fun _ _ _ listed => absurd listed List.not_mem_nil) declared (by decide +kernel) (concrete.symm ▸ reserved)
  obtain ⟨x', layout', entry', found, u, v, hx', hentry', hlayout', -, -, -, expanded, -⟩ :=
    abstract_expanded (c := c) rfl complex filled
  obtain rfl := Option.some.inj (hx.symm.trans hx')
  obtain rfl := Option.some.inj (hentry.symm.trans hentry')
  rw [key, ← own, show c.set.layout = harbour.layout from rfl, hlayout] at hlayout'
  cases hlayout'
  obtain ⟨⟨_, leaf⟩, leaves, laid⟩ := (Option.any_eq_true _ _).1 laid
  rw [Bool.and_eq_true, beq_iff_eq] at laid
  obtain ⟨rfl, laid⟩ := laid
  obtain ⟨site, occurs, rfl, once⟩ := Leaf.eq_element_of_isOnce laid
  obtain ⟨rest, leaves⟩ := List.head?_eq_some_iff.1 leaves
  rw [← key] at leaves
  obtain ⟨p, q, first, step, -, expanded⟩ := expanded [] _ _ _ _ _ leaves (by decide +kernel)
  obtain rfl := Through.nil_iff.1 first
  have typed : vessel.typeRef ≠ .unspecified := by
    intro untyped
    cases untyped
  obtain ⟨i, w, -, own, -, expanded⟩ := expanded rfl (contains_of_leafAdded typed step)
  have expanded := expanded built apart assigned owned _ b rfl hb isAbstract plain
  refine ⟨d, id, s, t, entry, declared, complex, reserved, filled, hentry, fun localName hname => ?_⟩
  obtain ⟨kind, hkind, concrete, below⟩ := harbour_vessels localName hname
  obtain ⟨j, -, -, -, -, -, found⟩ := expanded.concrete _ kind hkind concrete below
  rw [once] at found
  exact ⟨j, found⟩

end SchemaGraph
