import SchemaGraph.Proofs.Resolution.Expansion

/-! Heads of substitution groups.  Behind a head the content has entries for the members of its group.  They have the
local name of the head, also where a choice gives the head another name. -/
namespace SchemaGraph

open Stateful

section Members

variable (c : ResolveContext) (resolve : ResolveType) (head : QName)

/-- A member of the group of `head` gets an entry under the local name of the head, or it is left out. -/
inductive SubstituteAdded (member : QName) (p : ElementMap × ResolveState) : ElementMap × ResolveState → Prop
  | entered {decl : ElementDecl} {id : TypeId} {t : ResolveState} (declared : c.set.element? member = some decl)
      (typed : Yields (resolveRef c resolve ⟨.element member, []⟩ (some decl.name) decl.typeRef) p.2 (some id) t)
      (new : p.1.contains decl.name.clark = false) :
      SubstituteAdded member p (p.1.insert decl.name.clark
        { typeId := id, isList := decl.occurs.isRepeated, serializedName := some head.localName }, t)
  | duplicate {decl : ElementDecl} {t : ResolveState} (declared : c.set.element? member = some decl)
      (taken : p.1.contains decl.name.clark = true) : SubstituteAdded member p (p.1, t)
  | skipped {decl : ElementDecl} {t : ResolveState} (declared : c.set.element? member = some decl)
      (untyped : decl.typeRef = .unspecified) (header : decl.name ∈ c.options.headerOnly) :
      SubstituteAdded member p (p.1, t)

variable {c resolve head} {owner : String} {elements elements' : ElementMap} {s t : ResolveState}
  {p q : ElementMap × ResolveState}

theorem substituteAdded_of_addSubstitute {member : QName}
    (h : Yields (addSubstitute c resolve head owner elements member) s elements' t) :
    SubstituteAdded c resolve head member (elements, s) (elements', t) := by
  unfold addSubstitute at h
  obtain ⟨decl, known, h⟩ := yields_ofExcept_bind.1 h
  have declared := DeclarationSet.element_eq_ok_iff.1 known
  obtain ⟨⟨added, key⟩, u, step, h⟩ := yields_bind.1 h
  cases elementAdded_of_addElement step with
  | @entered id u typed new =>
    obtain ⟨rfl, rfl⟩ := yields_pure.1 h
    have named : (elements.insert decl.name.clark { typeId := id, isList := decl.occurs.isRepeated }).modify
        decl.name.clark (fun e => { e with serializedName := some head.localName }) =
        elements.insert decl.name.clark
          { typeId := id, isList := decl.occurs.isRepeated, serializedName := some head.localName } := by
      apply OrderedMap.ext
      rw [OrderedMap.entries_modify_insert new, OrderedMap.entries_insert new]
    rw [named]
    exact .entered declared typed new
  | duplicate _ taken =>
    obtain ⟨rfl, rfl⟩ := yields_pure.1 h
    exact .duplicate declared taken
  | skipped untyped header =>
    obtain ⟨rfl, rfl⟩ := yields_pure.1 h
    exact .skipped declared ((typeRef_eq_of_yields untyped).1 rfl) header

theorem substitutesAdded_of_addSubstitutes {members : List QName}
    (h : Yields (addSubstitutes c resolve elements head members owner) s elements' t) :
    Through (SubstituteAdded c resolve head) members (elements, s) (elements', t) :=
  (Through.of_foldlM h).map id fun _ _ _ => substituteAdded_of_addSubstitute

theorem SubstituteAdded.entries_le {member : QName} (h : SubstituteAdded c resolve head member p q) :
    p.1.entries <+: q.1.entries := by
  cases h with
  | entered _ _ new =>
    rw [OrderedMap.entries_insert new]
    exact List.prefix_append _ _
  | duplicate | skipped => exact List.prefix_rfl

theorem SubstituteAdded.through_entries_le {members : List QName}
    (h : Through (SubstituteAdded c resolve head) members p q) : p.1.entries <+: q.1.entries :=
  h.lift (I := fun p q => p.1.entries <+: q.1.entries) (fun _ => List.prefix_rfl)
    (fun _ _ _ => List.IsPrefix.trans) fun _ _ _ _ => SubstituteAdded.entries_le

theorem exists_entered_of_through {members : List QName} {k : String}
    (h : Through (SubstituteAdded c resolve head) members p q) (new : p.1.contains k = false)
    (present : q.1.contains k = true) :
    ∃ member ∈ members, ∃ decl id y z, c.set.element? member = some decl ∧ decl.name.clark = k ∧
      Yields (resolveRef c resolve ⟨.element member, []⟩ (some decl.name) decl.typeRef) y (some id) z ∧
      q.1.get? k = some
        { typeId := id, isList := decl.occurs.isRepeated, serializedName := some head.localName } := by
  obtain ⟨before, member, after, y, z, rfl, -, step, rest, absent, here⟩ :=
    h.exists_step (P := fun r => r.1.contains k = true) (Bool.eq_false_iff.1 new) present
  have later := SubstituteAdded.through_entries_le rest
  cases step with
  | @entered decl id t declared typed _ =>
    have same : k = decl.name.clark := (OrderedMap.contains_insert.1 here).resolve_right absent
    subst same
    refine ⟨member, by simp, decl, id, y.2, t, declared, rfl, typed, OrderedMap.get?_of_prefix later ?_⟩
    rw [OrderedMap.get?_insert, if_pos rfl]
  | duplicate | skipped => exact absurd here absent

theorem contains_of_through {members : List QName} {member : QName}
    (h : Through (SubstituteAdded c resolve head) members p q) (joins : member ∈ members) :
    ∃ decl, c.set.element? member = some decl ∧
      ((decl.typeRef = .unspecified → decl.name ∉ c.options.headerOnly) → q.1.contains decl.name.clark = true) := by
  obtain ⟨before, after, y, z, -, -, step, rest⟩ := h.of_mem joins
  have later := SubstituteAdded.through_entries_le rest
  cases step with
  | entered declared _ _ =>
    exact ⟨_, declared, fun _ => OrderedMap.contains_of_prefix later (OrderedMap.contains_insert.2 (.inl rfl))⟩
  | duplicate declared taken => exact ⟨_, declared, fun _ => OrderedMap.contains_of_prefix later taken⟩
  | skipped declared untyped header => exact ⟨_, declared, fun kept => absurd header (kept untyped)⟩

end Members

/-- What has become of the head of a substitution group and of the members behind it.  The head was added under `key`,
if it was, to a content that then had the entries `before` and had `after` behind the members; the filled content has
`elements`. -/
structure FannedOut (c : ResolveContext) (resolve : ResolveType) (head : ElementDecl) (occurs : Occurs)
    (name key : Option String) (before after elements : ElementMap) : Prop where
  own : ∀ k, key = some k → k = head.name.clark ∧ ∃ id, elements.get? k = some
    { typeId := id, isList := occurs.isRepeated, serializedName := name.filter (!·.isEmpty) }
  members : ∀ k, before.contains k = false → after.contains k = true →
    ∃ member ∈ c.set.substitutes head.name, ∃ decl id y z, c.set.element? member = some decl ∧ decl.name.clark = k ∧
      Yields (resolveRef c resolve ⟨.element member, []⟩ (some decl.name) decl.typeRef) y (some id) z ∧
      elements.get? k = some
        { typeId := id, isList := decl.occurs.isRepeated, serializedName := some head.name.localName }
  complete : ∀ member ∈ c.set.substitutes head.name, ∃ decl, c.set.element? member = some decl ∧
    ((decl.typeRef = .unspecified → decl.name ∉ c.options.headerOnly) → after.contains decl.name.clark = true)

section Content

variable {c : ResolveContext} {resolve : ResolveType} {owner : String} {head : ElementDecl} {site : Site}
  {occurs : Occurs} {name key : Option String} {before after elements elements' : ElementMap}

theorem FannedOut.later (h : FannedOut c resolve head occurs name key before after elements)
    (entries : elements.entries <+: elements'.entries) :
    FannedOut c resolve head occurs name key before after elements' where
  own := by
    intro k added
    obtain ⟨own, id, found⟩ := h.own k added
    exact ⟨own, id, OrderedMap.get?_of_prefix entries found⟩
  members := by
    intro k new present
    obtain ⟨member, joins, decl, id, y, z, declared, own, typed, found⟩ := h.members k new present
    exact ⟨member, joins, decl, id, y, z, declared, own, typed, OrderedMap.get?_of_prefix entries found⟩
  complete := h.complete

/-- The JSON name of an entry is its own, or else the local name of the element.  Members have that of the head if no
choice gives the head another one, and only then. -/
theorem FannedOut.agree_iff (h : FannedOut c resolve head occurs name key before after elements) {own k : String}
    {e m : ElementDescriptor} (added : key = some own) (found : elements.get? own = some e)
    (new : before.contains k = false) (present : after.contains k = true) (found' : elements.get? k = some m) :
    m.serializedName = some (e.serializedName.getD head.name.localName) ↔
      ∀ told, name = some told → told = "" ∨ told = head.name.localName := by
  obtain ⟨-, id, same⟩ := h.own own added
  obtain rfl := Option.some.inj (found.symm.trans same)
  obtain ⟨_, -, decl, id', _, _, -, -, -, same'⟩ := h.members k new present
  obtain rfl := Option.some.inj (found'.symm.trans same')
  cases name with
  | none => simp
  | some told =>
    by_cases empty : told = ""
    · simp [empty, Option.filter]
    · simp [empty, Option.filter, @eq_comm _ told]

theorem keys_nameEntry (elements : ElementMap) (key name : Option String) :
    (nameEntry elements key name).keys = elements.keys := by
  unfold nameEntry
  split
  · split
    · rfl
    · exact OrderedMap.keys_modify _ _ _
  · rfl

theorem fannedOut_of_leafAdded {p q : Found × ResolveState} (joined : c.set.substitutes head.name ≠ [])
    (h : LeafAdded c resolve owner (name, .element head site occurs) p q) :
    ∃ before key w, Yields (addElement c resolve p.1.elements head site occurs owner) p.2 (before, key) w ∧
      FannedOut c resolve head occurs name key before q.1.elements q.1.elements := by
  obtain ⟨⟨elements', listName⟩, t⟩ := q
  obtain ⟨before, key, w, added, rest⟩ := exists_restAdded h
  refine ⟨before, key, w, added, ?_⟩
  have same : (nameEntry before key name).keys = before.keys := keys_nameEntry _ _ _
  cases rest with
  | nothing alone | subtypes alone => exact absurd alone joined
  | members _ members =>
    have through := substitutesAdded_of_addSubstitutes members
    refine ⟨?_, fun k new present => ?_, fun member => contains_of_through through⟩
    · rintro k rfl
      cases elementAdded_of_addElement added with
      | @entered id w _ new =>
        refine ⟨rfl, id, OrderedMap.get?_of_prefix (SubstituteAdded.through_entries_le through) ?_⟩
        rw [← OrderedMap.mem_entries_iff, entries_nameEntry new]
        exact List.mem_append_right _ (List.mem_singleton.2 rfl)
    · refine exists_entered_of_through through ?_ present
      rw [← Bool.not_eq_true, ← OrderedMap.mem_keys_iff, same, OrderedMap.mem_keys_iff, Bool.not_eq_true]
      exact new

end Content

/-- The members of a substitution group have the local name of its head.  When a complex type has been filled, each head
among the elements of its content that has an entry of its own has it with the name of the choice around it, unless that
is empty; behind it come entries for the members of its group, all with the local name of the head.  This is the JSON
name of the head unless the choice gives it another one.  The entry of the type stays as it is, whatever is resolved
afterwards. -/
theorem substitutes_named {c : ResolveContext} {depth : Nat} {id : TypeId} {d : TypeDef} {site : Site}
    {s t : ResolveState} (hd : d.isSimple = false) (h : Yields (fillTo c (depth + 1) id d site) s () t) :
    let resolve := resolveType c (fillTo c depth)
    ∃ x layout entry found u v, d.complex? = some x ∧ t.types.get? id = some entry ∧
      c.set.layout entry.key [] site x = .ok layout ∧
      (layout.namedLeaves c entry.key).map Prod.snd = layout.leaves ∧ entry.elements = found.elements ∧
      Through (LeafAdded c resolve entry.key) (layout.namedLeaves c entry.key) (⟨∅, none⟩, u) (found, v) ∧
      (∀ first name head place occurs last,
        layout.namedLeaves c entry.key = first ++ (name, .element head place occurs) :: last →
        c.set.substitutes head.name ≠ [] →
        ∃ p q before key w, Through (LeafAdded c resolve entry.key) first (⟨∅, none⟩, u) p ∧
          Yields (addElement c resolve p.1.elements head place occurs entry.key) p.2 (before, key) w ∧
          LeafAdded c resolve entry.key (name, .element head place occurs) p q ∧
          Through (LeafAdded c resolve entry.key) last q (found, v) ∧
          FannedOut c resolve head occurs name key before q.1.elements entry.elements ∧
          ∀ own e k m, key = some own → entry.elements.get? own = some e →
            before.contains k = false → q.1.elements.contains k = true → entry.elements.get? k = some m →
            (m.serializedName = some (e.serializedName.getD head.name.localName) ↔
              ∀ told, name = some told → told = "" ∨ told = head.name.localName)) ∧
      ∀ depth' d' site' context, Keeps (fun w => w.types.get? id = some entry)
        (resolveType c (fillTo c depth') d' site' context) := by
  intro resolve
  obtain ⟨x, layout, entry, type, found, u, v, hx, hlayout, -, through, -, hentry, same⟩ :=
    exists_filled resolve_adds hd h
  have elements : entry.elements = found.elements := by
    rw [same]
    rfl
  refine ⟨x, layout, entry, found, u, v, hx, hentry, hlayout, map_snd_namedLeaves _ _ _, elements, through, ?_,
    fun depth' d' site' context => resolve_keeps_entry c depth' d' site' context id _⟩
  intro first name head place occurs last split joined
  have parts := through
  rw [split] at parts
  obtain ⟨p, front, rest⟩ := Through.append_iff.1 parts
  obtain ⟨q, step, rest⟩ := Through.cons_iff.1 rest
  obtain ⟨before, own, w, added, fanned⟩ := fannedOut_of_leafAdded joined step
  have fanned := fanned.later (LeafAdded.through_entries_le rest)
  rw [← elements] at fanned
  exact ⟨p, q, before, own, w, front, added, step, rest, fanned, fun _ _ _ _ => fanned.agree_iff⟩

def stallElement (localName : String) (head : Option QName) : ElementDecl :=
  ⟨⟨some "urn:stall", localName⟩, .named (.xsd "string"), .once, false, head⟩

def payment : ElementDecl := stallElement "payment" none

/-- A sale is paid in one of two ways, or there is a voucher for it. -/
def stall : DeclarationSet :=
  (exec (DeclarationSet.add
    { targetNamespace := some "urn:stall"
      elements := [payment, stallElement "card" payment.name, stallElement "cash" payment.name]
      types := [⟨some ⟨some "urn:stall", "Sale"⟩, false, .complex ⟨.none, .elements ⟨.choice, .once,
        [.elementRef payment.name .once, .element (stallElement "voucher" none)]⟩, [], false⟩⟩] }) .empty).2

theorem sale_substitutes :
    let sale : QName := ⟨some "urn:stall", "Sale"⟩
    let named : OverrideTable := { choiceGroups := .ofList [((sale.clark, none), some "paidBy")] }
    let c : ResolveContext := ⟨stall, .ofSet stall, named, {}⟩
    let s := (exec (Resolve.reserve sale false) .empty).2
    ∃ d t entry e, stall.type? sale = some d ∧ d.isSimple = false ∧
      Yields (fillTo c 7 ⟨0⟩ d (siteOfType sale)) s () t ∧ t.types.get? ⟨0⟩ = some entry ∧
      entry.elements.get? payment.name.clark = some e ∧ e.serializedName = some "paidBy" ∧
      ∀ member ∈ stall.substitutes payment.name, ∃ m, entry.elements.get? member.clark = some m ∧
        m.serializedName = some "payment" ∧ m.serializedName ≠ some (e.serializedName.getD payment.name.localName) := by
  intro sale named c s
  have run : stall.testLayout sale s ⟨0⟩ (fun d _ type layout => type.key == sale.clark &&
      (layout.namedLeaves c sale.clark).head?.any (fun leaf => leaf.1 == some "paidBy" && leaf.2.isOnce payment) &&
      gives (fillTo c 7 ⟨0⟩ d (siteOfType sale)) s fun _ t => (t.types.get? ⟨0⟩).any fun entry =>
        entry.key == sale.clark) = true := by decide +kernel
  obtain ⟨d, x, type, layout, declared, complex, hx, -, hlayout, run⟩ := DeclarationSet.exists_of_testLayout run
  rw [Bool.and_eq_true, Bool.and_eq_true, beq_iff_eq] at run
  obtain ⟨⟨own, laid⟩, run⟩ := run
  obtain ⟨_, t, filled, run⟩ := gives_iff.1 run
  obtain ⟨entry, hentry, key⟩ := (Option.any_eq_true _ _).1 run
  rw [beq_iff_eq] at key
  obtain ⟨x', layout', entry', found, u, v, hx', hentry', hlayout', -, -, -, heads, -⟩ :=
    substitutes_named (c := c) complex filled
  obtain rfl := Option.some.inj (hx.symm.trans hx')
  obtain rfl := Option.some.inj (hentry.symm.trans hentry')
  rw [key, ← own, show c.set.layout = stall.layout from rfl, hlayout] at hlayout'
  cases hlayout'
  obtain ⟨⟨_, leaf⟩, leaves, laid⟩ := (Option.any_eq_true _ _).1 laid
  rw [Bool.and_eq_true, beq_iff_eq] at laid
  obtain ⟨rfl, laid⟩ := laid
  obtain ⟨place, occurs, rfl, -⟩ := Leaf.eq_element_of_isOnce laid
  obtain ⟨rest, leaves⟩ := List.head?_eq_some_iff.1 leaves
  rw [← key] at leaves
  obtain ⟨p, q, before, own, w, first, added, -, -, fanned, agree⟩ := heads [] _ _ _ _ _ leaves (by decide +kernel)
  obtain rfl := Through.nil_iff.1 first
  cases elementAdded_of_addElement added with
  | duplicate _ taken => cases taken
  | skipped untyped _ => cases (typeRef_eq_of_yields untyped).1 rfl
  | @entered j =>
    obtain ⟨-, i, own⟩ := fanned.own _ rfl
    refine ⟨d, t, entry, _, declared, complex, filled, hentry, own, rfl, fun member joins => ?_⟩
    have indexed : stall.Indexed := (DeclarationSet.Built.add .empty _).indexed
    obtain ⟨decl, known, present⟩ := fanned.complete member joins
    obtain rfl := indexed.elements member decl known
    have present := present fun _ => List.not_mem_nil
    have other : decl.name.clark ≠ payment.name.clark := by
      have others : ∀ member ∈ stall.substitutes payment.name, member.clark ≠ payment.name.clark := by decide +kernel
      exact others decl.name joins
    have new : (OrderedMap.insert (∅ : ElementMap) payment.name.clark
        { typeId := j, isList := occurs.isRepeated }).contains decl.name.clark = false := by
      rw [← Bool.not_eq_true, OrderedMap.contains_insert]
      exact fun h => h.elim other nofun
    obtain ⟨_, -, decl', i', _, _, -, -, -, found'⟩ := fanned.members _ new present
    refine ⟨_, found', rfl, fun same => ?_⟩
    rcases (agree _ _ _ _ rfl own new present found').1 same "paidBy" rfl with empty | same
    · exact absurd empty (by decide)
    · exact absurd same (by decide)

end SchemaGraph
