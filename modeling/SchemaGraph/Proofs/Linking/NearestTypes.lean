import Mathlib.Logic.Relation
import Mathlib.Tactic.ByContra
import SchemaGraph.Declaration.Equality
import SchemaGraph.Proofs.Linking.Built

/-! Which type an element has once types were handed down: that of the first element with a type on the way up from
it.  A round gives only what is nearest, and where no round has more to give nothing nearer is left out. -/
namespace SchemaGraph.DeclarationSet

open Relation Stateful

/-- The element has no type, and it joins the group of `head`. -/
def LooksTo (s : DeclarationSet) (name head : QName) : Prop :=
  ∃ d, s.element? name = some d ∧ d.typeRef = .unspecified ∧ d.head = some head

/-- `r` is the type of the first element with a type on the way up from `name`. -/
inductive NearestType (s : DeclarationSet) : QName → TypeRef → Prop
  | own {name : QName} {d : ElementDecl} {r : TypeRef} (declared : s.element? name = some d)
      (own : d.typeRef = r) (typed : r ≠ .unspecified) : NearestType s name r
  | head {name head : QName} {r : TypeRef} (looks : s.LooksTo name head) (nearest : NearestType s head r) :
      NearestType s name r

/-- The way up comes to an element that is not declared, to one that has neither a type nor a head, or into a circle. -/
def EndsUntyped (s : DeclarationSet) (name : QName) : Prop :=
  ∃ last, ReflTransGen s.LooksTo name last ∧
    (s.element? last = none ∨
      (∃ d, s.element? last = some d ∧ d.typeRef = .unspecified ∧ d.head = none) ∨
      TransGen s.LooksTo last last)

variable {s s' t : DeclarationSet} {name head head' : QName} {r r' : TypeRef} {d : ElementDecl}

section WayUp

theorem LooksTo.unique (h : s.LooksTo name head) (h' : s.LooksTo name head') : head = head' := by
  obtain ⟨d, found, -, joins⟩ := h
  obtain ⟨d', found', -, joins'⟩ := h'
  obtain rfl := Option.some.inj (found.symm.trans found')
  exact Option.some.inj (joins.symm.trans joins')

theorem NearestType.typed (h : s.NearestType name r) : r ≠ .unspecified := by
  induction h with
  | own _ _ typed => exact typed
  | head _ _ ih => exact ih

theorem NearestType.exists_own (h : s.NearestType name r) : ∃ other d, s.element? other = some d ∧ d.typeRef = r := by
  induction h with
  | own declared own _ => exact ⟨_, _, declared, own⟩
  | head _ _ ih => exact ih

theorem NearestType.unique (h : s.NearestType name r) (h' : s.NearestType name r') : r = r' := by
  induction h with
  | own declared own typed =>
    cases h' with
    | own declared' own' _ =>
      obtain rfl := Option.some.inj (declared.symm.trans declared')
      exact own.symm.trans own'
    | head looks _ =>
      obtain ⟨d, declared', untyped, -⟩ := looks
      obtain rfl := Option.some.inj (declared.symm.trans declared')
      exact absurd (own.symm.trans untyped) typed
  | head looks _ ih =>
    cases h' with
    | own declared' own' typed' =>
      obtain ⟨d, declared, untyped, -⟩ := looks
      obtain rfl := Option.some.inj (declared.symm.trans declared')
      exact absurd (own'.symm.trans untyped) typed'
    | head looks' nearest' => exact ih (looks.unique looks' ▸ nearest')

theorem LooksTo.endsUntyped (looks : s.LooksTo name head) (h : s.EndsUntyped name) : s.EndsUntyped head := by
  obtain ⟨last, way, ending⟩ := h
  rcases way.cases_head with rfl | ⟨next, first, rest⟩
  · rcases ending with undeclared | ⟨d, found, -, none⟩ | circle
    · obtain ⟨d, found, -⟩ := looks
      cases undeclared.symm.trans found
    · obtain ⟨d', found', -, joins⟩ := looks
      obtain rfl := Option.some.inj (found.symm.trans found')
      cases none.symm.trans joins
    · obtain ⟨next, first, back⟩ := TransGen.head'_iff.1 circle
      obtain rfl := looks.unique first
      exact ⟨name, back, .inr (.inr circle)⟩
  · obtain rfl := looks.unique first
    exact ⟨last, rest, ending⟩

theorem NearestType.not_endsUntyped (h : s.NearestType name r) : ¬ s.EndsUntyped name := by
  induction h with
  | @own name d r declared own typed =>
    have still : ∀ next, ¬ s.LooksTo name next := by
      rintro next ⟨d', found, untyped, -⟩
      obtain rfl := Option.some.inj (declared.symm.trans found)
      exact typed (own.symm.trans untyped)
    rintro ⟨last, way, ending⟩
    rcases way.cases_head with rfl | ⟨next, first, -⟩
    · rcases ending with undeclared | ⟨d', found, untyped, -⟩ | circle
      · cases undeclared.symm.trans declared
      · obtain rfl := Option.some.inj (declared.symm.trans found)
        exact typed (own.symm.trans untyped)
      · obtain ⟨next, first, -⟩ := TransGen.head'_iff.1 circle
        exact still next first
    · exact still next first
  | head looks _ ih => exact fun ends => ih (looks.endsUntyped ends)

/-- A way that never comes to a type comes to an end or back to itself: there are only so many elements. -/
theorem nearestType_or_endsUntyped (s : DeclarationSet) (path : List QName) (name : QName)
    (way : ∀ p ∈ path, TransGen s.LooksTo p name) : (∃ r, s.NearestType name r) ∨ s.EndsUntyped name := by
  by_cases again : name ∈ path
  · exact .inr ⟨name, .refl, .inr (.inr (way name again))⟩
  · cases found : s.element? name with
    | none => exact .inr ⟨name, .refl, .inl found⟩
    | some d =>
      by_cases untyped : d.typeRef = .unspecified
      · cases joins : d.head with
        | none => exact .inr ⟨name, .refl, .inr (.inl ⟨d, found, untyped, joins⟩)⟩
        | some head =>
          have looks : s.LooksTo name head := ⟨d, found, untyped, joins⟩
          have longer : ∀ p ∈ name :: path, TransGen s.LooksTo p head :=
            List.forall_mem_cons.2 ⟨.single looks, fun p hp => (way p hp).tail looks⟩
          rcases nearestType_or_endsUntyped s (name :: path) head longer with ⟨r, nearest⟩ | ⟨last, rest, ending⟩
          · exact .inl ⟨r, .head looks nearest⟩
          · exact .inr ⟨last, .head looks rest, ending⟩
      · exact .inl ⟨d.typeRef, .own found rfl untyped⟩
termination_by unvisited s.elements.keys path
decreasing_by
  exact unvisited_cons_lt ((OrderedMap.mem_keys_iff _ _).2 (Option.isSome_of_mem found)) again

theorem LooksTo.of_same (same : ∀ name, s.element? name = s'.element? name) (h : s.LooksTo name head) :
    s'.LooksTo name head := by
  simpa only [LooksTo, same] using h

theorem NearestType.of_same (same : ∀ name, s.element? name = s'.element? name) (h : s.NearestType name r) :
    s'.NearestType name r := by
  induction h with
  | own declared own typed => exact .own (same _ ▸ declared) own typed
  | head looks _ ih => exact .head (looks.of_same same) ih

end WayUp

section Rounds

theorem mem_heads_of_mem_substitutes (h : name ∈ s.substitutes head) : head ∈ s.heads := by
  rw [heads, OrderedMap.mem_keys_iff, OrderedMap.contains]
  unfold substitutes at h
  cases joined : s.substitutionGroups.get? head with
  | none =>
    rw [joined] at h
    cases h
  | some _ => rfl

theorem mem_handedDown_iff (hi : s.Indexed) :
    (name, r) ∈ s.handedDown ↔ r ≠ .unspecified ∧
      ∃ head decl, s.LooksTo name head ∧ s.element? head = some decl ∧ decl.typeRef = r := by
  simp only [handedDown, List.mem_flatMap, mem_handedDownBy_iff, mem_substitutes_iff hi, LooksTo]
  constructor
  · rintro ⟨head, -, typed, ⟨decl, found, same⟩, ⟨d, own, joins⟩, d', own', free⟩
    obtain rfl := Option.some.inj (own.symm.trans own')
    exact ⟨typed, head, decl, ⟨d, own, free, joins⟩, found, same⟩
  · rintro ⟨typed, head, decl, ⟨d, own, free, joins⟩, found, same⟩
    exact ⟨head, mem_heads_of_mem_substitutes ((mem_substitutes_iff hi).2 ⟨d, own, joins⟩), typed,
      ⟨decl, found, same⟩, ⟨d, own, joins⟩, d, own, free⟩

theorem element?_giveType (s : DeclarationSet) (gift : QName × TypeRef) (name : QName) :
    (s.giveType gift).element? name =
      if name = gift.1 then (s.element? gift.1).map fun d => { d with typeRef := gift.2 } else s.element? name :=
  OrderedMap.get?_modify _ _ _ _

theorem Retypes.exists_element (h : s.Retypes t) (found : t.element? name = some d) :
    ∃ d₀, s.element? name = some d₀ ∧ ∃ r, d = { d₀ with typeRef := r } := by
  obtain ⟨_, rfl⟩ := h
  obtain ⟨d₀, found₀, rfl⟩ := OrderedMap.get?_mapValues_eq_some found
  exact ⟨d₀, found₀, _, rfl⟩

theorem Retypes.exists_retyped (h : s.Retypes t) (found : s.element? name = some d) :
    ∃ r, t.element? name = some { d with typeRef := r } := by
  have declared : t.elements.contains name = true := by
    rw [← OrderedMap.mem_keys_iff, h.keys, OrderedMap.mem_keys_iff]
    exact Option.isSome_of_mem found
  obtain ⟨d', found'⟩ := Option.isSome_iff_exists.1 declared
  obtain ⟨d₀, found₀, r, rfl⟩ := h.exists_element found'
  obtain rfl := Option.some.inj (found.symm.trans found₀)
  exact ⟨r, found'⟩

theorem Retypes.element?_eq_none (h : s.Retypes t) (undeclared : s.element? name = none) : t.element? name = none := by
  by_contra declared
  obtain ⟨d, found⟩ := Option.ne_none_iff_exists'.1 declared
  obtain ⟨d₀, found₀, -⟩ := h.exists_element found
  cases undeclared.symm.trans found₀

/-- `t` is `s` after some handing down: what has a type keeps it, and what was given one was given the nearest. -/
structure Handed (s t : DeclarationSet) : Prop where
  retypes : s.Retypes t
  kept : ∀ name d, s.element? name = some d → d.typeRef ≠ .unspecified → t.element? name = some d
  nearest : ∀ name d, t.element? name = some d → d.typeRef ≠ .unspecified → s.NearestType name d.typeRef

theorem Handed.refl (s : DeclarationSet) : s.Handed s :=
  ⟨.refl s, fun _ _ found _ => found, fun _ _ found typed => .own found rfl typed⟩

theorem Handed.looksTo (h : s.Handed t) (looks : t.LooksTo name head) : s.LooksTo name head := by
  obtain ⟨d, found, untyped, joins⟩ := looks
  obtain ⟨d₀, found₀, r, rfl⟩ := h.retypes.exists_element found
  refine ⟨d₀, found₀, ?_, joins⟩
  by_contra typed
  obtain same := Option.some.inj (found.symm.trans (h.kept name d₀ found₀ typed))
  exact typed (same ▸ untyped)

theorem Handed.giveType (h : s.Handed t) {gift : QName × TypeRef} (near : s.NearestType gift.1 gift.2) :
    s.Handed (t.giveType gift) where
  retypes := h.retypes.trans (retypes_giveType t gift)
  kept := by
    intro name d found typed
    have before := h.kept name d found typed
    rw [element?_giveType]
    split
    · next own =>
      subst own
      have same : d.typeRef = gift.2 := (NearestType.own found rfl typed).unique near
      rw [before, Option.map_some, ← same, ElementDecl.eta]
    · exact before
  nearest := by
    intro name d found typed
    rw [element?_giveType] at found
    split at found
    · next own =>
      subst own
      obtain ⟨d₀, -, rfl⟩ := Option.map_eq_some_iff.1 found
      exact near
    · exact h.nearest name d found typed

theorem Handed.handDown (h : s.Handed t) (hi : s.Indexed) : s.Handed t.handDown := by
  have fair : ∀ gift ∈ t.handedDown, s.NearestType gift.1 gift.2 := by
    rintro ⟨name, r⟩ given
    obtain ⟨typed, head, decl, looks, found, rfl⟩ := (mem_handedDown_iff (h.retypes.indexed hi)).1 given
    exact .head (h.looksTo looks) (h.nearest head decl found typed)
  exact List.foldlRecOn _ _ h fun u hu gift given => hu.giveType (fair gift given)

theorem Handed.inheritTypes (h : s.Handed t) (hi : s.Indexed) :
    s.Handed t.inheritTypes ∧ t.inheritTypes.handedDown = [] := by
  induction t using inheritTypes.induct with
  | case1 t done =>
    rw [DeclarationSet.inheritTypes, dif_pos done]
    exact ⟨h, done⟩
  | case2 t more ih =>
    rw [DeclarationSet.inheritTypes, dif_neg more]
    exact ih (h.handDown hi)

theorem Handed.exists_of_nearestType (h : s.Handed t) (hi : s.Indexed) (done : t.handedDown = [])
    (near : s.NearestType name r) : ∃ d, t.element? name = some d ∧ d.typeRef = r := by
  induction near with
  | @own name d r declared own typed => exact ⟨d, h.kept name d declared (own ▸ typed), own⟩
  | @head name head r looks above ih =>
    obtain ⟨decl, found, rfl⟩ := ih
    have near := NearestType.head looks above
    obtain ⟨d, declared, untyped, joins⟩ := looks
    obtain ⟨r', given⟩ := h.retypes.exists_retyped declared
    have typed : r' ≠ .unspecified := by
      rintro rfl
      have left : (name, decl.typeRef) ∈ t.handedDown := (mem_handedDown_iff (h.retypes.indexed hi)).2
        ⟨near.typed, head, decl, ⟨_, given, rfl, joins⟩, found, rfl⟩
      exact List.not_mem_nil (done ▸ left)
    exact ⟨_, given, (h.nearest name _ given typed).unique near⟩

end Rounds

theorem nearestType_iff (hi : s.Indexed) (found : s.inheritTypes.element? name = some d) :
    s.NearestType name r ↔ d.typeRef = r ∧ r ≠ .unspecified := by
  obtain ⟨handed, done⟩ := (Handed.refl s).inheritTypes hi
  constructor
  · intro near
    obtain ⟨d', found', same⟩ := handed.exists_of_nearestType hi done near
    obtain rfl := Option.some.inj (found.symm.trans found')
    exact ⟨same, near.typed⟩
  · rintro ⟨rfl, typed⟩
    exact handed.nearest name d found typed

theorem unspecified_iff_endsUntyped (hi : s.Indexed) (found : s.inheritTypes.element? name = some d) :
    d.typeRef = .unspecified ↔ s.EndsUntyped name := by
  constructor
  · intro untyped
    rcases nearestType_or_endsUntyped s [] name (List.forall_mem_nil _) with ⟨r, near⟩ | ends
    · obtain ⟨same, typed⟩ := (nearestType_iff hi found).1 near
      exact absurd (same.symm.trans untyped) typed
    · exact ends
  · intro ends
    by_contra typed
    exact ((nearestType_iff hi found).2 ⟨rfl, typed⟩).not_endsUntyped ends

theorem element?_of_perm (hi : s.Indexed) (hi' : s'.Indexed) (same : s'.elements.values.Perm s.elements.values)
    (name : QName) : s'.element? name = s.element? name := by
  ext d
  have known : ∀ {u : DeclarationSet}, u.Indexed →
      (u.element? name = some d ↔ d ∈ u.elements.values ∧ d.name = name) := by
    intro u hu
    rw [OrderedMap.mem_values_iff]
    constructor
    · exact fun found => ⟨⟨name, found⟩, hu.elements name d found⟩
    · rintro ⟨⟨k, found⟩, rfl⟩
      exact hu.elements k d found ▸ found
  rw [known hi, known hi', same.mem_iff]

theorem inheritTypes_of_same (hi : s.Indexed) (hi' : s'.Indexed)
    (same : ∀ name, s'.element? name = s.element? name) (name : QName) :
    s'.inheritTypes.element? name = s.inheritTypes.element? name := by
  have retypes := retypes_inheritTypes s
  have retypes' := retypes_inheritTypes s'
  cases declared : s.element? name with
  | none => rw [retypes.element?_eq_none declared, retypes'.element?_eq_none ((same name).trans declared)]
  | some d =>
    obtain ⟨r, found⟩ := retypes.exists_retyped declared
    obtain ⟨r', found'⟩ := retypes'.exists_retyped ((same name).trans declared)
    have nearest : ∀ r₀, r = r₀ ∧ r₀ ≠ .unspecified ↔ r' = r₀ ∧ r₀ ≠ .unspecified := by
      intro r₀
      rw [← nearestType_iff hi found, ← nearestType_iff hi' found']
      exact ⟨.of_same fun name => (same name).symm, .of_same same⟩
    have agree : r' = r := by
      by_cases untyped : r = .unspecified
      · by_contra other
        exact other ((nearest r').2 ⟨rfl, untyped ▸ other⟩).1.symm
      · exact ((nearest r).1 ⟨rfl, untyped⟩).1
    rw [found, found', agree]

/-- Linking gives every element the nearest type on the way up from it and leaves those untyped that have none, also
where the check of the references then fails.  It changes nothing else, and the order of the declarations does not
matter. -/
theorem link_gives_nearest (hs : s.Built) :
    ∃ t, exec link s = (t.checkReferences, t) ∧ s.Retypes t ∧
      (∀ name d, t.element? name = some d →
        (∀ r, s.NearestType name r ↔ d.typeRef = r ∧ r ≠ .unspecified) ∧
          (d.typeRef = .unspecified ↔ s.EndsUntyped name)) ∧
      ∀ s', s'.Built → s'.elements.values.Perm s.elements.values →
        ∀ name, (exec link s').2.element? name = t.element? name := by
  have indexed := hs.indexed
  refine ⟨s.inheritTypes, exec_link s, retypes_inheritTypes s, fun name d found => ?_, fun s' hs' reordered name => ?_⟩
  · exact ⟨fun r => nearestType_iff indexed found, unspecified_iff_endsUntyped indexed found⟩
  · rw [exec_link]
    exact inheritTypes_of_same indexed hs'.indexed (element?_of_perm indexed hs'.indexed reordered) name

def kin (localName : String) (typeRef : TypeRef) (head : Option String) : ElementDecl :=
  ⟨⟨some "urn:kin", localName⟩, typeRef, .once, false, head.map fun localName => ⟨some "urn:kin", localName⟩⟩

/-- Two members in a row below a typed head, and one that has a type of its own. -/
def descent : SchemaDocument where
  targetNamespace := some "urn:kin"
  elements := [kin "Grandchild" .unspecified "Child", kin "Child" .unspecified "Parent",
    kin "Parent" (.named (.xsd "string")) none, kin "Adopted" (.named (.xsd "int")) "Child"]

/-- Two members that name each other, one that names them, and one whose head is not declared. -/
def strangers : SchemaDocument where
  targetNamespace := some "urn:kin"
  elements := [kin "Ghost" .unspecified "Nobody", kin "Twin" .unspecified "Double", kin "Double" .unspecified "Twin",
    kin "Guest" .unspecified "Twin"]

def kinship (first second : SchemaDocument) : DeclarationSet := (exec (add second) (exec (add first) .empty).2).2

theorem kinship_gives_nearest :
    let s := kinship descent strangers
    let s' := kinship strangers descent
    s.Built ∧ s'.Built ∧ s'.elements.values.Perm s.elements.values ∧
      (∃ t, exec link s = (t.checkReferences, t) ∧ s.Retypes t ∧
        (∀ name d, t.element? name = some d →
          (∀ r, s.NearestType name r ↔ d.typeRef = r ∧ r ≠ .unspecified) ∧
            (d.typeRef = .unspecified ↔ s.EndsUntyped name)) ∧
        ∀ name, (exec link s').2.element? name = t.element? name) ∧
      (exec link s).2.elements.values.map (fun d => (d.name.localName, d.typeRef)) =
        [("Grandchild", .named (.xsd "string")), ("Child", .named (.xsd "string")), ("Parent", .named (.xsd "string")),
          ("Adopted", .named (.xsd "int")), ("Ghost", .unspecified), ("Twin", .unspecified), ("Double", .unspecified),
          ("Guest", .unspecified)] := by
  intro s s'
  have built : s.Built := .add (.add .empty _) _
  have built' : s'.Built := .add (.add .empty _) _
  have reordered : s'.elements.values.Perm s.elements.values := List.isPerm_iff.1 (by decide +kernel)
  obtain ⟨t, linked, retypes, nearest, order⟩ := link_gives_nearest built
  exact ⟨built, built', reordered, ⟨t, linked, retypes, nearest, order s' built' reordered⟩,
    eq_of_beq (by decide +kernel)⟩

end SchemaGraph.DeclarationSet
