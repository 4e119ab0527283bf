import SchemaGraph.Proofs.Resolution.Expansion
import SchemaGraph.Proofs.Resolution.Filling

/-! Choices and the override table.  A content is filled in only if the table has an entry for each of its choices,
and the elements of a choice get the name that the table has for it. -/
namespace SchemaGraph

open Stateful

namespace PassedChoices

variable {c : ResolveContext} {owner : String} {isChoice : Bool} {s s' : PassedChoices} {members : List Member}

theorem entry_of_reach (h : s.reach c owner isChoice members = .ok s') {i : Nat} (here : s.count ≤ i)
    (below : i < s'.count) : ∃ name, c.overrides.choiceGroup? owner (some i) = some name := by
  induction members generalizing s with
  | nil =>
    cases h
    exact absurd here (Nat.not_le_of_lt below)
  | cons m rest ih =>
    obtain ⟨name, mid, first, later⟩ := reach_cons_eq_ok_iff.1 h
    cases next_eq_ok_iff.1 first with
    | choice _ _ entry =>
      rcases Nat.lt_or_eq_of_le here with here | rfl
      · exact ih later here
      · exact ⟨name, entry⟩
    | group | alternative | element | any => exact ih later here

theorem outer_entry_of_reach (h : s.reach c owner isChoice members = .ok s') (hs : s.Told c owner)
    (choice : isChoice = true) {decl : ElementDecl} {site : Site} {occurs : Occurs}
    (hm : Member.element decl site occurs ∈ members) :
    ∃ name, c.overrides.choiceGroup? owner none = some name := by
  obtain ⟨before, after, rfl⟩ := List.append_of_mem hm
  obtain ⟨mid, first, later⟩ := reach_append_eq_ok_iff.1 h
  obtain ⟨name, behind, next, -⟩ := reach_cons_eq_ok_iff.1 later
  cases next_eq_ok_iff.1 next with
  | alternative _ _ named => exact ⟨name, named.elim (told_of_reach first hs name) And.right⟩
  | element plain => cases choice.symm.trans plain

theorem namedLeaves_of_choice {before after : List Member} {g : GroupView} (choice : g.isChoice = true)
    (h : start.reach c owner isChoice (before ++ .group g :: after) = .ok s') :
    ∃ name rest, c.overrides.choiceGroup? owner (some (choices before).length) = some name ∧
      namedLeaves c owner isChoice 0 (before ++ .group g :: after) =
        namedLeaves c owner isChoice 0 before ++ (g.leaves.map (Prod.mk name) ++ rest) := by
  obtain ⟨mid, first, later⟩ := reach_append_eq_ok_iff.1 h
  obtain ⟨name, behind, next, -⟩ := reach_cons_eq_ok_iff.1 later
  have passes := next_eq_ok_iff.1 next
  have count : mid.count = (choices before).length := (count_of_reach first).trans (Nat.zero_add _)
  have told := told_of_reach first told_start
  refine ⟨name, namedLeaves c owner isChoice behind.count after, ?_, ?_⟩
  · cases passes with
    | choice _ _ entry => rwa [count] at entry
    | group _ plain => cases choice.symm.trans plain
  · exact (namedLeaves_append_of_reach told_start first _).trans (congrArg _ (passes.namedLeaves_eq told after))

theorem Passes.isSome_outer_iff {m : Member} {name : Option String} (h : s.Passes c owner isChoice m name s') :
    s'.outer.isSome = true ↔
      s.outer.isSome = true ∨ isChoice = true ∧ ∃ decl site occurs, m = .element decl site occurs := by
  cases h with
  | choice | group | any => simp
  | alternative choice => simp [choice]
  | element plain => simp [plain]

theorem isSome_outer_of_reach (h : s.reach c owner isChoice members = .ok s') :
    s'.outer.isSome = true ↔
      s.outer.isSome = true ∨ isChoice = true ∧ ∃ decl site occurs, .element decl site occurs ∈ members := by
  induction members generalizing s with
  | nil =>
    cases h
    simp
  | cons m rest ih =>
    obtain ⟨name, mid, first, later⟩ := reach_cons_eq_ok_iff.1 h
    rw [ih later, (next_eq_ok_iff.1 first).isSome_outer_iff, or_assoc, ← and_or_left]
    simp only [List.mem_cons, exists_or, eq_comm (a := m)]

/-- Behind an element of a choice the outer choice has the name that the table has for it. -/
theorem isSome_join_outer_of_reach (h : start.reach c owner isChoice members = .ok s') :
    s'.outer.join.isSome = true ↔ isChoice = true ∧ (∃ decl site occurs, .element decl site occurs ∈ members) ∧
      ∃ name, c.overrides.choiceGroup? owner none = some (some name) := by
  have told := told_of_reach h told_start
  have looked := isSome_outer_of_reach h
  simp only [start, Option.isSome_none, Bool.false_eq_true, false_or] at looked
  rw [← and_assoc, ← looked]
  cases outer : s'.outer with
  | none => simp
  | some name =>
    rw [told name outer]
    cases name <;> simp

theorem next_of_missing {g : GroupView} (choice : g.isChoice = true)
    (missing : c.overrides.choiceGroup? owner (some s.count) = none) :
    s.next c owner isChoice (.group g) = .error
      (if s.outer.join.isSome then .mixedChoiceContent owner else .missingChoiceGroup owner (some s.count)) := by
  have unnamed : choiceName c owner (some s.count) = .error (.missingChoiceGroup owner (some s.count)) := by
    rw [choiceName, missing]
  dsimp only [next]
  rw [choice, unnamed]
  split <;> rfl

end PassedChoices

section Entry

variable {c : ResolveContext} {resolve : ResolveType} {owner : String} {decl : ElementDecl} {site : Site}
  {occurs : Occurs} {name : Option String} {p q : Found × ResolveState}

theorem named_of_leafAdded (h : LeafAdded c resolve owner (name, .element decl site occurs) p q) :
    ∃ elements key w, Yields (addElement c resolve p.1.elements decl site occurs owner) p.2 (elements, key) w ∧
      ∀ k, key = some k → ∃ i, q.1.elements.get? k = some
        { typeId := i, isList := occurs.isRepeated, serializedName := name.filter (!·.isEmpty) } := by
  obtain ⟨elements, key, w, added, rest⟩ := exists_restAdded h
  refine ⟨elements, key, w, added, ?_⟩
  rintro k rfl
  cases elementAdded_of_addElement added with
  | @entered i w _ new =>
    refine ⟨i, OrderedMap.get?_of_prefix rest.entries_le ?_⟩
    rw [← OrderedMap.mem_entries_iff, entries_nameEntry new]
    exact List.mem_append_right _ (List.mem_singleton.2 rfl)

end Entry

theorem fails_fillComplex_of_members {c : ResolveContext} {resolve : ResolveType} {id : TypeId} {x : ComplexDef}
    {site : Site} {type : TypeEntry} {layout : Layout} {u v : ResolveState} {e : ResolveError}
    (entry : u.types.get? id = some type) (hlayout : c.set.layout type.key [] site x = .ok layout)
    (h : Fails (layout.members.foldlM (addTopMember c resolve layout.isChoice type.key) ⟨⟨∅, none⟩, none, none, 0⟩)
      u e v) : Fails (fillComplex c resolve id x site) u e v := by
  unfold fillComplex
  refine fails_bind.2 (.inr ⟨type, u, yields_entryAt.2 ⟨entry, rfl⟩, ?_⟩)
  refine fails_bind.2 (.inr ⟨layout, u, yields_ofExcept.2 ⟨hlayout, rfl⟩, ?_⟩)
  exact fails_bind.2 (.inl h)

/-- A choice without an entry makes the filling fail once the members before it have been passed. -/
theorem fails_fillWith_of_missing {c : ResolveContext} {resolve : ResolveType} {id : TypeId} {d : TypeDef}
    {x : ComplexDef} {site : Site} {s u v : ResolveState} {type : TypeEntry} {layout : Layout}
    (hresolve : ∀ d site context, Keeps (ResolveState.Grows 0 s) (resolve d site context))
    (hd : d.isSimple = false) (hx : d.complex? = some x) (entry : s.types.get? id = some type)
    (hlayout : c.set.layout type.key [] site x = .ok layout) {before after : List Member} {g : GroupView}
    (split : layout.members = before ++ .group g :: after) (choice : g.isChoice = true)
    (missing : c.overrides.choiceGroup? type.key (some (choices before).length) = none)
    (attributes : Yields (fillAttributes c resolve id d site) s () u) {state : ContentState}
    (walked : Yields (before.foldlM (addTopMember c resolve layout.isChoice type.key) ⟨⟨∅, none⟩, none, none, 0⟩)
      u state v) :
    Fails (fillWith c resolve id d site) s
      (if state.outer.join.isSome then .mixedChoiceContent type.key
      else .missingChoiceGroup type.key (some (choices before).length)) v := by
  have count : state.choices = (choices before).length :=
    (PassedChoices.count_of_reach (reach_of_addTopMembers walked).1).trans (Nat.zero_add _)
  have kept := (fillAttributes_keeps hresolve stable_grows (Nat.zero_le _) s (.refl 0 s)).answer attributes
  obtain ⟨type', entry', -⟩ := kept.get?_head entry
  have same : type'.key = type.key := kept.key_eq entry entry'
  rw [fillWith_eq hd hx, fails_bind]
  refine .inr ⟨(), u, attributes, ?_⟩
  refine fails_fillComplex_of_members entry' (by rw [same]; exact hlayout) ?_
  rw [same, split]
  refine fails_foldlM_iff.2 ⟨before, _, after, state, v, rfl, walked, ?_⟩
  rw [addTopMember_eq, PassedChoices.next_of_missing choice (by rwa [ContentState.passed, count])]
  rw [ContentState.passed, count]
  exact fails_bind.2 (.inl rfl)

/-- No choice is given a name by default.  A complex type is filled only if the table has an entry for every choice
among the groups at the top level of its content, numbered without gaps from left to right, and one for the content
itself if that is a choice between elements; the elements of a choice have its name, unless that is empty.  The first
number without an entry is the one that is reported, unless an element before the choice has the name of the outer
one; then the mixture is the fault. -/
theorem choices_named {c : ResolveContext} {depth : Nat} {id : TypeId} {d : TypeDef} {x : ComplexDef} {site : Site}
    {s : ResolveState} {type : TypeEntry} {layout : Layout} (hd : d.isSimple = false) (hx : d.complex? = some x)
    (entry : s.types.get? id = some type) (hlayout : c.set.layout type.key [] site x = .ok layout) :
    let resolve := resolveType c (fillTo c depth)
    let key := type.key
    (∀ t, Yields (fillTo c (depth + 1) id d site) s () t →
      ∃ filled, t.types.get? id = some filled ∧ filled.key = key ∧
        (∀ i < (choices layout.members).length, ∃ name, c.overrides.choiceGroup? key (some i) = some name) ∧
        (layout.isChoice = true → ∀ decl site' occurs, .element decl site' occurs ∈ layout.members →
          ∃ name, c.overrides.choiceGroup? key none = some name) ∧
        ∀ before g after, layout.members = before ++ .group g :: after → g.isChoice = true →
          ∃ name, c.overrides.choiceGroup? key (some (choices before).length) = some name ∧
            ∀ first decl site' occurs last, g.leaves = first ++ .element decl site' occurs :: last →
              ∃ found v elements own w,
                Yields (fillLeaves c resolve id d site key
                  (namedLeaves c key layout.isChoice 0 before ++ first.map (Prod.mk name))) s found v ∧
                Yields (addElement c resolve found.elements decl site' occurs key) v (elements, own) w ∧
                ∀ k, own = some k → ∃ i, filled.elements.get? k = some
                  { typeId := i, isList := occurs.isRepeated, serializedName := name.filter (!·.isEmpty) }) ∧
    ∀ before g after u state v, layout.members = before ++ .group g :: after → g.isChoice = true →
      c.overrides.choiceGroup? key (some (choices before).length) = none →
      Yields (fillAttributes c resolve id d site) s () u →
      Yields (before.foldlM (addTopMember c resolve layout.isChoice key) ⟨⟨∅, none⟩, none, none, 0⟩) u state v →
      let mixed := layout.isChoice = true ∧ (∃ decl site' occurs, .element decl site' occurs ∈ before) ∧
        ∃ name, c.overrides.choiceGroup? key none = some (some name)
      (¬ mixed → Fails (fillTo c (depth + 1) id d site) s (.missingChoiceGroup key (some (choices before).length)) v) ∧
      (mixed → Fails (fillTo c (depth + 1) id d site) s (.mixedChoiceContent key) v) := by
  intro resolve key
  have grows : ∀ s d site context, Keeps (ResolveState.Grows 0 s) (resolve d site context) := fun _ => resolve_adds
  constructor
  · intro t h
    obtain ⟨fault, found, v, added, last⟩ := (yields_fillWith_iff (grows s) hd hx entry hlayout).1 h
    obtain ⟨behind, reached⟩ := PassedChoices.fault_plan_eq_none_iff.1 fault
    rw [Layout.leaves_plan_of_fault fault] at added
    obtain ⟨has, rfl⟩ := yields_modifyType.1 last
    obtain ⟨type', htype⟩ := Option.isSome_iff_exists.1 has
    have kept := (fillLeaves_keeps (grows s) stable_grows (Nat.zero_le _) s (.refl 0 s)).answer added
    refine ⟨type'.withContent layout found, Registry.get?_modify_self (by intro _; rfl) htype,
      show type'.key = key from kept.key_eq entry htype, fun i below => ?_, fun choice decl site' occurs hm => ?_, ?_⟩
    · have count : behind.count = 0 + (choices layout.members).length := PassedChoices.count_of_reach reached
      exact PassedChoices.entry_of_reach reached (Nat.zero_le i) (by omega)
    · exact PassedChoices.outer_entry_of_reach reached PassedChoices.told_start choice hm
    · intro before g after split choice
      rw [split] at reached
      obtain ⟨name, rest, named, leaves⟩ := PassedChoices.namedLeaves_of_choice choice reached
      refine ⟨name, named, fun lead decl site' occurs last inside => ?_⟩
      rw [Layout.namedLeaves, split, leaves, inside, List.map_append, List.map_cons, List.append_assoc,
        ← List.append_assoc] at added
      obtain ⟨p, q, before', step, through⟩ := exists_leafAdded_of_fillLeaves added
      obtain ⟨elements, own, w, entered, named⟩ := named_of_leafAdded step
      refine ⟨p.1, p.2, elements, own, w, before', entered, ?_⟩
      intro k hk
      obtain ⟨i, found⟩ := named k hk
      exact ⟨i, OrderedMap.get?_of_prefix (LeafAdded.through_entries_le through) found⟩
  · intro before g after u state v split choice missing attributes walked mixed
    have named : state.outer.join.isSome = true ↔ mixed :=
      PassedChoices.isSome_join_outer_of_reach (reach_of_addTopMembers walked).1
    have fails : Fails (fillTo c (depth + 1) id d site) s _ v :=
      fails_fillWith_of_missing (grows s) hd hx entry hlayout split choice missing attributes walked
    refine ⟨fun plain => ?_, fun mix => ?_⟩
    · rwa [if_neg (mt named.1 plain)] at fails
    · rwa [if_pos (named.2 mix)] at fails

/-- Lunch is soup or one of two courses; the table has a name for the outer choice and none for the inner one. -/
def buffet : ResolveContext :=
  let name := fun localName => (⟨some "urn:buffet", localName⟩ : QName)
  let dish := fun localName =>
    (.element ⟨name localName, .named (.xsd "string"), .once, false, none⟩ : Particle)
  let set := (exec (DeclarationSet.add
    { targetNamespace := some "urn:buffet"
      types := [⟨some (name "Lunch"), false, .complex ⟨.none, .elements ⟨.choice, .once,
        [dish "soup", .group ⟨.choice, .once, [dish "meat", dish "fish"]⟩]⟩, [], false⟩⟩] }) .empty).2
  ⟨set, .ofSet set, { choiceGroups := .ofList [(((name "Lunch").clark, none), some "course")] }, {}⟩

def isBuffet : List Member → Bool
  | [.element _ _ _, .group g] => g.isChoice
  | _ => false

/-- The missing entry of a choice is not what is reported once an element before it has the name of the outer one. -/
theorem buffet_mixed :
    let lunch : QName := ⟨some "urn:buffet", "Lunch"⟩
    let site := siteOfType lunch
    let resolve := resolveType buffet (fillTo buffet 6)
    let s := (exec (Resolve.reserve lunch false) .empty).2
    ∃ d x type layout before g u state v w, buffet.set.type? lunch = some d ∧ d.isSimple = false ∧
      d.complex? = some x ∧ s.types.get? ⟨0⟩ = some type ∧ buffet.set.layout type.key [] site x = .ok layout ∧
      layout.members = before ++ [.group g] ∧ g.isChoice = true ∧ choices before = [] ∧
      buffet.overrides.choiceGroup? type.key (some 0) = none ∧
      Yields (fillAttributes buffet resolve ⟨0⟩ d site) s () u ∧
      Yields (before.foldlM (addTopMember buffet resolve layout.isChoice type.key) ⟨⟨∅, none⟩, none, none, 0⟩) u state v ∧
      Fails (fillTo buffet 7 ⟨0⟩ d site) s (.mixedChoiceContent type.key) w ∧
      ∀ t, ¬ Fails (fillTo buffet 7 ⟨0⟩ d site) s (.missingChoiceGroup type.key (some 0)) t := by
  intro lunch site resolve s
  have run : buffet.set.testLayout lunch s ⟨0⟩ (fun d _ type layout =>
      isBuffet layout.members && decide (buffet.overrides.choiceGroup? type.key (some 0) = none) &&
      decide ((exec (fillTo buffet 7 ⟨0⟩ d site) s).1 = .error (.mixedChoiceContent type.key)) &&
      gives (fillAttributes buffet resolve ⟨0⟩ d site) s fun _ u =>
        gives ((layout.members.take 1).foldlM (addTopMember buffet resolve layout.isChoice type.key)
          ⟨⟨∅, none⟩, none, none, 0⟩) u fun _ _ => true) = true := by decide +kernel
  obtain ⟨d, x, type, layout, declared, complex, hx, entry, hlayout, run⟩ := DeclarationSet.exists_of_testLayout run
  rw [Bool.and_eq_true, Bool.and_eq_true, Bool.and_eq_true, decide_eq_true_eq, decide_eq_true_eq] at run
  obtain ⟨⟨⟨shape, missing⟩, mixed⟩, walked⟩ := run
  obtain ⟨_, u, attributes, walked⟩ := gives_iff.1 walked
  obtain ⟨state, v, walk, -⟩ := gives_iff.1 walked
  have fails : Fails (fillTo buffet 7 ⟨0⟩ d site) s (.mixedChoiceContent type.key) _ := Prod.ext mixed rfl
  unfold isBuffet at shape
  split at shape
  case h_1 decl site' occurs g members =>
    rw [members] at walk
    refine ⟨d, x, type, layout, [.element decl site' occurs], g, u, state, v, _, declared, complex, hx, entry, hlayout,
      members, shape, rfl, missing, attributes, walk, fails, fun t other => ?_⟩
    cases fails.symm.trans other
  case h_2 => cases shape

def menu : DeclarationSet :=
  let name := fun localName => (⟨some "urn:menu", localName⟩ : QName)
  let dish := fun localName =>
    (.element ⟨name localName, .named (.xsd "string"), .once, false, none⟩ : Particle)
  (exec (DeclarationSet.add
    { targetNamespace := some "urn:menu"
      types := [⟨some (name "Meal"), false, .complex ⟨.none, .elements ⟨.sequence, .once,
        [.group ⟨.choice, .once, [dish "soup", dish "salad"]⟩,
          .group ⟨.choice, .once, [dish "meat", .group ⟨.sequence, .once, [dish "fish", dish "lemon"]⟩]⟩]⟩,
        [], false⟩⟩] }) .empty).2

def areChoices (first : ElementDecl) : List Member → Bool
  | [.group g, .group g'] => g.isChoice && g'.isChoice && g.leaves.head?.any (Leaf.isOnce first)
  | _ => false

theorem exists_of_areChoices {first : ElementDecl} {members : List Member} (h : areChoices first members = true) :
    ∃ g g' site occurs rest, members = [.group g, .group g'] ∧ g.isChoice = true ∧ g'.isChoice = true ∧
      g.leaves = .element first site occurs :: rest ∧ occurs.isRepeated = false := by
  unfold areChoices at h
  split at h
  · next g g' =>
    rw [Bool.and_eq_true, Bool.and_eq_true] at h
    obtain ⟨⟨choice, choice'⟩, h⟩ := h
    obtain ⟨leaf, head, h⟩ := (Option.any_eq_true _ _).1 h
    obtain ⟨site, occurs, rfl, once⟩ := Leaf.eq_element_of_isOnce h
    obtain ⟨rest, leaves⟩ := List.head?_eq_some_iff.1 head
    exact ⟨g, g', site, occurs, rest, rfl, choice, choice', leaves, once⟩
  · cases h

theorem meal_named :
    let name := fun localName => (⟨some "urn:menu", localName⟩ : QName)
    let meal := name "Meal"
    let named : OverrideTable := { choiceGroups := .ofList [((meal.clark, some 0), some "starter"),
      ((meal.clark, some 1), some "main")] }
    let lacking : OverrideTable := { choiceGroups := .ofList [((meal.clark, some 0), some "starter")] }
    let c := fun table => (⟨menu, .ofSet menu, table, {}⟩ : ResolveContext)
    let s := (exec (Resolve.reserve meal false) .empty).2
    ∃ d x type layout, menu.type? meal = some d ∧ d.isSimple = false ∧ d.complex? = some x ∧
      s.types.get? ⟨0⟩ = some type ∧ menu.layout type.key [] (siteOfType meal) x = .ok layout ∧
      (choices layout.members).length = 2 ∧
      (∃ t filled i, Yields (fillTo (c named) 7 ⟨0⟩ d (siteOfType meal)) s () t ∧ t.types.get? ⟨0⟩ = some filled ∧
        filled.elements.get? (name "soup").clark =
          some { typeId := i, isList := false, serializedName := some "starter" }) ∧
      ∃ v, Fails (fillTo (c lacking) 7 ⟨0⟩ d (siteOfType meal)) s (.missingChoiceGroup meal.clark (some 1)) v := by
  intro name meal named lacking c s
  let soup : ElementDecl := ⟨name "soup", .named (.xsd "string"), .once, false, none⟩
  let start : ContentState := ⟨⟨∅, none⟩, none, none, 0⟩
  have run : menu.testLayout meal s ⟨0⟩ (fun d _ type layout => type.key == meal.clark &&
      areChoices soup layout.members &&
      (exec (fillTo (c named) 7 ⟨0⟩ d (siteOfType meal)) s).1.toOption.isSome &&
      gives (fillAttributes (c lacking) (resolveType (c lacking) (fillTo (c lacking) 6)) ⟨0⟩ d (siteOfType meal)) s
        fun _ u => gives ((layout.members.take 1).foldlM (addTopMember (c lacking)
          (resolveType (c lacking) (fillTo (c lacking) 6)) layout.isChoice type.key) start) u
            fun _ _ => true) = true := by decide +kernel
  obtain ⟨d, x, type, layout, declared, complex, hx, entry, hlayout, run⟩ := DeclarationSet.exists_of_testLayout run
  rw [Bool.and_eq_true, Bool.and_eq_true, Bool.and_eq_true, beq_iff_eq] at run
  obtain ⟨⟨⟨key, shape⟩, filled⟩, walked⟩ := run
  obtain ⟨g, g', site', occurs, rest, members, choice, choice', leaves, once⟩ := exists_of_areChoices shape
  have two : (choices layout.members).length = 2 := by simp [members, choices, choice, choice']
  refine ⟨d, x, type, layout, declared, complex, hx, entry, hlayout, two, ?_, ?_⟩
  · obtain ⟨_, t, populated⟩ := exists_yields_of_isSome filled
    obtain ⟨named, -⟩ := @choices_named (c named) 6 _ _ _ _ _ _ _ complex hx entry hlayout
    obtain ⟨entry', hentry', -, -, -, named⟩ := named t populated
    obtain ⟨told, htold, named⟩ := named [] g [.group g'] members choice
    obtain ⟨found, v, elements, own, w, before, added, named⟩ := named [] soup site' occurs rest leaves
    obtain ⟨u, -, through⟩ := yields_fillLeaves_iff.1 before
    have nothing : (⟨∅, none⟩, u) = (found, v) := Through.nil_iff.1 through
    have starter : told = some "starter" := by
      rw [key] at htold
      exact (Option.some.inj htold).symm
    -- Nothing comes before the soup, so that it cannot be left out.
    have own : own = some soup.name.clark := by
      cases elementAdded_of_addElement added with
      | entered => rfl
      | duplicate _ taken =>
        cases nothing
        cases taken
      | skipped untyped _ => cases (typeRef_eq_of_yields untyped).1 rfl
    obtain ⟨i, soup⟩ := named _ own
    rw [once, starter] at soup
    exact ⟨t, entry', i, populated, hentry', soup⟩
  · obtain ⟨_, u, attributes, walked⟩ := gives_iff.1 walked
    obtain ⟨state, v, walk, -⟩ := gives_iff.1 walked
    obtain ⟨-, missing⟩ := @choices_named (c lacking) 6 _ _ _ _ _ _ _ complex hx entry hlayout
    rw [members] at walk
    obtain ⟨lacks, -⟩ := missing [.group g] g' [] u state v members choice'
      (by rw [key, choices_group choice]; rfl) attributes walk
    have fails := lacks (by
      rintro ⟨-, ⟨_, _, _, element⟩, -⟩
      cases List.mem_singleton.1 element)
    rw [key, choices_group choice] at fails
    exact ⟨v, fails⟩

end SchemaGraph
