import SchemaGraph.Proofs.Resolution.Filling

/-! Contents that are a choice and have both elements and groups at the top level.  When all choices have names, such
a mixture is noticed, except where the groups come first and the last of them is no choice. -/
namespace SchemaGraph

open Stateful

/-- All groups come before all elements, and the last group is no choice. -/
def Unnoticed (members : List Member) : Prop :=
  ∃ before g after, members = before ++ .group g :: after ∧ g.isChoice = false ∧
    (∀ decl site occurs, .element decl site occurs ∉ before) ∧ ∀ g', .group g' ∉ after

theorem exists_last_group {members : List Member} (h : ∃ g, Member.group g ∈ members) :
    ∃ before g after, members = before ++ .group g :: after ∧ ∀ g', .group g' ∉ after := by
  induction members with
  | nil => cases h.choose_spec
  | cons m rest ih =>
    by_cases later : ∃ g, Member.group g ∈ rest
    · obtain ⟨before, g, after, rfl, last⟩ := ih later
      exact ⟨m :: before, g, after, rfl, last⟩
    · obtain ⟨g, hg⟩ := h
      rcases List.mem_cons.1 hg with rfl | hg
      · exact ⟨[], g, rest, rfl, not_exists.1 later⟩
      · exact absurd ⟨g, hg⟩ later

namespace PassedChoices

variable {c : ResolveContext} {owner : String} {isChoice : Bool} {s s' : PassedChoices} {members : List Member}

theorem exists_stop {e : ResolveError} (h : s.reach c owner isChoice members = .error e) :
    ∃ before m after mid, members = before ++ m :: after ∧ s.reach c owner isChoice before = .ok mid ∧
      mid.next c owner isChoice m = .error e := by
  induction members generalizing s with
  | nil => cases h
  | cons m rest ih =>
    rw [reach_cons] at h
    cases next : s.next c owner isChoice m with
    | error e' =>
      rw [next] at h
      cases h
      exact ⟨[], m, rest, s, rfl, rfl, next⟩
    | ok r =>
      obtain ⟨name, mid⟩ := r
      rw [next] at h
      obtain ⟨before, m', after, last, rfl, reached, stops⟩ := ih h
      exact ⟨m :: before, m', after, last, rfl, reach_cons_eq_ok_iff.2 ⟨name, mid, next, reached⟩, stops⟩

theorem no_group_of_reach (h : s.reach c owner isChoice members = .ok s') {name : String}
    (outer : s.outer = some (some name)) (g : GroupView) : .group g ∉ members := by
  induction members generalizing s with
  | nil => exact List.not_mem_nil
  | cons m rest ih =>
    obtain ⟨_, mid, first, later⟩ := reach_cons_eq_ok_iff.1 h
    have passed : m ≠ .group g ∧ mid.outer = some (some name) := by
      cases next_eq_ok_iff.1 first with
      | choice unnamed | group unnamed =>
        rw [outer] at unnamed
        cases unnamed
      | alternative _ _ named =>
        rw [outer] at named
        refine ⟨nofun, ?_⟩
        rcases named with same | ⟨absent, -⟩
        · exact same.symm
        · cases absent
      | element | any => exact ⟨nofun, outer⟩
    rw [List.mem_cons, not_or]
    exact ⟨passed.1.symm, ih later passed.2⟩

theorem no_element_of_reach (h : s.reach c owner true members = .ok s') (inner : s.inner ≠ none)
    (groups : ∀ g, .group g ∉ members) (decl : ElementDecl) (site : Site) (occurs : Occurs) :
    .element decl site occurs ∉ members := by
  induction members generalizing s with
  | nil => exact List.not_mem_nil
  | cons m rest ih =>
    obtain ⟨_, mid, first, later⟩ := reach_cons_eq_ok_iff.1 h
    have rest_groups : ∀ g, .group g ∉ rest := fun g hg => groups g (List.mem_cons_of_mem _ hg)
    rw [List.mem_cons, not_or]
    cases next_eq_ok_iff.1 first with
    | @choice g | @group g => exact absurd (List.mem_cons_self ..) (groups g)
    | alternative _ unnamed => exact absurd unnamed inner
    | element plain => cases plain
    | any => exact ⟨nofun, ih later inner rest_groups⟩

theorem exists_reach_of_groups (members : List Member) (outer : s.outer = none)
    (elements : ∀ decl site occurs, .element decl site occurs ∉ members)
    (entries : ∀ i, s.count ≤ i → i < s.count + (choices members).length →
      ∃ name, c.overrides.choiceGroup? owner (some i) = some name) :
    ∃ s', s.reach c owner isChoice members = .ok s' ∧ s'.outer = none := by
  induction members generalizing s with
  | nil => exact ⟨s, rfl, outer⟩
  | cons m rest ih =>
    have passed : ∃ name mid, s.Passes c owner isChoice m name mid ∧ mid.outer = none := by
      cases m with
      | group g =>
        have unnamed : s.outer.join = none := by rw [outer]; rfl
        by_cases choice : g.isChoice = true
        · have here : s.count < s.count + (choices (.group g :: rest)).length := by
            rw [choices_cons (.group g) rest, choices_group choice, List.length_append, List.length_singleton]
            omega
          obtain ⟨name, entry⟩ := entries s.count (Nat.le_refl _) here
          exact ⟨name, _, .choice unnamed choice entry, outer⟩
        · exact ⟨none, _, .group unnamed (Bool.eq_false_iff.2 choice), outer⟩
      | element decl site occurs => exact absurd (List.mem_cons_self ..) (elements decl site occurs)
      | any => exact ⟨none, s, .any, outer⟩
    obtain ⟨name, mid, passes, outer'⟩ := passed
    have count := passes.count
    obtain ⟨s', reached, last⟩ := ih outer' (fun _ _ _ hm => elements _ _ _ (List.mem_cons_of_mem _ hm)) (by
      intro i here below
      refine entries i (by omega) ?_
      rw [choices_cons m rest, List.length_append]
      omega)
    exact ⟨s', reach_cons_eq_ok_iff.2 ⟨name, mid, next_eq_ok_iff.2 passes, reached⟩, last⟩

theorem exists_reach_of_elements (members : List Member) (inner : s.inner = none)
    (groups : ∀ g, .group g ∉ members) {named : Option String}
    (entry : c.overrides.choiceGroup? owner none = some named) :
    ∃ s', s.reach c owner isChoice members = .ok s' := by
  induction members generalizing s with
  | nil => exact ⟨s, rfl⟩
  | cons m rest ih =>
    have passed : ∃ name mid, s.Passes c owner isChoice m name mid ∧ mid.inner = none := by
      cases m with
      | group g => exact absurd (List.mem_cons_self ..) (groups g)
      | element decl site occurs =>
        cases isChoice with
        | false => exact ⟨none, s, .element rfl, inner⟩
        | true =>
          cases outer : s.outer with
          | none => exact ⟨named, _, .alternative rfl inner (.inr ⟨outer, entry⟩), rfl⟩
          | some name => exact ⟨name, _, .alternative rfl inner (.inl outer), rfl⟩
      | any => exact ⟨none, s, .any, inner⟩
    obtain ⟨name, mid, passes, inner'⟩ := passed
    obtain ⟨s', reached⟩ := ih inner' fun g hg => groups g (List.mem_cons_of_mem _ hg)
    exact ⟨s', reach_cons_eq_ok_iff.2 ⟨name, mid, next_eq_ok_iff.2 passes, reached⟩⟩

/-- With names for all choices, a mixture is passed exactly if it is unnoticed. -/
theorem exists_reach_iff_unnoticed {outer : String} (entry : c.overrides.choiceGroup? owner none = some (some outer))
    (entries : ∀ i < (choices members).length, ∃ name, c.overrides.choiceGroup? owner (some i) = some (some name))
    {decl : ElementDecl} {site : Site} {occurs : Occurs} (element : .element decl site occurs ∈ members)
    {g : GroupView} (group : .group g ∈ members) :
    (∃ s', start.reach c owner true members = .ok s') ↔ Unnoticed members := by
  constructor
  · rintro ⟨s', reached⟩
    obtain ⟨before, last, after, rfl, groups⟩ := exists_last_group ⟨g, group⟩
    obtain ⟨mid, first, later⟩ := reach_append_eq_ok_iff.1 reached
    have told := told_of_reach first told_start
    have elements : ∀ decl site occurs, .element decl site occurs ∉ before := by
      intro decl site occurs hm
      obtain ⟨lead, rest, rfl⟩ := List.append_of_mem hm
      obtain ⟨s₁, lead, behind⟩ := reach_append_eq_ok_iff.1 first
      obtain ⟨name, s₂, next, behind⟩ := reach_cons_eq_ok_iff.1 behind
      -- The outer choice has its name from here on, up to the last group.
      have outer_eq : s₂.outer = some (some outer) := by
        cases next_eq_ok_iff.1 next with
        | alternative _ _ named =>
          have named := named.elim (told_of_reach lead told_start name) And.right
          rw [Option.some.inj (named.symm.trans entry)]
        | element plain => cases plain
      have whole := reach_append_eq_ok_iff.2 ⟨mid, behind, later⟩
      exact no_group_of_reach whole outer_eq last (List.mem_append_right _ (List.mem_cons_self ..))
    refine ⟨before, last, after, rfl, Bool.eq_false_iff.2 fun choice => ?_, elements, groups⟩
    have behind : .element decl site occurs ∈ after := by
      rcases List.mem_append.1 element with here | here
      · exact absurd here (elements _ _ _)
      · exact (List.mem_cons.1 here).resolve_left nofun
    obtain ⟨name, s₁, next, rest⟩ := reach_cons_eq_ok_iff.1 later
    cases next_eq_ok_iff.1 next with
    | choice _ _ named =>
      have count : mid.count = (choices before).length := (count_of_reach first).trans (Nat.zero_add _)
      obtain ⟨inner, told⟩ := entries mid.count (by
        rw [count, choices_append, choices_cons (.group last) after, choices_group choice, List.length_append,
          List.length_append, List.length_singleton]
        omega)
      obtain rfl := Option.some.inj (named.symm.trans told)
      exact no_element_of_reach rest nofun groups decl site occurs behind
    | group _ plain => cases choice.symm.trans plain
  · rintro ⟨before, last, after, rfl, plain, elements, groups⟩
    obtain ⟨mid, first, unnamed⟩ := exists_reach_of_groups (c := c) (s := start) before rfl elements (by
      intro i _ below
      have below : i < 0 + (choices before).length := below
      obtain ⟨name, told⟩ := entries i (by
        rw [choices_append, List.length_append]
        omega)
      exact ⟨some name, told⟩)
    have passes : mid.Passes c owner true (.group last) none ⟨mid.outer, none, mid.count⟩ :=
      .group (by rw [unnamed]; rfl) plain
    have elements : ∃ s', (⟨mid.outer, none, mid.count⟩ : PassedChoices).reach c owner true after = .ok s' :=
      exists_reach_of_elements after rfl groups entry
    obtain ⟨s', later⟩ := elements
    exact ⟨s', reach_append_eq_ok_iff.2 ⟨mid, first, reach_cons_eq_ok_iff.2 ⟨_, _, next_eq_ok_iff.2 passes, later⟩⟩⟩

theorem eq_mixed_of_next {m : Member} {e : ResolveError} (h : s.next c owner isChoice m = .error e)
    {outer : Option String} (entry : c.overrides.choiceGroup? owner none = some outer)
    (entries : 0 < (choices [m]).length → ∃ name, c.overrides.choiceGroup? owner (some s.count) = some name) :
    e = .mixedChoiceContent owner := by
  obtain mixed | ⟨index, -, missing, rfl | ⟨rfl, choice⟩⟩ := error_of_next h
  · exact mixed
  · cases missing.symm.trans entry
  · obtain ⟨name, told⟩ := entries choice
    cases missing.symm.trans told

theorem plan_of_stop {before after : List Member} {m : Member} {e : ResolveError} (hs : s.Told c owner)
    (reached : s.reach c owner isChoice before = .ok s') (stops : s'.next c owner isChoice m = .error e) :
    s.plan c owner isChoice (before ++ m :: after) = ⟨namedLeaves c owner isChoice s.count before, some e⟩ := by
  induction before generalizing s with
  | nil =>
    cases reached
    rw [List.nil_append, plan, stops]
    rfl
  | cons m before ih =>
    obtain ⟨name, mid, first, later⟩ := reach_cons_eq_ok_iff.1 reached
    have passes := next_eq_ok_iff.1 first
    rw [List.cons_append, plan, first, passes.namedLeaves_eq hs]
    dsimp only
    rw [ih (passes.told hs) later]

end PassedChoices

/-- A content that is a choice and has both elements and groups at the top level, all choices of which have names,
cannot be filled in unless the mixture is unnoticed.  There is a member in front of which the walk stops: the fault is
the mixture, if the attributes and the items before that member raise none.  An unnoticed mixture raises no fault of
its own. -/
theorem mixture_noticed {c : ResolveContext} {depth : Nat} {id : TypeId} {d : TypeDef} {x : ComplexDef} {site : Site}
    {s : ResolveState} {type : TypeEntry} {layout : Layout} (hd : d.isSimple = false) (hx : d.complex? = some x)
    (entry : s.types.get? id = some type) (hlayout : c.set.layout type.key [] site x = .ok layout)
    (choice : layout.isChoice = true) {decl : ElementDecl} {site' : Site} {occurs : Occurs}
    (element : .element decl site' occurs ∈ layout.members) {g : GroupView} (group : .group g ∈ layout.members)
    {outer : String} (outer_entry : c.overrides.choiceGroup? type.key none = some (some outer))
    (entries : ∀ i < (choices layout.members).length, ∃ name,
      c.overrides.choiceGroup? type.key (some i) = some (some name)) :
    let fill := fillTo c (depth + 1) id d site
    let items := fillLeaves c (resolveType c (fillTo c depth)) id d site type.key
    (¬ Unnoticed layout.members → (∀ t, ¬ Yields fill s () t) ∧
      ∃ before m after, layout.members = before ++ m :: after ∧
        let upTo := items (namedLeaves c type.key true 0 before)
        ∀ e t, Fails fill s e t ↔
          Fails upTo s e t ∨ e = .mixedChoiceContent type.key ∧ ∃ found, Yields upTo s found t) ∧
    (Unnoticed layout.members →
      let all := items (layout.namedLeaves c type.key)
      ((∃ t, Yields fill s () t) ↔ ∃ found v, Yields all s found v) ∧
      ∀ e t, Fails fill s e t ↔ Fails all s e t) := by
  intro fill items
  have reach_iff := PassedChoices.exists_reach_iff_unnoticed outer_entry entries element group
  have grows : ∀ d site context, Keeps (ResolveState.Grows 0 s) (resolveType c (fillTo c depth) d site context) :=
    resolve_adds
  have yields := fun t => yields_fillWith_iff (t := t) grows hd hx entry hlayout
  have fails := fun e t => fails_fillWith_iff (e := e) (t := t) grows hd hx entry hlayout
  constructor
  · intro noticed
    cases reached : PassedChoices.start.reach c type.key true layout.members with
    | ok s' => exact absurd (reach_iff.1 ⟨s', reached⟩) noticed
    | error e =>
      obtain ⟨before, m, after, mid, split, first, stops⟩ := PassedChoices.exists_stop reached
      have mixed : e = .mixedChoiceContent type.key := by
        refine PassedChoices.eq_mixed_of_next stops outer_entry fun one => ?_
        have count : mid.count = (choices before).length :=
          (PassedChoices.count_of_reach first).trans (Nat.zero_add _)
        obtain ⟨name, told⟩ := entries mid.count (by
          rw [count, split, choices_append, choices_cons m after, List.length_append, List.length_append]
          omega)
        exact ⟨some name, told⟩
      have plan : layout.plan c type.key =
          ⟨namedLeaves c type.key true 0 before, some (.mixedChoiceContent type.key)⟩ := by
        rw [Layout.plan, choice, split, ← mixed]
        exact PassedChoices.plan_of_stop PassedChoices.told_start first stops
      refine ⟨fun t h => ?_, before, m, after, split, fun e t => ?_⟩
      · have fault := ((yields t).1 h).1
        rw [plan] at fault
        cases fault
      · refine (fails e t).trans ?_
        rw [plan, Option.some.injEq, eq_comm (a := ResolveError.mixedChoiceContent _)]
  · intro unnoticed
    have fault : (layout.plan c type.key).fault = none := by
      rw [Layout.plan, choice]
      exact PassedChoices.fault_plan_eq_none_iff.2 (reach_iff.2 unnoticed)
    have leaves := Layout.leaves_plan_of_fault fault
    refine ⟨⟨fun ⟨t, h⟩ => ?_, fun ⟨found, v, added⟩ => ?_⟩, fun e t => ?_⟩
    · obtain ⟨-, found, v, added, -⟩ := (yields t).1 h
      exact ⟨found, v, leaves ▸ added⟩
    · have kept := (fillLeaves_keeps grows stable_grows (Nat.zero_le _) s (.refl 0 s)).answer added
      obtain ⟨type', entry', -⟩ := kept.get?_head entry
      have there : (v.types.get? id).isSome = true := by rw [entry']; rfl
      exact ⟨_, (yields _).2 ⟨fault, found, v, leaves ▸ added, yields_modifyType.2 ⟨there, rfl⟩⟩⟩
    · refine (fails e t).trans ?_
      rw [fault, leaves]
      exact or_iff_left fun h => Option.some_ne_none e h.1.symm

def tillName (localName : String) : QName := ⟨some "urn:till", localName⟩

def till : ResolveContext :=
  let element := fun localName =>
    (.element ⟨tillName localName, .named (.xsd "string"), .once, false, none⟩ : Particle)
  let transfer : Particle := .group ⟨.sequence, .once, [element "account", element "bank"]⟩
  let choice := fun localName particles => (⟨some (tillName localName), false,
    .complex ⟨.none, .elements ⟨.choice, .once, particles⟩, [], false⟩⟩ : TypeDef)
  let set := (exec (DeclarationSet.add
    { targetNamespace := some "urn:till"
      types := [choice "Fare" [element "cash", transfer], choice "Payment" [transfer, element "cash"]] }) .empty).2
  let named := fun localName => (((tillName localName).clark, none), some "Method")
  ⟨set, .ofSet set, { choiceGroups := .ofList [named "Fare", named "Payment"] }, {}⟩

def tillShape (localName : String) : List Member → Bool
  | [.element _ _ _, .group _] => localName == "Fare"
  | [.group g, .element _ _ _] => localName == "Payment" && !g.isChoice
  | _ => false

theorem till_mixtures :
    let s := fun localName => (exec (Resolve.reserve (tillName localName) false) .empty).2
    let fill := fun localName d => fillTo till 7 ⟨0⟩ d (siteOfType (tillName localName))
    (∃ d, till.set.type? (tillName "Fare") = some d ∧ ∀ t, ¬ Yields (fill "Fare" d) (s "Fare") () t) ∧
      ∃ d t, till.set.type? (tillName "Payment") = some d ∧ Yields (fill "Payment" d) (s "Payment") () t := by
  intro s fill
  have parts : ∀ localName ∈ ["Fare", "Payment"], ∃ d x type layout, till.set.type? (tillName localName) = some d ∧
      d.isSimple = false ∧ d.complex? = some x ∧ (s localName).types.get? ⟨0⟩ = some type ∧
      till.set.layout type.key [] (siteOfType (tillName localName)) x = .ok layout ∧ layout.isChoice = true ∧
      till.overrides.choiceGroup? type.key none = some (some "Method") ∧ choices layout.members = [] ∧
      (tillShape localName layout.members &&
        (exec (fillLeaves till (resolveType till (fillTo till 6)) ⟨0⟩ d (siteOfType (tillName localName)) type.key
          (layout.namedLeaves till type.key)) (s localName)).1.toOption.isSome) = true := by
    intro localName hname
    have run : (["Fare", "Payment"].all fun localName =>
        till.set.testLayout (tillName localName) (s localName) ⟨0⟩ fun d _ type layout =>
          layout.isChoice && decide (till.overrides.choiceGroup? type.key none = some (some "Method")) &&
          (choices layout.members).isEmpty &&
          (tillShape localName layout.members &&
          (exec (fillLeaves till (resolveType till (fillTo till 6)) ⟨0⟩ d (siteOfType (tillName localName)) type.key
            (layout.namedLeaves till type.key)) (s localName)).1.toOption.isSome)) = true := by decide +kernel
    obtain ⟨d, x, type, layout, declared, complex, hx, entry, hlayout, run⟩ :=
      DeclarationSet.exists_of_testLayout (List.all_eq_true.1 run localName hname)
    rw [Bool.and_eq_true, Bool.and_eq_true, Bool.and_eq_true, decide_eq_true_eq, List.isEmpty_iff] at run
    obtain ⟨⟨⟨choice, method⟩, none⟩, run⟩ := run
    exact ⟨d, x, type, layout, declared, complex, hx, entry, hlayout, choice, method, none, run⟩
  constructor
  · obtain ⟨d, x, type, layout, declared, complex, hx, entry, hlayout, choice, method, none, run⟩ :=
      parts "Fare" (by decide)
    unfold tillShape at run
    split at run
    case h_1 decl site occurs g members =>
      obtain ⟨rejected, -⟩ := @mixture_noticed till 6 _ _ _ _ _ _ _ complex hx entry hlayout choice
        decl site occurs (by simp [members]) g (by simp [members]) _ method (by simp [none])
      refine ⟨d, declared, (rejected ?_).1⟩
      rintro ⟨before, g', after, split, -, elements, -⟩
      rw [members] at split
      cases before with
      | nil => cases split
      | cons m before =>
        cases (List.cons.inj split).1
        exact elements _ _ _ (List.mem_cons_self ..)
    all_goals cases run
  · obtain ⟨d, x, type, layout, declared, complex, hx, entry, hlayout, choice, method, none, run⟩ :=
      parts "Payment" (by decide)
    unfold tillShape at run
    split at run
    case h_2 g decl site occurs members =>
      rw [Bool.and_eq_true, Bool.and_eq_true, Bool.not_eq_true'] at run
      obtain ⟨⟨-, plain⟩, added⟩ := run
      obtain ⟨-, accepted⟩ := @mixture_noticed till 6 _ _ _ _ _ _ _ complex hx entry hlayout choice
        decl site occurs (by simp [members]) g (by simp [members]) _ method (by simp [none])
      obtain ⟨t, populated⟩ := (accepted ⟨[], g, _, members, plain, by simp, by simp⟩).1.2
        (exists_yields_of_isSome added)
      exact ⟨d, t, declared, populated⟩
    all_goals cases run

end SchemaGraph
