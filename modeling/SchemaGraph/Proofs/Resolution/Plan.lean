import SchemaGraph.Proofs.Outcome
import SchemaGraph.Proofs.Resolution.Leaves

/-! The plan of a content.  The shape of the content and the table settle beforehand which items are added, each
under which name, and whether the walk stops with a fault of its own. -/
namespace SchemaGraph

open Stateful

/-- The name that the table gives a choice, none if it has no entry. -/
def ResolveContext.choiceName? (c : ResolveContext) (owner : String) (index : Option Nat) : Option String :=
  (c.overrides.choiceGroup? owner index).join

/-- The elements and wildcards of members at the top level of a content, each with the name of the choice around
it.  Before them come `n` choices among the groups. -/
def namedLeaves (c : ResolveContext) (owner : String) (isChoice : Bool) :
    (n : Nat) → List Member → List (Option String × Leaf)
  | _, [] => []
  | n, .group g :: rest =>
    g.leaves.map (Prod.mk (if g.isChoice then c.choiceName? owner (some n) else none)) ++
      namedLeaves c owner isChoice (if g.isChoice then n + 1 else n) rest
  | n, .element decl site occurs :: rest =>
    (if isChoice then c.choiceName? owner none else none, .element decl site occurs) ::
      namedLeaves c owner isChoice n rest
  | n, .any :: rest => (none, .wildcard) :: namedLeaves c owner isChoice n rest

def Layout.namedLeaves (c : ResolveContext) (owner : String) (l : Layout) : List (Option String × Leaf) :=
  SchemaGraph.namedLeaves c owner l.isChoice 0 l.members

theorem map_snd_namedLeaves {c : ResolveContext} {owner : String} (isChoice : Bool) (n : Nat) (members : List Member) :
    (namedLeaves c owner isChoice n members).map Prod.snd = Member.leavesList members := by
  induction members generalizing n with
  | nil => rfl
  | cons m rest ih =>
    cases m with
    | group g =>
      rw [namedLeaves, Member.leavesList, Member.leaves, List.map_append, ih, List.map_map]
      exact congrArg (· ++ _) (List.map_id _)
    | element decl site occurs => rw [namedLeaves, Member.leavesList, Member.leaves, List.map_cons, ih]; rfl
    | any => rw [namedLeaves, Member.leavesList, Member.leaves, List.map_cons, ih]; rfl

/-- What a walk through the top level of a content knows of the choices behind it. -/
structure PassedChoices where
  /-- The name of the outer choice, once it has been looked up. -/
  outer : Option (Option String)
  /-- The name of the last group, if it was a choice that has one. -/
  inner : Option String
  /-- The number of choices among the groups. -/
  count : Nat

def ContentState.passed (s : ContentState) : PassedChoices := ⟨s.outer, s.inner, s.choices⟩

/-- The items that a walk adds, each with the name of the choice around it, and the fault at which it stops. -/
structure Plan where
  leaves : List (Option String × Leaf)
  fault : Option ResolveError

theorem choiceName_eq_ok_iff {c : ResolveContext} {owner : String} {index : Option Nat} {name : Option String} :
    choiceName c owner index = .ok name ↔ c.overrides.choiceGroup? owner index = some name := by
  unfold choiceName
  split
  · next found => rw [found, Except.ok.injEq, Option.some.injEq]
  · next none => simp [none]

/-- The choices among the groups of a list of members. -/
def choices (members : List Member) : List GroupView :=
  members.filterMap fun
    | .group g => if g.isChoice then some g else none
    | .element _ _ _ | .any => none

theorem choices_append (members members' : List Member) :
    choices (members ++ members') = choices members ++ choices members' := List.filterMap_append

theorem choices_cons (m : Member) (rest : List Member) : choices (m :: rest) = choices [m] ++ choices rest :=
  choices_append [m] rest

theorem choices_group {g : GroupView} (choice : g.isChoice = true) : choices [.group g] = [g] := by
  simp [choices, choice]

namespace PassedChoices

def start : PassedChoices := ⟨none, none, 0⟩

/-- The name under which the items of a member are added, and what is known behind it.  A named outer choice and
groups exclude each other. -/
def next (c : ResolveContext) (owner : String) (isChoice : Bool) (s : PassedChoices) :
    Member → Except ResolveError (Option String × PassedChoices)
  | .group g =>
    if s.outer.join.isSome then .error (.mixedChoiceContent owner)
    else if g.isChoice then
      (fun name => (name, ⟨s.outer, name, s.count + 1⟩)) <$> choiceName c owner (some s.count)
    else .ok (none, ⟨s.outer, none, s.count⟩)
  | .element _ _ _ =>
    if isChoice then
      if s.inner.isSome then .error (.mixedChoiceContent owner)
      else (fun name => (name, ⟨some name, s.inner, s.count⟩)) <$> s.outer.elim (choiceName c owner none) .ok
    else .ok (none, s)
  | .any => .ok (none, s)

/-- How a member is passed: under which name its items are added, and what is known behind it. -/
inductive Passes (c : ResolveContext) (owner : String) (isChoice : Bool) (s : PassedChoices) :
    Member → Option String → PassedChoices → Prop
  | choice {g : GroupView} {name : Option String} (outer : s.outer.join = none) (choice : g.isChoice = true)
      (entry : c.overrides.choiceGroup? owner (some s.count) = some name) :
      Passes c owner isChoice s (.group g) name ⟨s.outer, name, s.count + 1⟩
  | group {g : GroupView} (outer : s.outer.join = none) (plain : g.isChoice = false) :
      Passes c owner isChoice s (.group g) none ⟨s.outer, none, s.count⟩
  | alternative {decl : ElementDecl} {site : Site} {occurs : Occurs} {name : Option String} (choice : isChoice = true)
      (inner : s.inner = none)
      (named : s.outer = some name ∨ s.outer = none ∧ c.overrides.choiceGroup? owner none = some name) :
      Passes c owner isChoice s (.element decl site occurs) name ⟨some name, none, s.count⟩
  | element {decl : ElementDecl} {site : Site} {occurs : Occurs} (plain : isChoice = false) :
      Passes c owner isChoice s (.element decl site occurs) none s
  | any : Passes c owner isChoice s .any none s

/-- What is known behind members, unless the walk stops among them. -/
def reach (c : ResolveContext) (owner : String) (isChoice : Bool) (s : PassedChoices) (members : List Member) :
    Except ResolveError PassedChoices :=
  members.foldlM (fun s m => Prod.snd <$> s.next c owner isChoice m) s

def plan (c : ResolveContext) (owner : String) (isChoice : Bool) : PassedChoices → List Member → Plan
  | _, [] => ⟨[], none⟩
  | s, m :: rest =>
    match s.next c owner isChoice m with
    | .ok (name, s') =>
      let later := plan c owner isChoice s' rest
      ⟨m.leaves.map (Prod.mk name) ++ later.leaves, later.fault⟩
    | .error e => ⟨[], some e⟩

variable {c : ResolveContext} {owner : String} {isChoice : Bool} {s s' : PassedChoices}

theorem next_eq_ok_iff {m : Member} {name : Option String} :
    s.next c owner isChoice m = .ok (name, s') ↔ s.Passes c owner isChoice m name s' := by
  constructor
  · intro h
    cases m with
    | group g =>
      dsimp only [next] at h
      split at h
      · cases h
      next outer =>
      have outer : s.outer.join = none := Option.not_isSome_iff_eq_none.1 outer
      split at h
      · next choice =>
        obtain ⟨name, named, h⟩ := map_eq_ok_iff.1 h
        cases h
        exact .choice outer choice (choiceName_eq_ok_iff.1 named)
      · next plain =>
        cases h
        exact .group outer (Bool.eq_false_iff.2 plain)
    | element decl site occurs =>
      dsimp only [next] at h
      split at h
      · next choice =>
        split at h
        · cases h
        next inner =>
        have inner : s.inner = none := Option.not_isSome_iff_eq_none.1 inner
        obtain ⟨name, named, h⟩ := map_eq_ok_iff.1 h
        cases h
        rw [inner]
        refine .alternative choice inner ?_
        cases outer : s.outer with
        | some passed =>
          rw [outer] at named
          cases named
          exact .inl rfl
        | none =>
          rw [outer] at named
          exact .inr ⟨rfl, choiceName_eq_ok_iff.1 named⟩
      · next plain =>
        cases h
        exact .element (Bool.eq_false_iff.2 plain)
    | any =>
      cases h
      exact .any
  · intro h
    cases h with
    | choice outer choice entry => simp only [next, outer, choice, choiceName_eq_ok_iff.2 entry]; rfl
    | group outer plain => simp only [next, outer, plain]; rfl
    | alternative choice inner named =>
      rcases named with outer | ⟨outer, entry⟩
      · simp only [next, choice, inner, outer]
        rfl
      · simp only [next, choice, inner, outer, Option.elim, choiceName_eq_ok_iff.2 entry]
        rfl
    | element plain => simp only [next, plain]; rfl
    | any => rfl

theorem error_of_choiceName {index : Option Nat} {e : ResolveError} (h : choiceName c owner index = .error e) :
    e = .missingChoiceGroup owner index ∧ c.overrides.choiceGroup? owner index = none := by
  unfold choiceName at h
  split at h
  · cases h
  · next missing =>
    cases h
    exact ⟨rfl, missing⟩

/-- A member is not passed because a choice mixes with groups, or because the table has no entry for the outer choice
or for the choice that the member is. -/
theorem error_of_next {m : Member} {e : ResolveError} (h : s.next c owner isChoice m = .error e) :
    e = .mixedChoiceContent owner ∨ ∃ index, e = .missingChoiceGroup owner index ∧
      c.overrides.choiceGroup? owner index = none ∧ (index = none ∨ index = some s.count ∧ 0 < (choices [m]).length) := by
  have unnamed {index : Option Nat} {f : Option String → Option String × PassedChoices}
      (h : f <$> choiceName c owner index = .error e) :
      e = .missingChoiceGroup owner index ∧ c.overrides.choiceGroup? owner index = none := by
    cases named : choiceName c owner index with
    | ok name =>
      rw [named] at h
      cases h
    | error e' =>
      rw [named] at h
      cases h
      exact error_of_choiceName named
  cases m with
  | group g =>
    dsimp only [next] at h
    split at h
    · cases h
      exact .inl rfl
    · split at h
      · next choice =>
        obtain ⟨rfl, missing⟩ := unnamed h
        exact .inr ⟨_, rfl, missing, .inr ⟨rfl, by rw [choices_group choice]; exact Nat.zero_lt_one⟩⟩
      · cases h
  | element decl site occurs =>
    dsimp only [next] at h
    split at h
    · split at h
      · cases h
        exact .inl rfl
      · cases outer : s.outer with
        | some name =>
          rw [outer] at h
          cases h
        | none =>
          rw [outer] at h
          obtain ⟨rfl, missing⟩ := unnamed h
          exact .inr ⟨_, rfl, missing, .inl rfl⟩
    · cases h
  | any => cases h

theorem reach_cons {m : Member} {rest : List Member} :
    s.reach c owner isChoice (m :: rest) = s.next c owner isChoice m >>= fun r => r.2.reach c owner isChoice rest := by
  rw [reach, List.foldlM_cons, bind_map_left]
  rfl

theorem reach_append_eq_ok_iff {before rest : List Member} :
    s.reach c owner isChoice (before ++ rest) = .ok s' ↔
      ∃ mid, s.reach c owner isChoice before = .ok mid ∧ mid.reach c owner isChoice rest = .ok s' := by
  rw [reach, List.foldlM_append, bind_eq_ok_iff]
  rfl

theorem reach_cons_eq_ok_iff {m : Member} {rest : List Member} :
    s.reach c owner isChoice (m :: rest) = .ok s' ↔
      ∃ name mid, s.next c owner isChoice m = .ok (name, mid) ∧ mid.reach c owner isChoice rest = .ok s' := by
  rw [reach_cons, bind_eq_ok_iff]
  exact ⟨fun ⟨(name, mid), h⟩ => ⟨name, mid, h⟩, fun ⟨name, mid, h⟩ => ⟨(name, mid), h⟩⟩

theorem fault_plan (members : List Member) : (s.plan c owner isChoice members).fault =
    match s.reach c owner isChoice members with
    | .ok _ => none
    | .error e => some e := by
  induction members generalizing s with
  | nil => rfl
  | cons m rest ih =>
    rw [plan, reach_cons]
    cases s.next c owner isChoice m with
    | error e => rfl
    | ok r => exact ih

theorem fault_plan_eq_none_iff {members : List Member} :
    (s.plan c owner isChoice members).fault = none ↔ ∃ s', s.reach c owner isChoice members = .ok s' := by
  rw [fault_plan]
  cases s.reach c owner isChoice members <;> simp

theorem fault_plan_of_content {members : List Member} {e : ResolveError}
    (h : (s.plan c owner isChoice members).fault = some e) :
    e = .mixedChoiceContent owner ∨ ∃ index, e = .missingChoiceGroup owner index := by
  induction members generalizing s with
  | nil => cases h
  | cons m rest ih =>
    rw [plan] at h
    split at h
    · exact ih h
    · next e' stopped =>
      cases h
      exact (error_of_next stopped).imp id fun ⟨index, missing, _⟩ => ⟨index, missing⟩

section Passes

variable {m : Member} {name : Option String}

theorem Passes.count (h : s.Passes c owner isChoice m name s') : s'.count = s.count + (choices [m]).length := by
  cases h with
  | choice _ choice => simp [choices, choice]
  | group _ plain => simp [choices, plain]
  | alternative | element | any => rfl

/-- Once the outer choice has been looked up, it keeps the name that the table gives it. -/
def Told (c : ResolveContext) (owner : String) (s : PassedChoices) : Prop :=
  ∀ name, s.outer = some name → c.overrides.choiceGroup? owner none = some name

theorem Passes.told (h : s.Passes c owner isChoice m name s') (hs : s.Told c owner) : s'.Told c owner := by
  cases h with
  | choice | group | any | element => exact hs
  | alternative _ _ named =>
    rintro _ ⟨⟩
    exact named.elim (hs _) And.right

theorem Passes.namedLeaves_eq (h : s.Passes c owner isChoice m name s') (hs : s.Told c owner) (rest : List Member) :
    namedLeaves c owner isChoice s.count (m :: rest) =
      m.leaves.map (Prod.mk name) ++ namedLeaves c owner isChoice s'.count rest := by
  cases h with
  | choice _ choice entry => simp [namedLeaves, Member.leaves, choice, ResolveContext.choiceName?, entry]
  | group _ plain => simp [namedLeaves, Member.leaves, plain]
  | alternative choice _ named =>
    have entry := named.elim (hs _) And.right
    simp [namedLeaves, Member.leaves, choice, ResolveContext.choiceName?, entry]
  | element plain => simp [namedLeaves, Member.leaves, plain]
  | any => rfl

end Passes

theorem told_start : start.Told c owner := nofun

theorem count_of_reach {members : List Member} (h : s.reach c owner isChoice members = .ok s') :
    s'.count = s.count + (choices members).length := by
  induction members generalizing s with
  | nil =>
    cases h
    rfl
  | cons m rest ih =>
    obtain ⟨name, mid, first, later⟩ := reach_cons_eq_ok_iff.1 h
    rw [ih later, (next_eq_ok_iff.1 first).count, choices_cons m rest, List.length_append, Nat.add_assoc]

theorem told_of_reach {members : List Member} (h : s.reach c owner isChoice members = .ok s') (hs : s.Told c owner) :
    s'.Told c owner := by
  induction members generalizing s with
  | nil =>
    cases h
    exact hs
  | cons m rest ih =>
    obtain ⟨name, mid, first, later⟩ := reach_cons_eq_ok_iff.1 h
    exact ih later ((next_eq_ok_iff.1 first).told hs)

theorem namedLeaves_append_of_reach {before : List Member} (hs : s.Told c owner)
    (h : s.reach c owner isChoice before = .ok s') (rest : List Member) :
    namedLeaves c owner isChoice s.count (before ++ rest) =
      namedLeaves c owner isChoice s.count before ++ namedLeaves c owner isChoice s'.count rest := by
  induction before generalizing s with
  | nil =>
    cases h
    rfl
  | cons m before ih =>
    obtain ⟨name, mid, first, later⟩ := reach_cons_eq_ok_iff.1 h
    have passes := next_eq_ok_iff.1 first
    rw [List.cons_append, passes.namedLeaves_eq hs, passes.namedLeaves_eq hs, ih (passes.told hs) later,
      List.append_assoc]

theorem leaves_plan_prefix (members : List Member) (hs : s.Told c owner) :
    (s.plan c owner isChoice members).leaves <+: namedLeaves c owner isChoice s.count members := by
  induction members generalizing s with
  | nil => exact List.prefix_rfl
  | cons m rest ih =>
    rw [plan]
    split
    · next name mid first =>
      have passes := next_eq_ok_iff.1 first
      rw [passes.namedLeaves_eq hs]
      exact List.prefix_append_right_inj _ |>.2 (ih (passes.told hs))
    · exact List.nil_prefix

theorem leaves_plan_of_reach {members : List Member} (hs : s.Told c owner)
    (h : s.reach c owner isChoice members = .ok s') :
    (s.plan c owner isChoice members).leaves = namedLeaves c owner isChoice s.count members := by
  induction members generalizing s with
  | nil => rfl
  | cons m rest ih =>
    obtain ⟨name, mid, first, later⟩ := reach_cons_eq_ok_iff.1 h
    have passes := next_eq_ok_iff.1 first
    rw [passes.namedLeaves_eq hs, plan, first]
    exact congrArg (_ ++ ·) (ih (passes.told hs) later)

end PassedChoices

def Layout.plan (l : Layout) (c : ResolveContext) (owner : String) : Plan :=
  PassedChoices.start.plan c owner l.isChoice l.members

theorem Layout.leaves_plan_prefix (l : Layout) (c : ResolveContext) (owner : String) :
    (l.plan c owner).leaves <+: l.namedLeaves c owner :=
  PassedChoices.leaves_plan_prefix l.members PassedChoices.told_start

theorem Layout.leaves_plan_of_fault {l : Layout} {c : ResolveContext} {owner : String}
    (h : (l.plan c owner).fault = none) : (l.plan c owner).leaves = l.namedLeaves c owner := by
  obtain ⟨s, reached⟩ := PassedChoices.fault_plan_eq_none_iff.1 h
  exact PassedChoices.leaves_plan_of_reach PassedChoices.told_start reached

theorem Layout.mem_leaves_of_namedLeaves {l : Layout} {c : ResolveContext} {owner : String}
    {leaf : Option String × Leaf} (h : leaf ∈ l.namedLeaves c owner) : leaf.2 ∈ l.leaves := by
  rw [Layout.leaves, ← map_snd_namedLeaves l.isChoice 0]
  exact List.mem_map_of_mem h

theorem Layout.mem_leaves_of_plan {l : Layout} {c : ResolveContext} {owner : String} {leaf : Option String × Leaf}
    (h : leaf ∈ (l.plan c owner).leaves) : leaf.2 ∈ l.leaves :=
  Layout.mem_leaves_of_namedLeaves ((l.leaves_plan_prefix c owner).subset h)

theorem prefix_or_of_prefix {α : Type} {l before after : List α} {a : α} (h : l <+: before ++ a :: after) :
    l <+: before ∨ ∃ more, l = before ++ a :: more := by
  rcases List.prefix_or_prefix_of_prefix h (List.prefix_append before _) with short | ⟨more, rfl⟩
  · exact .inl short
  · rw [List.prefix_append_right_inj] at h
    cases more with
    | nil =>
      rw [List.append_nil]
      exact .inl List.prefix_rfl
    | cons b more =>
      obtain ⟨rfl, -⟩ := List.cons_prefix_cons.1 h
      exact .inr ⟨more, rfl⟩

def addLeaves (c : ResolveContext) (resolve : ResolveType) (owner : String) (found : Found)
    (leaves : List (Option String × Leaf)) : Resolve Found :=
  leaves.foldlM (fun found leaf => addLeaf c resolve leaf.1 owner found leaf.2) found

def Plan.run (c : ResolveContext) (resolve : ResolveType) (owner : String) (found : Found) (p : Plan) :
    Resolve Found := do
  let found ← addLeaves c resolve owner found p.leaves
  match p.fault with
  | none => return found
  | some e => throw e

section Walk

variable {c : ResolveContext} {resolve : ResolveType} {owner : String} {isChoice : Bool}

theorem addLeaves_append (found : Found) (l l' : List (Option String × Leaf)) :
    addLeaves c resolve owner found (l ++ l') =
      addLeaves c resolve owner found l >>= fun found => addLeaves c resolve owner found l' :=
  List.foldlM_append

theorem addLeaves_singleton (found : Found) (leaf : Option String × Leaf) :
    addLeaves c resolve owner found [leaf] = addLeaf c resolve leaf.1 owner found leaf.2 := bind_pure _

theorem addGroup_eq_addLeaves (name : Option String) (found : Found) (g : GroupView) :
    addGroup c resolve name owner found g = addLeaves c resolve owner found (g.leaves.map (Prod.mk name)) := by
  rw [addGroup_eq_foldlM, addLeaves, List.foldlM_map]

theorem yields_run_iff {found found' : Found} {p : Plan} {s t : ResolveState} :
    Yields (p.run c resolve owner found) s found' t ↔
      p.fault = none ∧ Yields (addLeaves c resolve owner found p.leaves) s found' t := by
  unfold Plan.run
  cases p.fault with
  | none => simp
  | some e => simp [yields_bind]

theorem addTopMember_eq (s : ContentState) (m : Member) :
    addTopMember c resolve isChoice owner s m = do
      let r ← ofExcept (s.passed.next c owner isChoice m)
      let found ← addLeaves c resolve owner s.found (m.leaves.map (Prod.mk r.1))
      return ⟨found, r.2.outer, r.2.inner, r.2.count⟩ := by
  obtain ⟨found, outer, inner, choices⟩ := s
  cases m with
  | group g =>
    dsimp only [addTopMember, PassedChoices.next, ContentState.passed, Member.leaves, Option.join]
    simp only [addGroup_eq_addLeaves]
    split
    · rfl
    · split
      · cases choiceName c owner (some choices) <;> rfl
      · rfl
  | element decl site occurs =>
    dsimp only [addTopMember, PassedChoices.next, ContentState.passed, Member.leaves, List.map]
    simp only [addLeaves_singleton]
    split
    · split
      · rfl
      · cases outer with
        | some name => rfl
        | none => cases choiceName c owner none <;> rfl
    · rfl
  | any =>
    dsimp only [addTopMember, PassedChoices.next, ContentState.passed, Member.leaves, List.map]
    simp only [addLeaves_singleton]
    rfl

theorem addTopMembers_eq (s : ContentState) (members : List Member) :
    ContentState.found <$> members.foldlM (addTopMember c resolve isChoice owner) s =
      (s.passed.plan c owner isChoice members).run c resolve owner s.found := by
  induction members generalizing s with
  | nil => rfl
  | cons m rest ih =>
    rw [List.foldlM_cons, addTopMember_eq, PassedChoices.plan]
    cases s.passed.next c owner isChoice m with
    | error e => rfl
    | ok r =>
      have asked {α : Type} (f : Option String × PassedChoices → Resolve α) : ofExcept (.ok r) >>= f = f r := rfl
      simp only [Plan.run, asked, addLeaves_append, map_bind, bind_assoc, pure_bind, ih]
      rfl

theorem reach_of_addTopMembers {s s' : ContentState} {members : List Member} {u v : ResolveState}
    (h : Yields (members.foldlM (addTopMember c resolve isChoice owner) s) u s' v) :
    s.passed.reach c owner isChoice members = .ok s'.passed ∧
      Yields (addLeaves c resolve owner s.found (s.passed.plan c owner isChoice members).leaves) u s'.found v := by
  induction members generalizing s u with
  | nil =>
    obtain ⟨rfl, rfl⟩ := yields_pure.1 h
    exact ⟨rfl, yields_pure.2 ⟨rfl, rfl⟩⟩
  | cons m rest ih =>
    rw [List.foldlM_cons, addTopMember_eq] at h
    obtain ⟨mid, w, first, later⟩ := yields_bind.1 h
    obtain ⟨⟨name, passed⟩, next, first⟩ := yields_ofExcept_bind.1 first
    obtain ⟨found, _, added, first⟩ := yields_bind.1 first
    obtain ⟨rfl, rfl⟩ := yields_pure.1 first
    obtain ⟨reached, leaves⟩ := ih later
    refine ⟨PassedChoices.reach_cons_eq_ok_iff.2 ⟨name, passed, next, reached⟩, ?_⟩
    rw [PassedChoices.plan, next, addLeaves_append]
    exact yields_bind.2 ⟨found, _, added, leaves⟩

def TypeEntry.withContent (layout : Layout) (found : Found) (t : TypeEntry) : TypeEntry :=
  { t with
    isList := layout.isList ||
      (t.attributes.isEmpty && found.elements.size == 1 && found.elements.values.all (·.isList))
    elements := found.elements
    listName := found.listName.orElse fun _ => t.listName }

theorem fillComplex_eq (id : TypeId) (x : ComplexDef) (site : Site) :
    fillComplex c resolve id x site = (do
      let type ← Resolve.entryAt id
      let layout ← ofExcept (c.set.layout type.key [] site x)
      let found ← (layout.plan c type.key).run c resolve type.key ⟨∅, none⟩
      Resolve.modifyType id (TypeEntry.withContent layout found)) := by
  unfold fillComplex
  refine bind_congr fun type => bind_congr fun layout => ?_
  let last (found : Found) : Resolve Unit := Resolve.modifyType id (TypeEntry.withContent layout found)
  exact (bind_map_left _ _ last).symm.trans (congrArg (· >>= last) (addTopMembers_eq _ _))

end Walk

end SchemaGraph
