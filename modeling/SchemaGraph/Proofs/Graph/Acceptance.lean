import SchemaGraph.Proofs.Graph.Checked

/-! Which graphs pass the final check.  Of several operations with one action the check looks at the first only, so
that a later one may refer to anything. -/
namespace SchemaGraph.TypeGraph

variable {g : TypeGraph} {operations rest : List (String × Operation)} {first e : String × Operation}

/-- No operation before `e` has its action. -/
def LeadsAction (operations : List (String × Operation)) (e : String × Operation) : Prop :=
  ∃ before after, operations = before ++ e :: after ∧ ∀ e' ∈ before, e'.2.action ≠ e.2.action

theorem leadsAction_cons_iff :
    LeadsAction (first :: rest) e ↔ e = first ∨ LeadsAction rest e ∧ first.2.action ≠ e.2.action := by
  constructor
  · rintro ⟨before, after, split, new⟩
    cases before with
    | nil => exact .inl (List.cons.inj split).1.symm
    | cons first' before =>
      obtain ⟨rfl, later⟩ := List.cons.inj split
      rw [List.forall_mem_cons] at new
      exact .inr ⟨⟨before, after, later, new.2⟩, new.1⟩
  · rintro (rfl | ⟨⟨before, after, rfl, new⟩, other⟩)
    · exact ⟨[], rest, rfl, by simp⟩
    · exact ⟨first :: before, after, rfl, List.forall_mem_cons.2 ⟨other, new⟩⟩

theorem LeadsAction.mem (h : LeadsAction operations e) : e ∈ operations := by
  obtain ⟨before, after, rfl, -⟩ := h
  simp

theorem exists_leadsAction (h : e ∈ operations) :
    ∃ e', LeadsAction operations e' ∧ e'.2.action = e.2.action := by
  induction operations with
  | nil => simp at h
  | cons first rest ih =>
    by_cases same : first.2.action = e.2.action
    · exact ⟨first, leadsAction_cons_iff.2 (.inl rfl), same⟩
    · have later : e ∈ rest := (List.mem_cons.1 h).resolve_left fun own => same (own ▸ rfl)
      obtain ⟨e', leads, action⟩ := ih later
      exact ⟨e', leadsAction_cons_iff.2 (.inr ⟨leads, action ▸ same⟩), action⟩

theorem checkOperations_eq_ok_iff {seen : List String} :
    g.checkOperations seen operations = .ok () ↔
      ∀ e, LeadsAction operations e → e.2.action ∉ seen → g.Provides e.2 := by
  induction operations generalizing seen with
  | nil =>
    have none : ∀ e, ¬ LeadsAction [] e := fun e h => List.not_mem_nil h.mem
    simp [checkOperations, none]
  | cons first rest ih =>
    obtain ⟨name, op⟩ := first
    rw [checkOperations]
    by_cases known : op.action ∈ seen
    · -- What leads an unseen action in the whole list has another action than the first operation.
      have passed : ∀ e, e.2.action ∉ seen → (LeadsAction ((name, op) :: rest) e ↔ LeadsAction rest e) := by
        intro e new
        have other : op.action ≠ e.2.action := fun same => new (same ▸ known)
        rw [leadsAction_cons_iff]
        constructor
        · rintro (rfl | ⟨leads, -⟩)
          · exact absurd rfl other
          · exact leads
        · exact fun leads => .inr ⟨leads, other⟩
      rw [if_pos (by simpa using known), ih]
      refine forall_congr' fun e => ⟨fun h leads new => ?_, fun h leads new => ?_⟩
      · exact h ((passed e new).1 leads) new
      · exact h ((passed e new).2 leads) new
    · rw [if_neg (by simpa using known), seq_eq_ok_iff, checkOperation_eq_ok_iff, ih]
      constructor
      · rintro ⟨own, later⟩ e leads new
        rcases leadsAction_cons_iff.1 leads with rfl | ⟨leads, other⟩
        · exact own
        · exact later e leads (by simp [Ne.symm other, new])
      · intro h
        refine ⟨h _ (leadsAction_cons_iff.2 (.inl rfl)) known, fun e leads new => ?_⟩
        rw [List.mem_cons, not_or] at new
        exact h e (leadsAction_cons_iff.2 (.inr ⟨leads, Ne.symm new.1⟩)) new.2

theorem forall_provides_iff (agree : ActionsAgree operations) :
    (∀ e, LeadsAction operations e → g.Provides e.2) ↔ ∀ e ∈ operations, g.Provides e.2 := by
  refine ⟨fun h e listed => ?_, fun h e leads => h e leads.mem⟩
  obtain ⟨e', leads, action⟩ := exists_leadsAction listed
  exact agree e' leads.mem e listed action ▸ h e' leads

/-- Every list of literals has an item type, and that is an enumeration. -/
def ListsTyped (g : TypeGraph) : Prop :=
  ∀ t ∈ g.types.entries, t.simpleKind = some .listOfEnum →
    ∃ item entry, t.listItem = some item ∧ g.types.get? item = some entry ∧ entry.simpleKind = some .enum

theorem listsTyped_iff (closed : g.Closed) : g.ListsTyped ↔ ∀ t ∈ g.types.entries, g.ItemsKnown t := by
  refine forall_congr' fun t => forall_congr' fun ht => imp_congr_right fun _ => exists_congr fun item => ?_
  constructor
  · rintro ⟨entry, named, found, isEnum⟩
    exact ⟨named, by rw [Registry.get, found]; exact isEnum⟩
  · rintro ⟨named, isEnum⟩
    have inside : g.types.Has item := closed.types t ht item (by simp [TypeEntry.handles, named])
    obtain ⟨entry, found⟩ := Registry.has_iff.1 inside
    rw [Registry.get, found] at isEnum
    exact ⟨entry, named, found, isEnum⟩

theorem check_eq_ok_iff (closed : g.Closed) :
    g.check = .ok () ↔
      g.ListsTyped ∧ ∀ e, LeadsAction g.operations.entries e → g.Provides e.2 := by
  rw [check, seq_eq_ok_iff, forM_eq_ok_iff, checkOperations_eq_ok_iff, listsTyped_iff closed]
  simp only [checkList_eq_ok_iff, List.not_mem_nil, not_false_eq_true, forall_const]

/-- A graph passes the check if and only if its lists of literals have enumerations for items and the operations that
lead their actions have global elements for bodies and headers, headers that were left out apart.  Where operations
with one action agree this covers all operations; an operation whose elements are missing gets through only behind
another operation with the same action. -/
theorem check_exact (closed : g.Closed) :
    (g.check = .ok () ↔ g.ListsTyped ∧ ∀ e, LeadsAction g.operations.entries e → g.Provides e.2) ∧
      (ActionsAgree g.operations.entries →
        (g.check = .ok () ↔ g.ListsTyped ∧ ∀ e ∈ g.operations.entries, g.Provides e.2)) ∧
      ∀ e ∈ g.operations.entries, g.check = .ok () → ¬ g.Provides e.2 →
        ∃ e', LeadsAction g.operations.entries e' ∧ e'.2.action = e.2.action ∧ e'.2 ≠ e.2 := by
  refine ⟨check_eq_ok_iff closed, fun agree => ?_, fun e listed passed lacking => ?_⟩
  · rw [check_eq_ok_iff closed, forall_provides_iff agree]
  · obtain ⟨e', leads, action⟩ := exists_leadsAction listed
    have provided := ((check_eq_ok_iff closed).1 passed).2 e' leads
    exact ⟨e', leads, action, fun same => lacking (same ▸ provided)⟩

def billName (localName : String) : QName := ⟨some "urn:bill", localName⟩

def refund : Operation := ⟨"Pay", billName "Pay", billName "Refunded", [], []⟩

def billing : TypeGraph :=
  let text : ElementDescriptor := { typeId := ⟨0⟩, isList := false }
  { TypeGraph.empty with
    types := .ofEntries [{ name := .xsd "string", simpleKind := some .string }] (by simp)
    elements := .ofList [((billName "Pay").clark, text), ((billName "Paid").clark, text)]
    operations := .ofList [("Pay", ⟨"Pay", billName "Pay", billName "Paid", [], []⟩), ("Refund", refund)] }

theorem billing_closed : billing.Closed where
  types := by
    unfold Registry.Closed Registry.Has
    decide
  elements := by
    unfold Registry.Covers Registry.Has
    decide
  request := nofun
  response := nofun

theorem billing_checked :
    billing.Closed ∧ billing.operations.get? "Refund" = some refund ∧ billing.check = .ok () ∧
      ¬ billing.Provides refund ∧
      ∃ e, LeadsAction billing.operations.entries e ∧ e.2.action = "Pay" ∧ e.2 ≠ refund := by
  have listed : billing.operations.get? "Refund" = some refund := by decide
  have passed : billing.check = .ok () := by rfl
  have lacking : ¬ billing.Provides refund := fun provided => absurd provided.2.1 (by decide)
  obtain ⟨-, -, behind⟩ := check_exact billing_closed
  exact ⟨billing_closed, listed, passed, lacking,
    behind _ ((OrderedMap.mem_entries_iff _ _ _).2 listed) passed lacking⟩

end SchemaGraph.TypeGraph
