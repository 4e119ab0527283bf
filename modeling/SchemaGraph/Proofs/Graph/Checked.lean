import SchemaGraph.Artifact.Basic
import SchemaGraph.Proofs.Graph.Closed

/-! What the final check settles.  It looks at one operation of each action only; in a compiled graph
operations with one action are the same operation, so that the check covers all of them and the tables of
the graph can be written. -/
namespace SchemaGraph

open Stateful

namespace TypeGraph

variable {g : TypeGraph}

def Provides (g : TypeGraph) (op : Operation) : Prop :=
  g.elements.contains op.input.clark = true ∧ g.elements.contains op.output.clark = true ∧
    ∀ header ∈ op.inputHeaders ++ op.outputHeaders,
      g.elements.contains header.clark = true ∨ header.clark ∈ g.skippedHeaders

/-- A list of literals has an enumeration as its item type. -/
def ItemsKnown (g : TypeGraph) (t : TypeEntry) : Prop :=
  t.simpleKind = some .listOfEnum →
    ∃ item, t.listItem = some item ∧ (g.types.get item).simpleKind = some .enum

theorem checkList_eq_ok_iff {t : TypeEntry} : g.checkList t = .ok () ↔ g.ItemsKnown t := by
  unfold checkList ItemsKnown
  split
  · next hk =>
    cases t.listItem with
    | none => simp [hk]
    | some item => by_cases he : (g.types.get item).simpleKind = some .enum <;> simp [hk, he]
  · next hk => simp [hk]

theorem checkOperation_eq_ok_iff {name : String} {op : Operation} :
    g.checkOperation name op = .ok () ↔ g.Provides op := by
  have single : ∀ element : QName,
      (if g.elements.contains element.clark then .ok ()
        else .error (.unknownElement name element) : Except GraphFault Unit) = .ok () ↔
      g.elements.contains element.clark = true := by
    intro element
    by_cases h : g.elements.contains element.clark = true <;> simp [h]
  unfold checkOperation Provides
  simp only [forM_eq_ok_iff, single, List.forall_mem_cons, List.mem_filter, and_imp]
  refine and_congr_right fun _ => and_congr_right fun _ => forall_congr' fun header => ?_
  refine imp_congr_right fun _ => ?_
  by_cases hs : header.clark ∈ g.skippedHeaders <;> simp [hs]

/-- Operations with one action are one operation. -/
def ActionsAgree (operations : List (String × Operation)) : Prop :=
  ∀ e ∈ operations, ∀ e' ∈ operations, e.2.action = e'.2.action → e.2 = e'.2

theorem provides_of_checkOperations {operations : List (String × Operation)}
    (agree : ActionsAgree operations) {seen : List String}
    (h : g.checkOperations seen operations = .ok ()) :
    ∀ e ∈ operations, e.2.action ∈ seen ∨ g.Provides e.2 := by
  induction operations generalizing seen with
  | nil => exact fun _ he => absurd he List.not_mem_nil
  | cons first rest ih =>
    obtain ⟨name, op⟩ := first
    have agreeRest : ActionsAgree rest := fun e he e' he' =>
      agree e (List.mem_cons_of_mem _ he) e' (List.mem_cons_of_mem _ he')
    unfold checkOperations at h
    split at h
    · next hseen =>
      rw [List.forall_mem_cons]
      exact ⟨.inl (by simpa using hseen), ih agreeRest h⟩
    · rw [seq_eq_ok_iff, checkOperation_eq_ok_iff] at h
      rw [List.forall_mem_cons]
      refine ⟨.inr h.1, fun e he => ?_⟩
      rcases ih agreeRest h.2 e he with hmem | hp
      · rcases List.mem_cons.1 hmem with hsame | hmem
        · have := agree e (List.mem_cons_of_mem _ he) (name, op) List.mem_cons_self hsame
          exact .inr (this ▸ h.1)
        · exact .inl hmem
      · exact .inr hp

theorem actionsAgree_of_keyed {m : OrderedMap String Operation}
    (h : ∀ e ∈ m.entries, e.1 = e.2.action) : ActionsAgree m.entries := by
  rintro ⟨name, op⟩ he ⟨name', op'⟩ he' hsame
  have hname : name = name' := (h _ he).trans (hsame.trans (h _ he').symm)
  subst hname
  rw [OrderedMap.mem_entries_iff] at he he'
  exact Option.some.inj (he.symm.trans he')

theorem actionsAgree_addOperations (g : TypeGraph) (operations : List Operation)
    (h : ∀ e ∈ g.operations.entries, e.1 = e.2.action) :
    ActionsAgree (g.addOperations operations).operations.entries := by
  refine actionsAgree_of_keyed ?_
  unfold addOperations
  dsimp only
  generalize g.operations = m at h
  induction operations generalizing m with
  | nil => exact h
  | cons op rest ih =>
    refine ih _ ?_
    rintro ⟨name, op'⟩ he
    rw [OrderedMap.mem_entries_iff, OrderedMap.get?_insert] at he
    split at he
    · next hname =>
      cases he
      exact hname
    · exact h _ ((OrderedMap.mem_entries_iff _ _ _).2 he)

theorem staysUnderAlias_actionsAgree :
    StaysUnderAlias fun g => ActionsAgree g.operations.entries := by
  intro g added target op agree htarget hadded
  have old : ∀ e ∈ (g.operations.insert added op).entries, ∃ name, (name, e.2) ∈ g.operations.entries := by
    rintro ⟨name, op'⟩ he
    rw [OrderedMap.mem_entries_iff, OrderedMap.get?_insert] at he
    split at he
    · cases he
      exact ⟨target, (OrderedMap.mem_entries_iff _ _ _).2 htarget⟩
    · exact ⟨name, (OrderedMap.mem_entries_iff _ _ _).2 he⟩
  intro e he e' he' hsame
  obtain ⟨name, hmem⟩ := old e he
  obtain ⟨name', hmem'⟩ := old e' he'
  exact agree (name, e.2) hmem (name', e'.2) hmem' hsame

end TypeGraph

theorem aggregateHeaders_keeps_operations (operations : OrderedMap String Operation) :
    Keeps (fun g => g.operations = operations) TypeGraph.aggregateHeaders :=
  aggregateHeaders_keeps (fun _ _ _ _ _ hg _ => hg) fun _ _ _ _ hg => hg

theorem compile_actionsAgree (set : DeclarationSet) (operations : List Operation)
    (overrides : OverrideTable) (options : ResolveOptions) :
    Settles (compile set operations overrides options)
      (fun g => TypeGraph.ActionsAgree g.operations.entries ∧ g.check = .ok ()) fun _ => True := by
  unfold compile
  refine Settles.bind (Q := fun g => g.operations = ∅) (Settles.mapError_iff.2 ?_) ?_
  · exact (graph_settles _).mono (fun _ ⟨_, _, hs⟩ => hs ▸ rfl) fun _ _ => True.intro
  intro resolved hempty
  have agree : TypeGraph.ActionsAgree (resolved.addOperations operations).operations.entries := by
    refine TypeGraph.actionsAgree_addOperations resolved operations ?_
    rw [hempty]
    exact fun _ he => absurd he List.not_mem_nil
  refine Settles.bind (Q := fun g => TypeGraph.ActionsAgree g.operations.entries)
    (Settles.mapError_iff.2 (settles_result ((aggregateHeaders_keeps_operations _ _ rfl).mono ?_ ?_))) ?_
  · exact fun _ _ h => h.symm ▸ agree
  · exact fun _ _ _ => True.intro
  intro g hg
  refine Settles.bind (Q := fun g => TypeGraph.ActionsAgree g.operations.entries)
    (Settles.mapError_iff.2 (settles_result ((correct_keeps (I := fun g =>
      TypeGraph.ActionsAgree g.operations.entries) (fun _ _ _ _ hg _ => hg)
      TypeGraph.staysUnderAlias_actionsAgree overrides g hg).mono (fun _ _ h => h) ?_))) ?_
  · exact fun _ _ _ => True.intro
  intro g hg
  cases hcheck : g.check with
  | ok _ => exact ⟨hg, hcheck⟩
  | error e => exact True.intro

theorem exists_ofGraph (options : ArtifactOptions) {g : TypeGraph}
    (h : ∀ e ∈ g.operations.entries, g.Provides e.2) :
    ∃ tables, Artifact.ofGraph options g = .ok tables := by
  have row : ∀ e ∈ g.operations.entries, ∃ row, Artifact.operationRow options g e = .ok row := by
    rintro ⟨name, op⟩ he
    obtain ⟨input, output, -⟩ := h _ he
    obtain ⟨request, hrequest⟩ := Option.isSome_iff_exists.1 input
    obtain ⟨response, hresponse⟩ := Option.isSome_iff_exists.1 output
    simp only [Artifact.operationRow, Artifact.elementType, hrequest, hresponse]
    exact ⟨_, rfl⟩
  obtain ⟨rows, hrows⟩ := exists_mapM_eq_ok row
  unfold Artifact.ofGraph
  rw [hrows]
  exact ⟨_, rfl⟩

/-- A compiled graph has the elements of all its operations, aliases included, and the item types of all
its lists; its tables can always be written. -/
theorem complete_of_compile {set : DeclarationSet} {operations : List Operation}
    {overrides : OverrideTable} {options : ResolveOptions} {g : TypeGraph}
    (h : compile set operations overrides options = .ok g) :
    (∀ name op, (name, op) ∈ g.operations.entries → g.Provides op) ∧
      (∀ t ∈ g.types.entries, t.simpleKind = some .listOfEnum →
        ∃ item entry, t.listItem = some item ∧ g.types.get? item = some entry ∧
          entry.simpleKind = some .enum) ∧
      ∀ options, ∃ tables, Artifact.ofGraph options g = .ok tables := by
  obtain ⟨agree, check⟩ := (compile_actionsAgree set operations overrides options).answer h
  have closed := (compile_settles set operations overrides options).answer h
  unfold TypeGraph.check at check
  rw [seq_eq_ok_iff, forM_eq_ok_iff] at check
  have provides : ∀ e ∈ g.operations.entries, g.Provides e.2 := fun e he =>
    (TypeGraph.provides_of_checkOperations agree check.2 e he).resolve_left List.not_mem_nil
  refine ⟨fun name op he => provides _ he, fun t ht hkind => ?_, fun options =>
    exists_ofGraph options provides⟩
  obtain ⟨item, hitem, henum⟩ := TypeGraph.checkList_eq_ok_iff.1 (check.1 t ht) hkind
  have inside : g.types.Has item :=
    closed.types t ht item (List.mem_append_right _ (by simp [hitem]))
  obtain ⟨entry, hentry⟩ := Registry.has_iff.1 inside
  rw [Registry.get, hentry] at henum
  exact ⟨item, entry, hitem, hentry, henum⟩

def palette : DeclarationSet :=
  let name := fun localName => (⟨some "urn:palette", localName⟩ : QName)
  let picture : TypeDef :=
    ⟨some (name "Picture"), false, .complex ⟨.none, .elements ⟨.sequence, .once,
      [.element ⟨name "colors", .named (name "Colors"), .once, false, none⟩]⟩, [], false⟩⟩
  ((DeclarationSet.add
    { targetNamespace := some "urn:palette"
      types := [⟨some (name "Color"), false, .restriction (.named (.xsd "string")) ["red", "blue"]⟩,
        ⟨some (name "Colors"), false, .list (.named (name "Color"))⟩, picture]
      elements := [⟨name "Paint", .named (name "Picture"), .once, false, none⟩,
        ⟨name "Painted", .named (name "Picture"), .once, false, none⟩] }).run.run .empty).2

theorem palette_complete :
    let paint : Operation := ⟨"Paint", ⟨some "urn:palette", "Paint"⟩, ⟨some "urn:palette", "Painted"⟩, [], []⟩
    let overrides : OverrideTable := { operationAliases := .ofList [("Draw", "Paint")] }
    ∃ g, compile palette [paint] overrides {} = .ok g ∧
      g.operations.get? "Draw" = some paint ∧ g.Provides paint ∧
      (∃ t ∈ g.types.entries, t.simpleKind = some .listOfEnum ∧ t.listItem.isSome) ∧
      ∃ tables, Artifact.ofGraph {} g = .ok tables := by
  intro paint overrides
  have run : ((compile palette [paint] overrides {}).toOption.any fun g =>
      decide (g.operations.get? "Draw" = some paint) &&
        g.types.entries.any fun t => t.simpleKind == some .listOfEnum) = true := by decide +kernel
  obtain ⟨g, hg, run⟩ := exists_eq_ok_of_any run
  obtain ⟨provides, items, tables⟩ := complete_of_compile hg
  rw [Bool.and_eq_true, decide_eq_true_eq, List.any_eq_true] at run
  obtain ⟨called, t, ht, hkind⟩ := run
  have hkind : t.simpleKind = some .listOfEnum := by simpa using hkind
  obtain ⟨item, -, hitem, -⟩ := items t ht hkind
  exact ⟨g, hg, called, provides _ _ ((OrderedMap.mem_entries_iff _ _ _).2 called),
    ⟨t, ht, hkind, by simp [hitem]⟩, tables {}⟩

end SchemaGraph
