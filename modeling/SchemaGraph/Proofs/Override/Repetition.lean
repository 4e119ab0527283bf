import SchemaGraph.Proofs.Override.Application

/-! A table that was applied to a graph can be applied again, and then it changes nothing: entries have the
last value for each field already, and every alias is bound to the operation that it stands for. -/
namespace SchemaGraph

open Stateful TypeGraph

def Correction.Corrects (c : Correction) (g g' : TypeGraph) : Prop := c.Fits g ∧ g' = c.effect g

theorem yields_forM_apply_iff {l : List Correction} {g g' : TypeGraph} :
    Yields (l.forM Correction.apply) g () g' ↔ Through Correction.Corrects l g g' := by
  rw [Through.yields_forM_iff]
  simp only [Correction.yields_apply_iff]
  rfl

section Entries

def Correction.OfEntry : Correction → Prop
  | .operationAlias _ _ => False
  | _ => True

theorem Correction.OfEntry.onOperations {c : Correction} (h : c.OfEntry)
    (operations : OrderedMap String Operation) : c.onOperations operations = operations := by
  cases c with
  | operationAlias _ _ => exact h.elim
  | _ => rfl

theorem Correction.OfEntry.fits_congr {c : Correction} (h : c.OfEntry) {g g' : TypeGraph}
    (same : g'.types.shape = g.types.shape) : c.Fits g' ↔ c.Fits g := by
  cases c with
  | operationAlias _ _ => exact h.elim
  | _ => simp only [Fits, same]

theorem OverrideTable.ofEntry_entryCorrections (table : OverrideTable) :
    ∀ c ∈ table.entryCorrections, c.OfEntry := by
  intro c hc
  simp only [entryCorrections, List.mem_append, List.mem_map, List.mem_flatMap, List.mem_cons] at hc
  obtain ((((((((⟨_, _, rfl⟩ | ⟨_, _, rfl⟩) | ⟨_, _, rfl⟩) | ⟨_, _, rfl⟩) | ⟨_, _, rfl⟩) |
    ⟨_, _, rfl | ⟨_, _, rfl⟩⟩) | ⟨_, _, rfl⟩) | ⟨_, _, rfl⟩)) := hc <;> exact trivial

namespace Registry

theorem shape_mapEntries (r : Registry) {f : TypeEntry → TypeEntry} (keeps : ∀ t, (f t).key = t.key)
    (elements : ∀ t, (f t).elements.keys = t.elements.keys) : (r.mapEntries f keeps).shape = r.shape := by
  unfold shape mapEntries
  rw [List.map_map]
  exact List.map_congr_left fun t _ => Prod.ext (keeps t) (elements t)

theorem mapEntries_mapEntries (r : Registry) {f f' h : TypeEntry → TypeEntry}
    (keeps : ∀ t, (f t).key = t.key) (keeps' : ∀ t, (f' t).key = t.key) (keeps'' : ∀ t, (h t).key = t.key)
    (comp : ∀ t, f' (f t) = h t) : (r.mapEntries f keeps).mapEntries f' keeps' = r.mapEntries h keeps'' := by
  apply ext
  simp only [mapEntries, List.map_map]
  exact List.map_congr_left fun t _ => comp t

end Registry

theorem Correction.key_foldl_onEntry (l : List Correction) (place : String → Option TypeId)
    (t : TypeEntry) : (l.foldl (Correction.onEntry place) t).key = t.key := by
  induction l generalizing t with
  | nil => rfl
  | cons c l ih => exact (ih _).trans (c.key_onEntry place t)

theorem through_corrects_iff {l : List Correction} (hl : ∀ c ∈ l, c.OfEntry) {g g' : TypeGraph} :
    Through Correction.Corrects l g g' ↔
      (∀ c ∈ l, c.Fits g) ∧
        g' = { g with
          types := g.types.mapEntries (fun t => l.foldl (Correction.onEntry g.types.lookup) t) fun t =>
            Correction.key_foldl_onEntry l _ t } := by
  induction l generalizing g with
  | nil =>
    rw [Through.nil_iff, Registry.mapEntries_self (Correction.key_foldl_onEntry [] _) fun _ => rfl]
    simp [eq_comm]
  | cons c l ih =>
    obtain ⟨hc, hl⟩ := List.forall_mem_cons.1 hl
    have shape : (c.effect g).types.shape = g.types.shape :=
      g.types.shape_mapEntries (fun t => c.key_onEntry _ t) fun t => c.keys_onEntry _ t
    have rest : ∀ c' ∈ l, c'.Fits (c.effect g) ↔ c'.Fits g := fun c' hc' => (hl c' hc').fits_congr shape
    -- The rest meets the same keys as at the start, so it fits and acts as if it came first.
    have once : { c.effect g with
        types := (c.effect g).types.mapEntries
          (fun t => l.foldl (Correction.onEntry (c.effect g).types.lookup) t)
          fun t => Correction.key_foldl_onEntry l _ t } =
        { g with
          types := g.types.mapEntries (fun t => (c :: l).foldl (Correction.onEntry g.types.lookup) t)
            fun t => Correction.key_foldl_onEntry (c :: l) _ t } := by
      simp only [Registry.lookup_congr shape]
      unfold Correction.effect
      rw [hc.onOperations, Registry.mapEntries_mapEntries _ _ _ _ fun _ => rfl]
      rfl
    rw [Through.cons_iff, List.forall_mem_cons, and_assoc, ← forall₂_congr rest, ← once, ← ih hl]
    constructor
    · rintro ⟨_, ⟨fits, rfl⟩, h⟩
      exact ⟨fits, h⟩
    · rintro ⟨fits, h⟩
      exact ⟨_, ⟨fits, rfl⟩, h⟩

theorem OverrideTable.through_entryCorrections_iff (table : OverrideTable) {g g' : TypeGraph} :
    Through Correction.Corrects table.entryCorrections g g' ↔
      (∀ c ∈ table.entryCorrections, c.Fits g) ∧
        g' = { g with
          types := g.types.mapEntries (table.corrected g.types.lookup) (table.key_corrected _) } := by
  rw [through_corrects_iff table.ofEntry_entryCorrections]
  simp only [table.foldl_entryCorrections]

end Entries

section Aliases

/-- An alias leads to the same operation as the name that it stands for. -/
def AliasBound (operations : OrderedMap String Operation) (added name : String) : Prop :=
  ∃ op, operations.get? name = some op ∧ operations.get? added = some op

def KeepsBindings (operations operations' : OrderedMap String Operation) : Prop :=
  ∀ name op, operations.get? name = some op → operations'.get? name = some op

variable {g g' : TypeGraph} {added name : String}

theorem AliasBound.later {operations operations' : OrderedMap String Operation}
    (h : AliasBound operations added name) (keeps : KeepsBindings operations operations') :
    AliasBound operations' added name := by
  obtain ⟨op, target, aliased⟩ := h
  exact ⟨op, keeps name op target, keeps added op aliased⟩

theorem Correction.Corrects.operationAlias (h : (Correction.operationAlias added name).Corrects g g') :
    ∃ operations, g' = { g with operations } ∧ KeepsBindings g.operations operations ∧
      AliasBound operations added name := by
  obtain ⟨⟨op, target, existing⟩, rfl⟩ := h
  refine ⟨_, effect_eq _ (fun _ _ => rfl) g, ?_⟩
  simp only [onOperations, target]
  cases taken : g.operations.get? added with
  | some op' =>
    obtain rfl := existing op' taken
    exact ⟨fun _ _ => id, op', target, taken⟩
  | none =>
    have kept : KeepsBindings g.operations (g.operations.insert added op) := by
      intro other op' h
      have differs : other ≠ added := by
        rintro rfl
        rw [taken] at h
        cases h
      rw [OrderedMap.get?_insert, if_neg differs, h]
    refine ⟨kept, op, kept name op target, ?_⟩
    rw [OrderedMap.get?_insert, if_pos rfl]

theorem AliasBound.corrects (h : AliasBound g.operations added name) :
    (Correction.operationAlias added name).Corrects g g := by
  obtain ⟨op, target, aliased⟩ := h
  refine ⟨⟨op, target, fun _ existing => Option.some.inj (existing.symm.trans aliased)⟩, ?_⟩
  rw [Correction.effect_eq _ fun _ _ => rfl]
  simp only [Correction.onOperations, aliased]

theorem bound_of_through {l : List (String × String)}
    (h : Through Correction.Corrects (l.map fun (added, name) => .operationAlias added name) g g') :
    ∃ operations, g' = { g with operations } ∧ KeepsBindings g.operations operations ∧
      ∀ p ∈ l, AliasBound operations p.1 p.2 := by
  induction l generalizing g with
  | nil =>
    obtain rfl := Through.nil_iff.1 h
    exact ⟨_, rfl, fun _ _ => id, nofun⟩
  | cons p l ih =>
    obtain ⟨_, first, rest⟩ := Through.cons_iff.1 h
    obtain ⟨operations, rfl, kept, bound⟩ := first.operationAlias
    obtain ⟨operations', rfl, kept', bound'⟩ := ih rest
    exact ⟨operations', rfl, fun name op h => kept' name op (kept name op h),
      List.forall_mem_cons.2 ⟨bound.later kept', bound'⟩⟩

end Aliases

/-- A table that was applied can be applied again and leaves the graph as it is, operations included. -/
theorem correct_again {table : OverrideTable} {g g' : TypeGraph} (h : Yields (correct table) g () g') :
    Yields (correct table) g' () g' := by
  unfold correct at h ⊢
  rw [table.corrections_eq, yields_forM_apply_iff, Through.append_iff] at h ⊢
  obtain ⟨middle, entries, aliases⟩ := h
  obtain ⟨fits, rfl⟩ := table.through_entryCorrections_iff.1 entries
  obtain ⟨operations, rfl, -, bound⟩ := bound_of_through aliases
  -- What was corrected has the shape of `g`, so the same corrections fit and lead to the same places.
  have shape := g.types.shape_mapEntries (table.key_corrected g.types.lookup) (table.keys_corrected _)
  refine ⟨_, table.through_entryCorrections_iff.2 ⟨fun c hc => ?_, ?_⟩, Through.of_still fun c hc => ?_⟩
  · exact ((table.ofEntry_entryCorrections c hc).fits_congr shape).2 (fits c hc)
  · dsimp only
    rw [Registry.lookup_congr shape, Registry.mapEntries_mapEntries _ _ _ _ (table.corrected_corrected _)]
  · obtain ⟨p, hp, rfl⟩ := List.mem_map.1 hc
    exact (bound p hp).corrects

def shop : TypeGraph :=
  { TypeGraph.empty with
    types := .ofEntries
      [{ name := ⟨none, "Order"⟩, elements := .ofList [("item", ⟨⟨0⟩, true, none, none, none, none⟩)] }] (by decide)
    operations := .ofList [("Submit", ⟨"Submit", ⟨none, "In"⟩, ⟨none, "Out"⟩, [], []⟩)] }

/-- A table that names one element twice and has an alias of an alias. -/
def shopTable : OverrideTable :=
  { elementNames := [⟨"Order", ["item", "item"], "line"⟩, ⟨"Order", ["item"], "lines"⟩]
    operationAliases := .ofList [("Place", "Submit"), ("Buy", "Place")] }

theorem shop_corrected_again :
    ∃ g, Yields (correct shopTable) shop () g ∧ g.operations.keys = ["Submit", "Place", "Buy"] ∧
      ((g.types.get ⟨0⟩).elements.get? "item").bind (·.serializedName) = some "lines" ∧
      Yields (correct shopTable) g () g := by
  have run : ((result (correct shopTable) shop).toOption.any fun g =>
      decide (g.operations.keys = ["Submit", "Place", "Buy"]) &&
        decide (((g.types.get ⟨0⟩).elements.get? "item").bind (·.serializedName) = some "lines")) =
      true := by decide +kernel
  obtain ⟨g, corrected, run⟩ := exists_eq_ok_of_any run
  rw [Bool.and_eq_true, decide_eq_true_eq, decide_eq_true_eq] at run
  have first := result_eq_ok_iff.1 corrected
  exact ⟨g, first, run.1, run.2, correct_again first⟩

end SchemaGraph
