import SchemaGraph.Override.Apply
import SchemaGraph.Proofs.Resolution.Handles

/-! What corrections can do to a graph: change entries without touching their names, and add names for
operations that are there.  What these two leave alone is left alone by a whole table. -/
namespace SchemaGraph

open Stateful TypeGraph

theorem correctedType_ends (g : TypeGraph) (key : String) :
    Ends (correctedType key) g (fun id g' => g' = g ∧ g.types.lookup key = some id)
      fun _ g' => g' = g := by
  unfold correctedType
  rw [ends_bind, ends_get]
  cases h : g.types.lookup key with
  | none => exact rfl
  | some id => exact ⟨rfl, rfl⟩

def StaysUnderChange (I : TypeGraph → Prop) : Prop :=
  ∀ (g : TypeGraph) (id : TypeId) (f : TypeEntry → TypeEntry) (keeps : ∀ t, (f t).key = t.key), I g →
    (∀ t, (∀ id ∈ t.handles, g.types.Has id) → ∀ id ∈ (f t).handles, g.types.Has id) →
    I { g with types := g.types.modify id f keeps }

def StaysUnderAlias (I : TypeGraph → Prop) : Prop :=
  ∀ (g : TypeGraph) (added target : String) (op : Operation), I g →
    g.operations.get? target = some op → g.operations.get? added = none →
    I { g with operations := g.operations.insert added op }

variable {I : TypeGraph → Prop}

theorem correctType_keeps (hI : StaysUnderChange I) {key : String} {f : TypeEntry → TypeEntry}
    (keeps : ∀ t, (f t).key = t.key) (hf : ∀ t, (f t).handles = t.handles) :
    Keeps I (correctType key f keeps) := by
  intro g hg
  unfold correctType
  rw [ends_bind]
  refine (correctedType_ends g key).mono ?_ fun _ _ h => h ▸ hg
  rintro id _ ⟨rfl, -⟩
  rw [ends_modify]
  exact hI _ id f keeps hg fun t ht => (hf t).symm ▸ ht

theorem correctElement_keeps (hI : StaysUnderChange I) {key element : String}
    {f : ElementDescriptor → ElementDescriptor} (hf : ∀ d, (f d).typeId = d.typeId) :
    Keeps I (correctElement key element f) := by
  intro g hg
  unfold correctElement
  rw [ends_bind]
  refine (correctedType_ends g key).mono ?_ fun _ _ h => h ▸ hg
  rintro id g ⟨rfl, -⟩
  rw [ends_bind, ends_get]
  split
  · rw [ends_modify]
    refine hI _ id _ _ hg fun t ht => ?_
    rw [TypeEntry.forall_handles] at ht ⊢
    exact ⟨ht.1.modify hf, ht.2⟩
  · exact hg

theorem correctedKind_ends (g : TypeGraph) (key : String) (id : TypeId) (kind : KindCorrection) :
    Ends (correctedKind key id kind) g
      (fun p g' => g' = g ∧ ∀ item, p.2 = some item → g.types.Has item) fun _ g' => g' = g := by
  have none : ∀ item, none = some item → g.types.Has item := by rintro _ ⟨⟩
  cases kind with
  | boolean => exact ⟨rfl, none⟩
  | decimal => exact ⟨rfl, none⟩
  | string => exact ⟨rfl, none⟩
  | enum => exact ⟨rfl, none⟩
  | list item =>
    unfold correctedKind
    rw [ends_bind]
    refine (correctedType_ends g item).mono ?_ fun _ _ h => h
    rintro itemId _ ⟨rfl, hitem⟩
    split
    · exact rfl
    · exact ⟨rfl, fun _ h => Option.some.inj h ▸ Registry.has_of_lookup hitem⟩

theorem correctKind_keeps (hI : StaysUnderChange I) {key : String} {kind : KindCorrection} :
    Keeps I (correctKind key kind) := by
  intro g hg
  unfold correctKind
  rw [ends_bind]
  refine (correctedType_ends g key).mono ?_ fun _ _ h => h ▸ hg
  rintro id g ⟨rfl, -⟩
  rw [ends_bind]
  refine (correctedKind_ends _ key id kind).mono ?_ fun _ _ h => h ▸ hg
  rintro ⟨simpleKind, listItem⟩ g ⟨rfl, hitem⟩
  rw [ends_modify]
  refine hI _ id _ _ hg fun t ht => ?_
  rw [TypeEntry.forall_handles] at ht ⊢
  exact ⟨ht.1, ht.2.1, hitem⟩

theorem addAlias_keeps (hI : StaysUnderAlias I) {added target : String} :
    Keeps I (addAlias added target) := by
  intro g hg
  unfold addAlias
  rw [ends_bind, ends_get]
  cases htarget : g.operations.get? target with
  | none => exact hg
  | some op =>
    rw [ends_bind, ends_get]
    cases hadded : g.operations.get? added with
    | some existing =>
      dsimp only
      split
      · exact hg
      · exact hg
    | none => exact hI g added target op hg htarget hadded

theorem Correction.apply_keeps (hchange : StaysUnderChange I) (halias : StaysUnderAlias I)
    (correction : Correction) : Keeps I correction.apply := by
  cases correction with
  | typeName key name => exact correctType_keeps hchange _ fun _ => rfl
  | listName key name => exact correctType_keeps hchange _ fun _ => rfl
  | extraProperties key extra => exact correctType_keeps hchange _ fun _ => rfl
  | textAttribute key name => exact correctType_keeps hchange _ fun _ => rfl
  | kind key kind => exact correctKind_keeps hchange
  | target key =>
    intro g hg
    exact ends_map.2 ((correctedType_ends g key).mono (fun _ _ h => h.1 ▸ hg) fun _ _ h => h ▸ hg)
  | elementName key element name => exact correctElement_keeps hchange fun _ => rfl
  | elementHint key element hint => exact correctElement_keeps hchange fun _ => rfl
  | elementDefault key element value => exact correctElement_keeps hchange fun _ => rfl
  | operationAlias added target => exact addAlias_keeps halias

/-- What holds under every change of an entry and every alias holds after a table, also where one of its
corrections does not find its target. -/
theorem correct_keeps (hchange : StaysUnderChange I) (halias : StaysUnderAlias I)
    (table : OverrideTable) : Keeps I (correct table) :=
  Keeps.forM fun correction _ => Correction.apply_keeps hchange halias correction

end SchemaGraph
