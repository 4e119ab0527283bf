import SchemaGraph.Artifact.Basic
import SchemaGraph.Proofs.Graph.Blank
import SchemaGraph.Proofs.Graph.Closed
import SchemaGraph.Proofs.Override.Frame

/-! The serialized names of types, from the table to the rows that are written out.  Nothing before the corrections
gives a type such a name, so that a name in a row is one of the table or is made from the name of the type. -/
namespace SchemaGraph

open Stateful

section Endings

variable {name ending stem : String}

theorem endsWith_iff_exists : name.endsWith ending = true ↔ ∃ stem, name = stem ++ ending := by
  rw [String.endsWith, String.Slice.endsWith_string_iff, String.copy_toSlice,
    List.suffix_iff_exists_append_eq]
  constructor
  · rintro ⟨stem, h⟩
    refine ⟨String.ofList stem, ?_⟩
    rw [← String.toList_inj]
    simp [← h]
  · rintro ⟨stem, rfl⟩
    exact ⟨stem.toList, by simp⟩

theorem toString_dropSuffix (h : name = stem ++ ending) : (name.dropSuffix ending).toString = stem := by
  have found : name.toSlice.endsWith ending = true := endsWith_iff_exists.2 ⟨stem, h⟩
  unfold String.dropSuffix String.Slice.dropSuffix
  cases dropped : name.toSlice.dropSuffix? ending with
  | none =>
    rw [String.Slice.dropSuffix?_eq_none_iff, found] at dropped
    cases dropped
  | some rest =>
    have whole := String.Slice.eq_append_of_dropSuffix?_string_eq_some dropped
    rw [String.copy_toSlice, h] at whole
    exact ((String.append_left_inj ending).1 whole).symm

theorem toString_dropSuffix_of_ne (h : ∀ stem, name ≠ stem ++ ending) :
    (name.dropSuffix ending).toString = name := by
  have missing : name.toSlice.endsWith ending = false := by
    rw [Bool.eq_false_iff]
    intro found
    obtain ⟨stem, rfl⟩ := endsWith_iff_exists.1 found
    exact h stem rfl
  unfold String.dropSuffix String.Slice.dropSuffix
  rw [String.Slice.dropSuffix?_eq_none_iff.2 missing]
  exact String.copy_toSlice

end Endings

section Unnamed

theorem unnamed_of_graph {c : ResolveContext} {g : TypeGraph} (h : c.graph = .ok g) :
    g.types.Lacks (·.serializedName) := by
  have fixed (t t' : TypeEntry) (same : t'.start = t.start) : t'.serializedName = t.serializedName :=
    congrArg (·.2.2.2.1) same
  obtain ⟨r, lacks, finished⟩ := exists_lacks_of_graph fixed (fun _ _ => rfl) h
  rw [finished]
  intro t ht
  obtain ⟨t₀, ht₀, rfl⟩ := List.mem_map.1 ht
  obtain ⟨text, finished⟩ := t₀.exists_finish_eq
  rw [finished]
  exact lacks t₀ ht₀

theorem aggregateHeaders_keeps_unnamed :
    Keeps (fun g => g.types.Lacks (·.serializedName)) TypeGraph.aggregateHeaders :=
  aggregateHeaders_keeps (fun _ _ _ _ _ hg entered => Registry.Lacks.reserve hg rfl entered) fun _ _ _ _ hg => hg

end Unnamed

theorem names_of_compile {set : DeclarationSet} {operations : List Operation} {table : OverrideTable}
    {options : ResolveOptions} {g : TypeGraph} (h : compile set operations table options = .ok g) :
    (∀ key ∈ table.typeNames.keys, ∃ t ∈ g.types.entries, t.key = key) ∧
      ∀ t ∈ g.types.entries, t.serializedName = table.typeNames.get? t.key := by
  unfold compile at h
  simp only [bind_eq_ok_iff, mapError_eq_ok_iff] at h
  obtain ⟨resolved, hresolved, withHeaders, hheaders, corrected, hcorrected, -, -, last⟩ := h
  cases last
  have unnamed : withHeaders.types.Lacks (·.serializedName) := by
    have kept := aggregateHeaders_keeps_unnamed (resolved.addOperations operations)
      (unnamed_of_graph (g := resolved) hresolved)
    exact kept.answer (result_eq_ok_iff.1 hheaders)
  obtain ⟨finds, _, _, -, rfl⟩ := yields_correct_iff.1 (result_eq_ok_iff.1 hcorrected)
  have changed : ∀ t ∈ withHeaders.types.entries,
      (table.corrected withHeaders.types.lookup t).serializedName = table.typeNames.get? t.key := by
    intro t ht
    change (table.typeNames.get? t.key).or t.serializedName = _
    rw [show t.serializedName = none from unnamed t ht, Option.or_none]
  constructor
  · intro key hkey
    obtain ⟨t, ht, rfl⟩ := List.mem_map.1 (Registry.isSome_lookup_iff.1 (finds.typeNames key hkey))
    exact ⟨_, List.mem_map_of_mem ht, table.key_corrected _ t⟩
  · intro t ht
    obtain ⟨t₀, ht₀, rfl⟩ := List.mem_map.1 ht
    exact changed t₀ ht₀

/-- What a table and a suffix make of the name of a type in serialized form. -/
inductive SerializedAs (table : OverrideTable) (suffix : String) (t : TypeEntry) : Option String → Prop
  /-- Types with the ending of inline types have none, also where the table names them. -/
  | inline {stem : String} : t.name.localName = stem ++ "AnonType" → SerializedAs table suffix t none
  | named {name : String} : (∀ stem, t.name.localName ≠ stem ++ "AnonType") →
      table.typeNames.get? t.key = some name → SerializedAs table suffix t (some (name ++ suffix))
  | shortened {stem : String} : (∀ stem, t.name.localName ≠ stem ++ "AnonType") →
      table.typeNames.get? t.key = none → t.name.localName = stem ++ "Type" →
      SerializedAs table suffix t (some (stem ++ suffix))
  | whole : (∀ stem, t.name.localName ≠ stem ++ "AnonType") → table.typeNames.get? t.key = none →
      (∀ stem, t.name.localName ≠ stem ++ "Type") →
      SerializedAs table suffix t (some (t.name.localName ++ suffix))

theorem serializedAs_of_name {table : OverrideTable} {t : TypeEntry} (suffix : String)
    (h : t.serializedName = table.typeNames.get? t.key) :
    SerializedAs table suffix t (t.serializedType suffix) := by
  unfold TypeEntry.serializedType
  split
  · next ends =>
    obtain ⟨stem, hstem⟩ := endsWith_iff_exists.1 ends
    exact .inline hstem
  · next ends =>
    have other : ∀ stem, t.name.localName ≠ stem ++ "AnonType" := by
      intro stem hstem
      exact ends (endsWith_iff_exists.2 ⟨stem, hstem⟩)
    rw [h]
    cases given : table.typeNames.get? t.key with
    | some name => exact .named other given
    | none =>
      by_cases short : ∃ stem, t.name.localName = stem ++ "Type"
      · obtain ⟨stem, hstem⟩ := short
        rw [toString_dropSuffix hstem]
        exact .shortened other given hstem
      · have whole : ∀ stem, t.name.localName ≠ stem ++ "Type" := fun stem hstem => short ⟨stem, hstem⟩
        rw [toString_dropSuffix_of_ne whole]
        exact .whole other given whole

/-- In the tables of a compiled graph every type has one row.  Its serialized name is the one that the
corrections give, or else the local name without one `Type` at its end, each with the suffix; a type whose
local name ends in `AnonType` has none. -/
theorem serializedTypes_of_compile {set : DeclarationSet} {operations : List Operation}
    {table : OverrideTable} {options : ResolveOptions} {g : TypeGraph}
    (h : compile set operations table options = .ok g) (output : ArtifactOptions) :
    (∀ key ∈ table.typeNames.keys, ∃ t ∈ g.types.entries, t.key = key) ∧
      (∀ a, Artifact.ofGraph output g = .ok a →
        a.types.Perm (g.types.entries.map (Artifact.typeRow output g))) ∧
      ∀ t ∈ g.types.entries, SerializedAs table output.suffix t (Artifact.typeRow output g t).jsonType := by
  obtain ⟨targets, names⟩ := names_of_compile h
  refine ⟨targets, ?_, ?_⟩
  · intro a ha
    unfold Artifact.ofGraph at ha
    obtain ⟨rows, -, ha⟩ := bind_eq_ok_iff.1 ha
    cases ha
    exact List.mergeSort_perm _ _
  · intro t ht
    exact serializedAs_of_name output.suffix (names t ht)

def notes : DeclarationSet :=
  let name := fun localName => (⟨some "urn:notes", localName⟩ : QName)
  (exec (DeclarationSet.add
    { targetNamespace := some "urn:notes"
      types := [⟨some (name "NoteAnonType"), false, .complex .empty⟩,
        ⟨some (name "PageType"), false, .complex .empty⟩] }) .empty).2

theorem notes_serialized :
    let table : OverrideTable := { typeNames := .ofList [("\x7burn:notes\x7dNoteAnonType", "Note")] }
    ∃ g, compile notes [] table {} = .ok g ∧
      (∃ t ∈ g.types.entries, t.key = "\x7burn:notes\x7dNoteAnonType" ∧
        (Artifact.typeRow {} g t).jsonType = none) ∧
      ∃ t ∈ g.types.entries, t.key = "\x7burn:notes\x7dPageType" ∧
        SerializedAs table ":#Exchange" t (some "Page:#Exchange") := by
  intro table
  have run : ((compile notes [] table {}).toOption.any fun g =>
      g.types.entries.any (fun t => t.key == "\x7burn:notes\x7dNoteAnonType" &&
        (Artifact.typeRow {} g t).jsonType == none) &&
      g.types.entries.any fun t => t.key == "\x7burn:notes\x7dPageType" &&
        (Artifact.typeRow {} g t).jsonType == some "Page:#Exchange") = true := by decide +kernel
  obtain ⟨g, hg, run⟩ := exists_eq_ok_of_any run
  simp only [Bool.and_eq_true, List.any_eq_true, beq_iff_eq] at run
  obtain ⟨⟨note, hnote, noteKey, none⟩, page, hpage, pageKey, some⟩ := run
  obtain ⟨-, -, names⟩ := serializedTypes_of_compile hg {}
  exact ⟨g, hg, ⟨note, hnote, noteKey, none⟩, page, hpage, pageKey, some ▸ names page hpage⟩

end SchemaGraph
