import SchemaGraph.Proofs.Graph.Blank
import SchemaGraph.Proofs.Graph.Closed
import SchemaGraph.Proofs.Override.Frame

/-! The attributes that carry the values of simple types, from the resolver to the finished graph.  They are assigned
once, when the resolver is done; a type that only a correction makes simple has none unless the table names one. -/
namespace SchemaGraph

open Stateful

namespace TypeEntry

@[simp] theorem isSimple_finish (t : TypeEntry) : t.finish.isSimple = t.isSimple := by
  obtain ⟨text, finished⟩ := t.exists_finish_eq
  rw [finished]
  rfl

@[simp] theorem attributes_finish (t : TypeEntry) : t.finish.attributes = t.attributes := by
  obtain ⟨text, finished⟩ := t.exists_finish_eq
  rw [finished]

theorem textAttribute_finish {t : TypeEntry} (blank : t.textAttribute = none)
    (nonempty : t.attributes.isEmpty = false) :
    t.finish.textAttribute = if t.isSimple then some "Value" else none := by
  unfold finish
  cases simple : t.isSimple <;> simp [blank, nonempty]

end TypeEntry

section Stages

variable {c : ResolveContext} {g g' : TypeGraph}

theorem textAttribute_of_graph (h : c.graph = .ok g) {t : TypeEntry} (ht : t ∈ g.types.entries)
    (nonempty : t.attributes.isEmpty = false) :
    t.textAttribute = if t.isSimple then some "Value" else none := by
  have fixed (t t' : TypeEntry) (same : t'.start = t.start) : t'.textAttribute = t.textAttribute :=
    congrArg (·.2.2.1) same
  obtain ⟨r, lacks, finished⟩ := exists_lacks_of_graph fixed (fun _ _ => rfl) h
  rw [finished] at ht
  obtain ⟨t₀, ht₀, rfl⟩ := List.mem_map.1 ht
  rw [TypeEntry.attributes_finish] at nonempty
  rw [TypeEntry.isSimple_finish]
  exact TypeEntry.textAttribute_finish (lacks t₀ ht₀) nonempty

theorem mem_of_aggregateHeaders (h : Yields TypeGraph.aggregateHeaders g () g') {t : TypeEntry}
    (ht : t ∈ g'.types.entries) (nonempty : t.attributes.isEmpty = false) : t ∈ g.types.entries := by
  have kept : Keeps (fun g' => ∀ t ∈ g'.types.entries, t ∈ g.types.entries ∨ t.attributes.isEmpty = true)
      TypeGraph.aggregateHeaders := by
    refine aggregateHeaders_keeps (fun g' name elements id r hg entered t ht => ?_) fun _ _ _ _ hg => hg
    rw [(Registry.of_reserve?_eq_some entered).2.2] at ht
    rcases List.mem_append.1 ht with ht | ht
    · exact hg t ht
    · rw [List.mem_singleton.1 ht]
      exact .inr rfl
  rcases (kept g fun _ => .inl).answer h t ht with old | none
  · exact old
  · cases nonempty.symm.trans none

end Stages

/-- In a compiled graph a simple type with attributes keeps its value in the attribute that the table names for it, or
else in one that is named `Value`.  A type that the resolver left complex, so that it is simple by a correction, has
only what the table names. -/
theorem textAttributes_of_compile {set : DeclarationSet} {operations : List Operation} {table : OverrideTable}
    {options : ResolveOptions} {g : TypeGraph} (h : compile set operations table options = .ok g) :
    ∃ resolved, (⟨set, .ofSet set, table, options⟩ : ResolveContext).graph = .ok resolved ∧
      ∀ t ∈ g.types.entries, t.isSimple = true → t.attributes.isEmpty = false →
        ∃ t₀ ∈ resolved.types.entries, t₀.key = t.key ∧ t₀.attributes = t.attributes ∧
          (t₀.isSimple = true → t.textAttribute = some ((table.textAttributes.get? t.key).getD "Value")) ∧
          (t₀.isSimple = false → (table.simpleKinds.get? t.key).isSome = true ∧
            t.textAttribute = table.textAttributes.get? t.key) := by
  unfold compile at h
  simp only [bind_eq_ok_iff, mapError_eq_ok_iff] at h
  obtain ⟨resolved, hresolved, withHeaders, hheaders, corrected, hcorrected, -, -, last⟩ := h
  cases last
  refine ⟨resolved, hresolved, ?_⟩
  obtain ⟨_, _, _, -, rfl⟩ := yields_correct_iff.1 (result_eq_ok_iff.1 hcorrected)
  intro t ht simple nonempty
  obtain ⟨t₀, ht₀, rfl⟩ := List.mem_map.1 ht
  have nonempty₀ : t₀.attributes.isEmpty = false := nonempty
  have before : t₀ ∈ resolved.types.entries := mem_of_aggregateHeaders (result_eq_ok_iff.1 hheaders) ht₀ nonempty₀
  have text : t₀.textAttribute = if t₀.isSimple then some "Value" else none :=
    textAttribute_of_graph hresolved before nonempty₀
  have text' : (table.corrected withHeaders.types.lookup t₀).textAttribute =
      (table.textAttributes.get? t₀.key).or t₀.textAttribute := rfl
  have kind : (table.corrected withHeaders.types.lookup t₀).simpleKind =
      ((table.simpleKinds.get? t₀.key).map (·.kind)).or t₀.simpleKind := rfl
  refine ⟨t₀, before, (table.key_corrected _ t₀).symm, rfl, fun simple₀ => ?_, fun complex₀ => ?_⟩
  · rw [text', text, if_pos simple₀, table.key_corrected]
    cases table.textAttributes.get? t₀.key <;> rfl
  · rw [text', text, if_neg (Bool.eq_false_iff.1 complex₀), Option.or_none, table.key_corrected]
    have none₀ : t₀.simpleKind = none := Option.not_isSome_iff_eq_none.1 (Bool.eq_false_iff.1 complex₀)
    rw [TypeEntry.isSimple, kind, none₀, Option.or_none, Option.isSome_map] at simple
    exact ⟨simple, rfl⟩

def badges : DeclarationSet :=
  let complex := fun localName derivation content name => (⟨some ⟨some "urn:badge", localName⟩, false,
    .complex ⟨derivation, content, [.declared ⟨name, .named (.xsd "string")⟩], false⟩⟩ : TypeDef)
  (exec (DeclarationSet.add
    { targetNamespace := some "urn:badge"
      types := [complex "Badge" .none .empty "number",
        complex "Price" (.extension (.xsd "decimal")) (.simple []) "currency"] }) .empty).2

def badgeTable : OverrideTable := { simpleKinds := .ofList [("\x7burn:badge\x7dBadge", .string)] }

theorem price_textAttribute :
    ∃ g, compile badges [] badgeTable {} = .ok g ∧
      ∃ t ∈ g.types.entries, t.key = "\x7burn:badge\x7dPrice" ∧ t.textAttribute = some "Value" := by
  have run : ((compile badges [] badgeTable {}).toOption.any fun g => g.types.entries.any fun t =>
      t.key == "\x7burn:badge\x7dPrice" && t.isSimple && !t.attributes.isEmpty) = true := by decide +kernel
  obtain ⟨g, hg, run⟩ := exists_eq_ok_of_any run
  simp only [Bool.and_eq_true, List.any_eq_true, beq_iff_eq, Bool.not_eq_true'] at run
  obtain ⟨t, ht, ⟨key, simple⟩, nonempty⟩ := run
  obtain ⟨resolved, -, texts⟩ := textAttributes_of_compile hg
  obtain ⟨t₀, -, -, -, simply, corrected⟩ := texts t ht simple nonempty
  refine ⟨g, hg, t, ht, key, ?_⟩
  cases own : t₀.isSimple with
  | true => exact (simply own).trans (by rw [key]; decide)
  | false =>
    have missing : (badgeTable.simpleKinds.get? t.key).isSome = false := by
      rw [key]
      decide
    cases missing.symm.trans (corrected own).1

/-- What a correction makes simple may have attributes and no place for its value. -/
theorem badge_without_textAttribute :
    ∃ g, compile badges [] badgeTable {} = .ok g ∧ ∃ t ∈ g.types.entries, t.isSimple = true ∧
      t.attributes.isEmpty = false ∧ t.textAttribute = none := by
  have run : ((compile badges [] badgeTable {}).toOption.any fun g => g.types.entries.any fun t =>
      t.isSimple && !t.attributes.isEmpty && t.textAttribute == none) = true := by decide +kernel
  obtain ⟨g, hg, run⟩ := exists_eq_ok_of_any run
  simp only [Bool.and_eq_true, List.any_eq_true, beq_iff_eq, Bool.not_eq_true'] at run
  obtain ⟨t, ht, ⟨simple, nonempty⟩, none⟩ := run
  exact ⟨g, hg, t, ht, simple, nonempty, none⟩

end SchemaGraph
