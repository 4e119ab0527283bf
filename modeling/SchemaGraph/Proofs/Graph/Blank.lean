import SchemaGraph.Compile
import SchemaGraph.Proofs.Resolution.Handles
import SchemaGraph.Proofs.Resolution.Steps

/-! Fields that no step of resolution fills.  They are as empty at its end as in a new entry. -/
namespace SchemaGraph

open Stateful

variable {α : Type} {field : TypeEntry → Option α}

def Registry.Lacks (r : Registry) (field : TypeEntry → Option α) : Prop := ∀ t ∈ r.entries, field t = none

theorem Registry.Lacks.reserve {r r' : Registry} {t : TypeEntry} {id : TypeId} (h : r.Lacks field)
    (ht : field t = none) (hr : r.reserve? t = some (id, r')) : r'.Lacks field := by
  intro t' ht'
  rw [(Registry.of_reserve?_eq_some hr).2.2] at ht'
  rcases List.mem_append.1 ht' with ht' | ht'
  · exact h t' ht'
  · rw [List.mem_singleton.1 ht']
    exact ht

theorem stableEntering_lacks (fixed : ∀ t t' : TypeEntry, t'.start = t.start → field t' = field t)
    (blank : ∀ name isAbstract, field { name, isAbstract } = none) :
    StableEntering (fun s => s.types.Lacks field) fun _ => True where
  diagnose _ _ h := h
  skip _ _ h := h
  fill := by
    intro s id f keeps _ fills h t ht
    rcases Registry.of_mem_entries_modify keeps ht with ht | ⟨t₀, ht₀, rfl⟩
    · exact h t ht
    · rw [fixed _ _ (fills t₀).start]
      exact h t₀ ht₀
  reserve _ name isAbstract _ _ h hr := ⟨True.intro, h.reserve (blank name isAbstract) hr⟩
  recordAnonymous _ _ h := h

theorem exists_lacks_of_graph (fixed : ∀ t t' : TypeEntry, t'.start = t.start → field t' = field t)
    (blank : ∀ name isAbstract, field { name, isAbstract } = none) {c : ResolveContext} {g : TypeGraph}
    (h : c.graph = .ok g) : ∃ r : Registry, r.Lacks field ∧ g.types = r.finish := by
  have stable := stableEntering_lacks fixed blank
  have resolved : Keeps (fun s => s.types.Lacks field) (c.resolvePlaceholders >>= fun _ => c.resolveAll) :=
    .bind (resolvePlaceholders_keeps stable) fun _ => resolveAll_keeps stable fun _ _ h => h
  have empty : ResolveState.empty.types.Lacks field := fun _ ht => absurd ht List.not_mem_nil
  unfold ResolveContext.graph at h
  obtain ⟨s, hs, rfl⟩ := map_eq_ok_iff.1 h
  exact ⟨s.types, (resolved .empty empty).answer (result_eq_ok_iff.1 hs), rfl⟩

end SchemaGraph
