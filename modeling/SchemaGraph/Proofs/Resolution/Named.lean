import SchemaGraph.Proofs.Resolution.Adding
import SchemaGraph.Proofs.Resolution.Plan

/-! Filling in a content, leaf by leaf.  Each element is added under the name of the choice around it at the top
level of the content. -/
namespace SchemaGraph

open Stateful

theorem yields_entryAt {id : TypeId} {type : TypeEntry} {s t : ResolveState} :
    Yields (Resolve.entryAt id) s type t ↔ s.types.get? id = some type ∧ s = t := by
  unfold Resolve.entryAt
  rw [yields_bind]
  constructor
  · rintro ⟨u, v, hget, h⟩
    obtain ⟨rfl, rfl⟩ := yields_get.1 hget
    split at h
    · next found =>
      obtain ⟨rfl, rfl⟩ := yields_pure.1 h
      exact ⟨found, rfl⟩
    · exact absurd h not_yields_throw
  · rintro ⟨found, rfl⟩
    refine ⟨s, s, yields_get.2 ⟨rfl, rfl⟩, ?_⟩
    rw [found]
    exact yields_pure.2 ⟨rfl, rfl⟩

section Walk

variable (c : ResolveContext) (resolve : ResolveType) (owner : String)

/-- What becomes of one item of a content. -/
abbrev LeafAdded (leaf : Option String × Leaf) (p q : Found × ResolveState) : Prop :=
  Yields (addLeaf c resolve leaf.1 owner p.1 leaf.2) p.2 q.1 q.2

variable {c resolve owner} {s t : ResolveState}

variable (c resolve owner) in
/-- What follows an element that was added under `key`, if it was: the members of its substitution group, or else
the types below if its type is abstract. -/
inductive RestAdded (decl : ElementDecl) (elements : ElementMap) (key : Option String) (s : ResolveState) :
    ElementMap → ResolveState → Prop
  | members {elements' : ElementMap} {t : ResolveState} (joined : c.set.substitutes decl.name ≠ [])
      (added : Yields (addSubstitutes c resolve elements decl.name (c.set.substitutes decl.name) owner) s
        elements' t) :
      RestAdded decl elements key s elements' t
  | nothing (alone : c.set.substitutes decl.name = [])
      (concrete : ∀ e, key.bind elements.get? = some e →
        ∃ type, s.types.get? e.typeId = some type ∧ (type.isAbstract = true → type.isSimple = true)) :
      RestAdded decl elements key s elements s
  | subtypes {e : ElementDescriptor} {type : TypeEntry} {elements' : ElementMap} {t : ResolveState}
      (alone : c.set.substitutes decl.name = []) (own : key.bind elements.get? = some e)
      (entry : s.types.get? e.typeId = some type) (isAbstract : type.isAbstract = true)
      (complex : type.isSimple = false)
      (added : Yields (addConcrete c resolve elements decl e type.name owner) s elements' t) :
      RestAdded decl elements key s elements' t

theorem exists_restAdded {found found' : Found} {decl : ElementDecl} {site : Site} {occurs : Occurs}
    {name : Option String}
    (h : Yields (addContentElement c resolve found decl site occurs name owner) s found' t) :
    ∃ elements key u, Yields (addElement c resolve found.elements decl site occurs owner) s (elements, key) u ∧
      RestAdded c resolve owner decl (nameEntry elements key name) key u found'.elements t := by
  unfold addContentElement at h
  obtain ⟨⟨elements, key⟩, u, added, h⟩ := yields_bind.1 h
  refine ⟨elements, key, u, added, ?_⟩
  dsimp only at h
  generalize nameEntry elements key name = elements at h
  split at h
  · next joined =>
    obtain ⟨placed, _, members, h⟩ := yields_bind.1 h
    obtain ⟨rfl, rfl⟩ := yields_pure.1 h
    exact .members (by simpa using joined) members
  · next alone =>
    have alone : c.set.substitutes decl.name = [] := by simpa using alone
    split at h
    · next none =>
      obtain ⟨rfl, rfl⟩ := yields_pure.1 h
      exact .nothing alone fun e own => by cases none.symm.trans own
    · next e own =>
      obtain ⟨type, _, read, h⟩ := yields_bind.1 h
      obtain ⟨entry, rfl⟩ := yields_entryAt.1 read
      split at h
      · next expands =>
        rw [Bool.and_eq_true, Bool.not_eq_true'] at expands
        obtain ⟨placed, _, subtypes, h⟩ := yields_bind.1 h
        obtain ⟨rfl, rfl⟩ := yields_pure.1 h
        exact .subtypes alone own entry expands.1 expands.2 subtypes
      · next plain =>
        obtain ⟨rfl, rfl⟩ := yields_pure.1 h
        refine .nothing alone fun e' own' => ?_
        obtain rfl := Option.some.inj (own.symm.trans own')
        exact ⟨type, entry, fun isAbstract => by simpa [isAbstract] using plain⟩

theorem added_of_addContentElement {found found' : Found} {decl : ElementDecl} {site : Site} {occurs : Occurs}
    {name : Option String}
    (h : Yields (addContentElement c resolve found decl site occurs name owner) s found' t) :
    ∃ elements key u, ElementAdded c resolve owner decl site occurs found.elements s elements key u ∧
      RestAdded c resolve owner decl (nameEntry elements key name) key u found'.elements t := by
  obtain ⟨elements, key, u, added, rest⟩ := exists_restAdded h
  exact ⟨elements, key, u, elementAdded_of_addElement added, rest⟩

theorem yields_addLeaves_iff {found found' : Found} {leaves : List (Option String × Leaf)} :
    Yields (addLeaves c resolve owner found leaves) s found' t ↔
      Through (LeafAdded c resolve owner) leaves (found, s) (found', t) := by
  refine ⟨Through.of_foldlM, fun h => ?_⟩
  induction leaves generalizing found s with
  | nil =>
    cases Through.nil_iff.1 h
    exact yields_pure.2 ⟨rfl, rfl⟩
  | cons leaf rest ih =>
    obtain ⟨mid, first, later⟩ := Through.cons_iff.1 h
    exact yields_bind.2 ⟨mid.1, mid.2, first, ih later⟩

/-- Filling in a content goes through its elements and wildcards from left to right, and then puts what was found
into the entry. -/
theorem leavesAdded_of_fillComplex {id : TypeId} {x : ComplexDef} {site : Site} {u : Unit}
    (h : Yields (fillComplex c resolve id x site) s u t) :
    ∃ before layout found v, s.types.get? id = some before ∧ c.set.layout before.key [] site x = .ok layout ∧
      Through (LeafAdded c resolve before.key) (layout.namedLeaves c before.key) (⟨∅, none⟩, s) (found, v) ∧
      Yields (Resolve.modifyType id (TypeEntry.withContent layout found)) v u t := by
  rw [fillComplex_eq] at h
  obtain ⟨before, _, read, h⟩ := yields_bind.1 h
  obtain ⟨hbefore, rfl⟩ := yields_entryAt.1 read
  obtain ⟨layout, hlayout, h⟩ := yields_ofExcept_bind.1 h
  obtain ⟨found, v, run, h⟩ := yields_bind.1 h
  obtain ⟨fault, added⟩ := yields_run_iff.1 run
  rw [Layout.leaves_plan_of_fault fault, yields_addLeaves_iff] at added
  exact ⟨before, layout, found, v, hbefore, hlayout, added, h⟩

end Walk

end SchemaGraph
