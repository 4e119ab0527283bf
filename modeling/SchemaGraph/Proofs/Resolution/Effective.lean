import SchemaGraph.Proofs.Resolution.Rules

/-! The effective content of a complex type, told from its declarations alone: the content of the type that
it extends comes first, and groups are entered in place, whether nested or referred to. -/
namespace SchemaGraph

/-- The declarations that particles stand for from left to right, with nothing for a wildcard. -/
inductive Reads (s : DeclarationSet) : List Particle → List (Option ElementDecl) → Prop
  | nil : Reads s [] []
  | element {d : ElementDecl} {rest : List Particle} {items : List (Option ElementDecl)}
      (after : Reads s rest items) : Reads s (.element d :: rest) (some d :: items)
  | elementRef {name : QName} {occurs : Occurs} {d : ElementDecl} {rest : List Particle}
      {items : List (Option ElementDecl)} (declared : s.element? name = some d)
      (after : Reads s rest items) : Reads s (.elementRef name occurs :: rest) (some d :: items)
  | group {g : ModelGroup} {rest : List Particle} {inner items : List (Option ElementDecl)}
      (inside : Reads s g.particles inner) (after : Reads s rest items) :
      Reads s (.group g :: rest) (inner ++ items)
  | groupRef {name : QName} {occurs : Occurs} {d : ModelGroupDef} {rest : List Particle}
      {inner items : List (Option ElementDecl)} (declared : s.group? name = some d)
      (inside : Reads s d.group.particles inner) (after : Reads s rest items) :
      Reads s (.groupRef name occurs :: rest) (inner ++ items)
  | any {occurs : Occurs} {rest : List Particle} {items : List (Option ElementDecl)}
      (after : Reads s rest items) : Reads s (.any occurs :: rest) (none :: items)

def ComplexDef.Declares (s : DeclarationSet) (d : ComplexDef) (items : List (Option ElementDecl)) :
    Prop :=
  match d.content with
  | .elements group => Reads s group.particles items
  | .empty | .simple _ => items = []

/-- The content of a complex type.  A choice may restate what it inherits; a restated item stands where it
was inherited and nowhere else. -/
inductive Effective (s : DeclarationSet) : ComplexDef → List (Option ElementDecl) → Prop
  | own {d : ComplexDef} {items : List (Option ElementDecl)}
      (first : ∀ base b x, d.derivation = .extension base → s.type? base = some b → b.complex? ≠ some x)
      (declared : d.Declares s items) : Effective s d items
  | extension {d x : ComplexDef} {base : QName} {b : TypeDef}
      {inherited own kept : List (Option ElementDecl)} (derived : d.derivation = .extension base)
      (found : s.type? base = some b) (complex : b.complex? = some x) (before : Effective s x inherited)
      (declared : d.Declares s own) (order : kept.Sublist own)
      (whole : (∀ group, d.content = .elements group → group.isChoice = false) → kept = own)
      (restated : ∀ item ∈ own, item ∈ inherited ∨ item ∈ kept) :
      Effective s d (inherited ++ kept)

namespace DeclarationSet

variable {s : DeclarationSet}

def ReadBefore (s : DeclarationSet) (p : Particle) (m : Member) : Prop :=
  ∀ rest items, Reads s rest items → Reads s (p :: rest) (m.leaves.map Leaf.decl? ++ items)

theorem reads_of_readBefore {particles : List Particle} {g : GroupView}
    (h : List.Forall₂ s.ReadBefore particles g.members) : Reads s particles (g.leaves.map Leaf.decl?) := by
  rw [g.leaves_eq]
  generalize g.members = members at h
  induction h with
  | nil => exact .nil
  | cons first _ rest =>
    rw [Member.leavesList, List.map_append]
    exact first _ _ rest

theorem viewRule_read (s : DeclarationSet) (context : String) :
    s.ViewRule context (fun _ _ _ => True) s.ReadBefore fun _ => True where
  element _ _ _ after := .element after
  elementRef {_ _ name _} _ := by
    unfold element
    cases declared : s.element? name with
    | none => trivial
    | some decl => exact fun _ _ after => .elementRef declared after
  inside _ _ _ _ := trivial
  group each _ _ after := .group (reads_of_readBefore each) after
  circular _ _ := trivial
  missing _ _ := trivial
  opened _ _ _ _ _ _ := trivial
  groupRef declared each _ _ after := .groupRef declared (reads_of_readBefore each) after
  any _ _ _ after := .any after

theorem OwnContent.declares {d : ComplexDef} {own : Option GroupView} (h : OwnContent s.ReadBefore d own) :
    d.Declares s (own.elim [] fun g => g.leaves.map Leaf.decl?) := by
  unfold ComplexDef.Declares
  cases h with
  | plain other =>
    split
    · next group content => exact absurd content (other group)
    · rfl
    · rfl
  | group content each =>
    rw [content]
    exact reads_of_readBefore each

theorem OwnContent.exists_group {d : ComplexDef} {g : GroupView} (h : OwnContent s.ReadBefore d (some g)) :
    ∃ group, d.content = .elements group ∧ g.isChoice = group.isChoice := by
  cases h with
  | group content _ => exact ⟨_, content, rfl⟩

theorem effective_first {d : ComplexDef} {own : Option GroupView} (h : OwnContent s.ReadBefore d own)
    (first : ∀ base b x, d.derivation = .extension base → s.type? base = some b → b.complex? ≠ some x) :
    Effective s d ((Layout.empty.withOwn own).leaves.map Leaf.decl?) := by
  have declared := h.declares
  cases own with
  | none => exact .own first declared
  | some g =>
    have alone : (Layout.empty.withOwn (some g)).leaves = g.leaves := Layout.leaves_ofGroup g
    rw [alone]
    exact .own first declared

theorem effective_extension {d x : ComplexDef} {own : Option GroupView} {base : QName} {b : TypeDef} {below : Layout}
    (h : OwnContent s.ReadBefore d own) (derived : d.derivation = .extension base) (found : s.type? base = some b)
    (complex : b.complex? = some x) (before : Effective s x (below.leaves.map Leaf.decl?)) :
    Effective s d ((below.withOwn own).leaves.map Leaf.decl?) := by
  have declared := h.declares
  cases own with
  | none =>
    rw [Layout.withOwn, ← List.append_nil (List.map _ _)]
    exact .extension derived found complex before declared (List.Sublist.refl _) (fun _ => rfl)
      fun _ h => absurd h List.not_mem_nil
  | some g =>
    obtain ⟨kept, leaves, order, whole, restated⟩ := below.leaves_withOwn g
    rw [leaves, List.map_append]
    refine .extension derived found complex before declared (order.map _) (fun plain => ?_) ?_
    · obtain ⟨group, content, same⟩ := h.exists_group
      rw [whole (same.trans (plain group content))]
      rfl
    · intro item hitem
      obtain ⟨leaf, hleaf, rfl⟩ := List.mem_map.1 hitem
      exact (restated leaf hleaf).imp id (List.mem_map_of_mem ·)

theorem layoutRule_effective (s : DeclarationSet) (context : String) :
    s.LayoutRule context (fun _ _ _ => True) (OwnContent s.ReadBefore)
      (fun x l => Effective s x (l.leaves.map Leaf.decl?)) fun _ => True where
  ownContent _ := (s.viewRule_read context).ownContent fun _ _ _ _ _ => trivial
  next _ _ := Settles.trivial.mono (fun _ _ _ _ => trivial) fun _ => id
  first := effective_first
  extension := effective_extension

theorem layout_effective (s : DeclarationSet) (context : String) (path : List QName) (site : Site)
    (d : ComplexDef) :
    Settles (s.layout context path site d) (fun l => Effective s d (l.leaves.map Leaf.decl?))
      fun _ => True :=
  (s.layoutRule_effective context).layout trivial

end DeclarationSet

end SchemaGraph
