import Mathlib.Data.List.Flatten
import Mathlib.Data.List.Forall2
import SchemaGraph.Resolution.Resolver

/-! Content as a list.  Groups only pass their choice name on, so that walking a content is going through
its elements and wildcards from left to right. -/
namespace SchemaGraph

theorem Member.leavesList_eq_flatMap (members : List Member) :
    Member.leavesList members = members.flatMap Member.leaves := by
  induction members with
  | nil => rfl
  | cons m rest ih => rw [Member.leavesList, ih, List.flatMap_cons]

theorem Member.leavesList_append (members members' : List Member) :
    Member.leavesList (members ++ members') = Member.leavesList members ++ Member.leavesList members' := by
  simp only [Member.leavesList_eq_flatMap, List.flatMap_append]

theorem GroupView.leaves_eq : ∀ g : GroupView, g.leaves = Member.leavesList g.members
  | ⟨_, _, _, _⟩ => by rw [GroupView.leaves]

def Leaf.decl? : Leaf → Option ElementDecl
  | .element decl _ _ => some decl
  | .wildcard => none

def Leaf.isOnce (decl : ElementDecl) : Leaf → Bool
  | .element decl' _ occurs => decl' == decl && !occurs.isRepeated
  | .wildcard => false

theorem Leaf.eq_element_of_isOnce {decl : ElementDecl} {leaf : Leaf} (h : leaf.isOnce decl = true) :
    ∃ site occurs, leaf = .element decl site occurs ∧ occurs.isRepeated = false := by
  cases leaf with
  | element decl' site occurs =>
    rw [isOnce, Bool.and_eq_true, beq_iff_eq, Bool.not_eq_true'] at h
    obtain ⟨rfl, once⟩ := h
    exact ⟨site, occurs, rfl, once⟩
  | wildcard => cases h

mutual

theorem Member.leaves_of_same : ∀ m m' : Member, m.same m' = true →
    m.leaves.map Leaf.decl? = m'.leaves.map Leaf.decl?
  | .element decl _ _, .element decl' _ _, h => by
    simp only [Member.same, Bool.and_eq_true, beq_iff_eq] at h
    simp [Member.leaves, Leaf.decl?, h.1]
  | .group g, .group g', h => by
    rw [Member.same] at h
    rw [Member.leaves, Member.leaves]
    exact GroupView.leaves_of_same g g' h
  | .any, .any, _ => rfl

theorem GroupView.leaves_of_same : ∀ g g' : GroupView, g.same g' = true →
    g.leaves.map Leaf.decl? = g'.leaves.map Leaf.decl?
  | ⟨_, _, _, members⟩, ⟨_, _, _, members'⟩, h => by
    simp only [GroupView.same, Bool.and_eq_true] at h
    rw [GroupView.leaves, GroupView.leaves]
    exact Member.leavesList_of_same members members' h.2

theorem Member.leavesList_of_same : ∀ l l' : List Member, Member.sameList l l' = true →
    (Member.leavesList l).map Leaf.decl? = (Member.leavesList l').map Leaf.decl?
  | [], [], _ => rfl
  | m :: rest, m' :: rest', h => by
    simp only [Member.sameList, Bool.and_eq_true] at h
    simp only [Member.leavesList, List.map_append]
    rw [Member.leaves_of_same m m' h.1, Member.leavesList_of_same rest rest' h.2]

end

section Inherited

variable {α : Type} [BEq α]

theorem mem_erase_or_beq {a b : α} {l : List α} (h : a ∈ l) : a ∈ l.erase b ∨ (a == b) = true := by
  induction l with
  | nil => cases h
  | cons x l ih =>
    rw [List.erase_cons]
    rcases List.mem_cons.1 h with rfl | h
    · by_cases hb : (a == b) = true
      · exact .inr hb
      · simp [hb]
    · split
      · exact .inl h
      · exact (ih h).imp (List.mem_cons_of_mem _) id

theorem subtractInherited_sublist (merged inherited : List α) :
    (subtractInherited merged inherited).Sublist merged := by
  unfold subtractInherited
  induction inherited generalizing merged with
  | nil => exact List.Sublist.refl _
  | cons a rest ih => exact (ih _).trans List.erase_sublist

theorem mem_subtractInherited_or {a : α} {merged inherited : List α} (h : a ∈ merged) :
    a ∈ subtractInherited merged inherited ∨ ∃ b ∈ inherited, (a == b) = true := by
  unfold subtractInherited
  induction inherited generalizing merged with
  | nil => exact .inl h
  | cons b rest ih =>
    rcases mem_erase_or_beq (b := b) h with h | h
    · refine (ih h).imp id ?_
      rintro ⟨b', hb', h⟩
      exact ⟨b', List.mem_cons_of_mem _ hb', h⟩
    · exact .inr ⟨b, List.mem_cons_self .., h⟩

end Inherited

namespace Layout

theorem leaves_ofGroup (own : GroupView) : (ofGroup own).leaves = own.leaves := by
  obtain ⟨compositor, occurs, anonymous, members⟩ := own
  unfold ofGroup leaves
  dsimp only
  rw [GroupView.leaves]
  split
  · next inner =>
    obtain ⟨_, _, anonymous, members⟩ := inner
    cases anonymous <;> simp [Member.leavesList, Member.leaves, GroupView.leaves]
  · rfl

/-- The members that a type's own content adds to inherited ones.  Only a choice leaves anything out. -/
def added (base : Layout) (own : GroupView) : List Member :=
  if own.isChoice then subtractInherited own.members base.members else own.members

theorem added_of_isEmpty {base : Layout} (h : base.members = []) (own : GroupView) :
    base.added own = own.members := by
  rw [added, h]
  exact ite_self _

theorem leaves_extend (base : Layout) (own : GroupView) :
    (base.extend own).leaves = base.leaves ++ Member.leavesList (base.added own) := by
  have inherited : Member.leavesList
      (if base.isChoice then [Member.group ⟨.choice, .once, true, base.members⟩] else base.members) =
      base.leaves := by
    split
    · simp [Member.leavesList, Member.leaves, GroupView.leaves, leaves]
    · rfl
  unfold extend added
  dsimp only
  by_cases choice : own.isChoice = true
  · rw [if_pos choice, if_pos choice]
    split
    · next none => rw [remainder_eq_fullyInherited_iff.1 none, Member.leavesList, List.append_nil]
    · next rest left =>
      rw [(remainder_eq_remaining_iff.1 left).2, leaves, Member.leavesList_append, inherited]
      simp [Member.leavesList, Member.leaves, GroupView.leaves]
  · rw [if_neg choice, if_neg choice, leaves, Member.leavesList_append, inherited]

theorem leaves_withOwn_some (base : Layout) (own : GroupView) :
    (base.withOwn (some own)).leaves = base.leaves ++ Member.leavesList (base.added own) := by
  rw [withOwn]
  split
  · next none =>
    have none := List.isEmpty_iff.1 none
    rw [leaves_ofGroup, added_of_isEmpty none, leaves, none, GroupView.leaves_eq, Member.leavesList,
      List.nil_append]
  · exact leaves_extend base own

/-- Of a type's own content only a choice leaves anything out, and what it leaves out is inherited. -/
theorem leaves_withOwn (base : Layout) (own : GroupView) :
    ∃ kept, (base.withOwn (some own)).leaves = base.leaves ++ kept ∧ kept.Sublist own.leaves ∧
      (own.isChoice = false → kept = own.leaves) ∧
      ∀ leaf ∈ own.leaves, leaf.decl? ∈ base.leaves.map Leaf.decl? ∨ leaf ∈ kept := by
  have entered := own.leaves_eq
  refine ⟨_, leaves_withOwn_some base own, ?_, fun plain => ?_, fun leaf hleaf => ?_⟩
  · have sub : (base.added own).Sublist own.members := by
      unfold added
      split
      · exact subtractInherited_sublist own.members base.members
      · exact List.Sublist.refl _
    rw [entered, Member.leavesList_eq_flatMap, Member.leavesList_eq_flatMap]
    exact sub.flatMap _
  · rw [added, plain, entered]
    rfl
  · rw [entered, Member.leavesList_eq_flatMap] at hleaf
    obtain ⟨m, hm, hleaf⟩ := List.mem_flatMap.1 hleaf
    have found : m ∈ base.added own ∨ ∃ m' ∈ base.members, (m == m') = true := by
      unfold added
      split
      · exact mem_subtractInherited_or hm
      · exact .inl hm
    rcases found with hm | ⟨m', hm', same⟩
    · right
      rw [Member.leavesList_eq_flatMap]
      exact List.mem_flatMap.2 ⟨m, hm, hleaf⟩
    · left
      rw [leaves, Member.leavesList_eq_flatMap, List.map_flatMap]
      refine List.mem_flatMap.2 ⟨m', hm', ?_⟩
      rw [← Member.leaves_of_same m m' same]
      exact List.mem_map_of_mem hleaf

end Layout

section Elements

def EachElement (Q : ElementDecl → Site → Prop) (leaves : List Leaf) : Prop :=
  ∀ decl site occurs, Leaf.element decl site occurs ∈ leaves → Q decl site

variable {Q : ElementDecl → Site → Prop}

theorem eachElement_element {decl : ElementDecl} {site : Site} {occurs : Occurs} (h : Q decl site) :
    EachElement Q (Member.element decl site occurs).leaves := by
  intro _ _ _ hd
  rw [Member.leaves] at hd
  cases List.mem_singleton.1 hd
  exact h

theorem eachElement_any : EachElement Q Member.any.leaves := by
  intro _ _ _ hd
  rw [Member.leaves] at hd
  cases List.mem_singleton.1 hd

theorem eachElement_group {g : GroupView} {particles : List Particle}
    (h : List.Forall₂ (fun _ m => EachElement Q m.leaves) particles g.members) : EachElement Q g.leaves := by
  rw [g.leaves_eq]
  generalize g.members = members at h
  induction h with
  | nil => exact fun _ _ _ hd => absurd hd List.not_mem_nil
  | cons first _ rest =>
    intro decl site occurs hd
    rw [Member.leavesList] at hd
    exact (List.mem_append.1 hd).elim (first decl site occurs) (rest decl site occurs)

theorem EachElement.withOwn {base : Layout} {own : Option GroupView} (h : EachElement Q base.leaves)
    (hown : ∀ g, own = some g → EachElement Q g.leaves) : EachElement Q (base.withOwn own).leaves := by
  cases own with
  | none => exact h
  | some g =>
    obtain ⟨kept, leaves, sub, -⟩ := base.leaves_withOwn g
    intro decl site occurs hd
    rw [leaves] at hd
    exact (List.mem_append.1 hd).elim (h decl site occurs) fun hd => hown g rfl decl site occurs (sub.subset hd)

end Elements

def addLeaf (c : ResolveContext) (resolve : ResolveType) (choiceName : Option String)
    (owner : String) (found : Found) : Leaf → Resolve Found
  | .element decl site occurs => addContentElement c resolve found decl site occurs choiceName owner
  | .wildcard => do
    skipWildcard owner
    return found

variable (c : ResolveContext) (resolve : ResolveType) (choiceName : Option String) (owner : String)

mutual

theorem addGroup_eq_foldlM (found : Found) : ∀ g : GroupView,
    addGroup c resolve choiceName owner found g =
      g.leaves.foldlM (addLeaf c resolve choiceName owner) found
  | ⟨_, _, _, members⟩ => by
    rw [addGroup, GroupView.leaves]
    exact addMembers_eq_foldlM found members

theorem addMembers_eq_foldlM (found : Found) : ∀ members : List Member,
    addMembers c resolve choiceName owner found members =
      (Member.leavesList members).foldlM (addLeaf c resolve choiceName owner) found
  | [] => rfl
  | .element decl site occurs :: rest => by
    rw [addMembers, Member.leavesList, Member.leaves, List.singleton_append, List.foldlM_cons]
    exact bind_congr fun found => addMembers_eq_foldlM found rest
  | .group g :: rest => by
    rw [addMembers, Member.leavesList, Member.leaves, List.foldlM_append, addGroup_eq_foldlM]
    exact bind_congr fun found => addMembers_eq_foldlM found rest
  | .any :: rest => by
    rw [addMembers, Member.leavesList, Member.leaves, List.singleton_append, List.foldlM_cons,
      addLeaf, bind_assoc]
    refine bind_congr fun _ => ?_
    rw [pure_bind]
    exact addMembers_eq_foldlM found rest

end

end SchemaGraph
