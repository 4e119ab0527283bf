import Mathlib.Logic.Relation
import SchemaGraph.Proofs.Linking.Built
import SchemaGraph.Proofs.Linking.Mentions

/-! Derivations and group references that come back to themselves.  The check reports a circle exactly if there
is one: `Derives` and `Refers` are its edges, and a name that passes has no endless way ahead of it. -/
namespace SchemaGraph

open Relation

inductive TypeDef.DerivesFrom : TypeDef → QName → Prop
  | complex {d : TypeDef} {c : ComplexDef} {base : QName} :
      d.body = .complex c → c.derivation.base? = some base → d.DerivesFrom base
  | simple {d : TypeDef} {base : QName} {literals : List String} :
      d.body = .restriction (.named base) literals → d.DerivesFrom base

inductive ModelGroup.RefersTo : ModelGroup → QName → Prop
  | direct {g : ModelGroup} {name : QName} {occurs : Occurs} :
      Particle.groupRef name occurs ∈ g.particles → g.RefersTo name
  | nested {g g' : ModelGroup} {name : QName} :
      Particle.group g' ∈ g.particles → g'.RefersTo name → g.RefersTo name

section Edges

variable {name : QName}

theorem TypeDef.derivesFrom_iff {d : TypeDef} {base : QName} :
    d.DerivesFrom base ↔ DeclarationSet.derivationBase? d = some base := by
  unfold DeclarationSet.derivationBase?
  constructor
  · rintro (⟨body, derived⟩ | body)
    · rw [body]
      exact derived
    · rw [body]
  · intro h
    split at h
    · next body => exact .complex body h
    · next body =>
      cases h
      exact .simple body
    · cases h

theorem not_derivesFrom_of_builtinType? {d : TypeDef} {base : QName} (h : builtinType? name = some d) :
    ¬ d.DerivesFrom base := by
  rw [TypeDef.derivesFrom_iff]
  unfold builtinType? at h
  split at h
  · split at h
    · cases h
      exact nofun
    · obtain ⟨p, -, rfl⟩ := Option.map_eq_some_iff.1 h
      exact nofun
  · cases h

theorem mem_particleRefs_iff {particles : List Particle} :
    name ∈ DeclarationSet.particleRefs particles ↔ ∃ p ∈ particles, name ∈ DeclarationSet.particleRef p := by
  induction particles with
  | nil => simp [DeclarationSet.particleRefs]
  | cons p rest ih => simp [DeclarationSet.particleRefs, ih]

theorem mem_groupRefs {g : ModelGroup} {p : Particle} (listed : p ∈ g.particles)
    (h : name ∈ DeclarationSet.particleRef p) : name ∈ DeclarationSet.groupRefs g := by
  obtain ⟨_, _, particles⟩ := g
  rw [DeclarationSet.groupRefs, mem_particleRefs_iff]
  exact ⟨p, listed, h⟩

theorem ModelGroup.refersTo_of_mem : ∀ {g : ModelGroup}, name ∈ DeclarationSet.groupRefs g → g.RefersTo name
  | ⟨compositor, occurs, particles⟩, h => by
    rw [DeclarationSet.groupRefs, mem_particleRefs_iff] at h
    obtain ⟨p, hp, h⟩ := h
    cases p with
    | groupRef _ _ =>
      obtain rfl := List.mem_singleton.1 h
      exact .direct hp
    | group g =>
      have smaller : sizeOf g < sizeOf particles := by
        have := List.sizeOf_lt_of_mem hp
        simp only [Particle.group.sizeOf_spec] at this
        omega
      exact .nested hp (refersTo_of_mem h)
    | element _ | elementRef _ _ | any _ => cases h
termination_by g => sizeOf g

theorem ModelGroup.refersTo_iff {g : ModelGroup} :
    g.RefersTo name ↔ name ∈ DeclarationSet.groupRefs g := by
  refine ⟨fun h => ?_, refersTo_of_mem⟩
  induction h with
  | direct hp => exact mem_groupRefs hp (List.mem_singleton.2 rfl)
  | nested hp _ ih => exact mem_groupRefs hp ih

end Edges

namespace DeclarationSet

variable {s : DeclarationSet}

/-- The type `name` is derived from the type `base`. -/
def Derives (s : DeclarationSet) (name base : QName) : Prop :=
  ∃ d, s.type? name = some d ∧ d.DerivesFrom base

def Refers (s : DeclarationSet) (name ref : QName) : Prop :=
  ∃ d, s.group? name = some d ∧ d.group.RefersTo ref

/-- The bases of a declared type come back to a type among them, or a group comes back to itself. -/
def Circular (s : DeclarationSet) : Prop :=
  (∃ name ∈ s.types.keys, ∃ base, ReflTransGen s.Derives name base ∧ TransGen s.Derives base base) ∨
    ∃ name, TransGen s.Refers name name

def Ending (R : QName → QName → Prop) (name : QName) : Prop := Acc (fun next name => R name next) name

section Ending

variable {R : QName → QName → Prop} {name : QName}

theorem Ending.not_transGen (h : Ending R name) : ¬ TransGen R name name := by
  induction h with
  | intro name _ ih =>
    intro circle
    obtain ⟨next, step, back⟩ := TransGen.head'_iff.1 circle
    exact ih next step (.tail' back step)

end Ending

/-- A check ends with a circle, and only if `P`. -/
def Circles (P : Prop) (e : SetError) : Prop := (∃ path, e = .circular path) ∧ P

theorem Circles.mono {P P' : Prop} {e : SetError} (h : Circles P e) (hP : P → P') : Circles P' e :=
  ⟨h.1, hP h.2⟩

theorem checkDerivation_settles {path : List QName} {d : TypeDef} {name : QName}
    (hd : s.type? name = some d) (here : name ∈ path)
    (way : ∀ p ∈ path, ReflTransGen s.Derives p name) :
    Settles (s.checkDerivation path d) (fun _ => Ending s.Derives name)
      (Circles (∃ base, ReflTransGen s.Derives name base ∧ TransGen s.Derives base base)) := by
  have only : ∀ {next}, s.Derives name next → derivationBase? d = some next := by
    rintro next ⟨_, hd', derived⟩
    obtain rfl := Option.some.inj (hd.symm.trans hd')
    exact TypeDef.derivesFrom_iff.1 derived
  induction path, d using checkDerivation.induct s generalizing name with
  | case1 path d none =>
    rw [checkDerivation.eq_def, none]
    refine Acc.intro _ fun next step => ?_
    cases none.symm.trans (only step)
  | case2 path d base derived back =>
    have step : s.Derives name base := ⟨d, hd, TypeDef.derivesFrom_iff.2 derived⟩
    rw [checkDerivation.eq_def, derived]
    simp only [back, dite_true]
    exact ⟨⟨_, rfl⟩, base, .single step, .tail' (way base back) step⟩
  | case3 path d base derived new unknown =>
    rw [checkDerivation.eq_def, derived]
    simp only [new, dite_false]
    split
    · refine Acc.intro _ fun next step => Acc.intro _ ?_
      obtain rfl := Option.some.inj (derived.symm.trans (only step))
      rintro _ ⟨_, known, -⟩
      cases unknown.symm.trans known
    · next known => cases unknown.symm.trans known
  | case4 path d base derived new next known ih =>
    have step : s.Derives name base := ⟨d, hd, TypeDef.derivesFrom_iff.2 derived⟩
    rw [checkDerivation.eq_def, derived]
    simp only [new, dite_false]
    split
    · next unknown => cases unknown.symm.trans known
    · next next' known' =>
      obtain rfl := Option.some.inj (known'.symm.trans known)
      refine (ih known List.mem_cons_self ?_ ?_).mono ?_ ?_
      · exact List.forall_mem_cons.2 ⟨.refl, fun p hp => (way p hp).tail step⟩
      · rintro _ ⟨_, hd', derived'⟩
        obtain rfl := Option.some.inj (known.symm.trans hd')
        exact TypeDef.derivesFrom_iff.1 derived'
      · intro _ ends
        refine Acc.intro _ fun other step' => ?_
        obtain rfl := Option.some.inj (derived.symm.trans (only step'))
        exact ends
      · exact fun _ h => h.mono fun ⟨back, far, circle⟩ => ⟨back, .head step far, circle⟩

theorem checkGroupCycle_settles {path : List QName} {name : QName}
    (way : ∀ p ∈ path, TransGen s.Refers p name) :
    Settles (s.checkGroupCycle path name) (fun _ => Ending s.Refers name)
      (Circles (∃ name, TransGen s.Refers name name)) := by
  induction path, name using checkGroupCycle.induct s with
  | case1 path name back =>
    rw [checkGroupCycle.eq_def, dif_pos back]
    exact ⟨⟨_, rfl⟩, name, way name back⟩
  | case2 path name new unknown =>
    rw [checkGroupCycle.eq_def, dif_neg new]
    split
    · refine Acc.intro _ ?_
      rintro _ ⟨_, known, -⟩
      cases unknown.symm.trans known
    · next known => cases unknown.symm.trans known
  | case3 path name new d known ih =>
    rw [checkGroupCycle.eq_def, dif_neg new]
    split
    · next unknown => cases unknown.symm.trans known
    · next d' known' =>
      obtain rfl := Option.some.inj (known'.symm.trans known)
      have step : ∀ ref ∈ groupRefs d'.group, s.Refers name ref := fun ref h =>
        ⟨d', known, ModelGroup.refersTo_iff.2 h⟩
      refine (Settles.forM fun ref h => ih ref ?_).mono (fun _ ends => Acc.intro _ ?_) fun _ => id
      · exact List.forall_mem_cons.2 ⟨.single (step ref h), fun p hp => (way p hp).tail (step ref h)⟩
      · rintro ref ⟨_, known', refers⟩
        obtain rfl := Option.some.inj (known'.symm.trans known)
        exact ends ref (ModelGroup.refersTo_iff.1 refers)

section Check

/-- There is no endless way along bases or along groups. -/
structure Straight (s : DeclarationSet) : Prop where
  types : ∀ name, Ending s.Derives name
  groups : ∀ name, Ending s.Refers name

theorem Straight.not_circular (h : s.Straight) : ¬ s.Circular := by
  rintro (⟨_, -, base, -, circle⟩ | ⟨name, circle⟩)
  · exact (h.types base).not_transGen circle
  · exact (h.groups name).not_transGen circle

theorem straight_of_declared (types : ∀ name d, s.types.get? name = some d → Ending s.Derives name)
    (groups : ∀ name d, s.groups.get? name = some d → Ending s.Refers name) : s.Straight where
  types := by
    refine fun name => Acc.intro _ ?_
    rintro base ⟨d, found, derived⟩
    have step : s.Derives name base := ⟨d, found, derived⟩
    unfold type? at found
    cases declared : s.types.get? name with
    | some d' => exact (types name d' declared).inv step
    | none =>
      rw [declared] at found
      exact absurd derived (not_derivesFrom_of_builtinType? found)
  groups := by
    refine fun name => Acc.intro _ ?_
    rintro ref ⟨d, found, refers⟩
    exact (groups name d found).inv ⟨d, found, refers⟩

variable {name : QName}

theorem checkDerivation_of_declared {d : TypeDef} (declared : s.types.get? name = some d) :
    Settles (s.checkDerivation [name] d) (fun _ => Ending s.Derives name) (Circles s.Circular) := by
  have found : s.type? name = some d := by
    rw [type?, declared]
    rfl
  have listed : name ∈ s.types.keys := by
    rw [OrderedMap.mem_keys_iff]
    exact Option.isSome_of_mem declared
  refine (checkDerivation_settles found List.mem_cons_self (List.forall_mem_singleton.2 .refl)).mono
    (fun _ => id) fun _ h => h.mono fun circle => ?_
  exact .inl ⟨name, listed, circle⟩

theorem checkGroupCycle_of_declared (name : QName) :
    Settles (s.checkGroupCycle [] name) (fun _ => Ending s.Refers name) (Circles s.Circular) :=
  (checkGroupCycle_settles fun _ h => absurd h List.not_mem_nil).mono (fun _ => id) fun _ h => h.mono .inr

theorem straight_of_checkReferences (indexed : s.Indexed) (h : s.checkReferences = .ok ()) : s.Straight := by
  unfold checkReferences at h
  simp only [seq_eq_ok_iff, forM_eq_ok_iff] at h
  obtain ⟨types, -, groups, -⟩ := h
  refine straight_of_declared (fun name d declared => ?_) fun name d declared => ?_
  · obtain ⟨-, passed⟩ := types d ((OrderedMap.mem_values_iff _ _).2 ⟨name, declared⟩)
    rw [indexed.types name d declared] at passed
    exact (checkDerivation_of_declared declared).answer passed
  · obtain ⟨-, passed⟩ := groups d ((OrderedMap.mem_values_iff _ _).2 ⟨name, declared⟩)
    rw [indexed.groups name d declared] at passed
    exact (checkGroupCycle_of_declared name).answer passed

theorem Resolves.mono {refs refs' : List Mention} (h : s.Resolves refs') (sub : refs ⊆ refs') :
    s.Resolves refs := fun kind name hm => h kind name (sub hm)

theorem checkReferences_settles (indexed : s.Indexed) (resolves : s.Resolves s.mentions) :
    Settles s.checkReferences (fun _ => True) (Circles s.Circular) := by
  have passes : ∀ {x : Except SetError Unit}, x = .ok () → Settles x (fun _ => True) (Circles s.Circular) := by
    rintro _ rfl
    trivial
  unfold checkReferences
  refine Settles.bind (Settles.forM (P := fun _ => True) fun d hd => ?_) fun _ _ => ?_
  · obtain ⟨name, declared⟩ := (OrderedMap.mem_values_iff _ _).1 hd
    have mentioned : d.mentions ⊆ s.mentions := fun _ hr => mem_mentions_iff.2 (.inl ⟨d, hd, hr⟩)
    refine Settles.bind (passes ((checkType_eq_ok_iff _ d).2 (resolves.mono mentioned))) fun _ _ => ?_
    rw [indexed.types name d declared]
    exact (checkDerivation_of_declared declared).mono (fun _ _ => True.intro) fun _ => id
  refine Settles.bind (Settles.forM (P := fun _ => True) fun d hd => ?_) fun _ _ => ?_
  · have mentioned : d.mentions ⊆ s.mentions := fun _ hr => mem_mentions_iff.2 (.inr (.inl ⟨d, hd, hr⟩))
    exact passes ((checkElement_eq_ok_iff _ d).2 (resolves.mono mentioned))
  refine Settles.bind (Settles.forM (P := fun _ => True) fun d hd => ?_) fun _ _ => ?_
  · have mentioned : d.group.mentions ⊆ s.mentions := fun _ hr =>
      mem_mentions_iff.2 (.inr (.inr (.inr (.inr ⟨d, hd, hr⟩))))
    refine Settles.bind (passes ((checkGroup_eq_ok_iff _ d.group).2 (resolves.mono mentioned))) fun _ _ => ?_
    exact (checkGroupCycle_of_declared d.name).mono (fun _ _ => True.intro) fun _ => id
  refine (Settles.forM (P := fun _ => True) fun d hd => ?_).mono (fun _ _ => True.intro) fun _ => id
  have mentioned : AttributeUse.mentionsList d.attributes ⊆ s.mentions := fun _ hr =>
    mem_mentions_iff.2 (.inr (.inr (.inr (.inl ⟨d, hd, hr⟩))))
  exact passes ((checkAttributes_eq_ok_iff _ d.attributes).2 (resolves.mono mentioned))

/-- Where every name is declared, the check reports a circle exactly if there is one and passes otherwise. -/
theorem checkReferences_exact (indexed : s.Indexed) (resolves : s.Resolves s.mentions) :
    ((∃ path, s.checkReferences = .error (.circular path)) ↔ s.Circular) ∧
      (¬ s.Circular → s.checkReferences = .ok ()) := by
  have settles := checkReferences_settles indexed resolves
  have straight := straight_of_checkReferences indexed
  cases outcome : s.checkReferences with
  | ok _ =>
    have none : ¬ s.Circular := (straight outcome).not_circular
    exact ⟨⟨nofun, fun circle => absurd circle none⟩, fun _ => rfl⟩
  | error e =>
    obtain ⟨⟨path, rfl⟩, circle⟩ := settles.fault outcome
    exact ⟨⟨fun _ => circle, fun _ => ⟨path, rfl⟩⟩, fun none => absurd circle none⟩

end Check

end DeclarationSet

end SchemaGraph
