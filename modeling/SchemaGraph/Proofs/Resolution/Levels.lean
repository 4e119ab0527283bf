import SchemaGraph.Proofs.Resolution.Rules
import SchemaGraph.Resolution.Scalar

/-! The attributes that a type lists.  A walk through attribute groups gathers what it goes into, though the
groups may refer to each other in circles, and a walk along extended types lists one level after the other. -/
namespace SchemaGraph

def AttributeUse.own? (s : DeclarationSet) : AttributeUse → Option (String × TypeRef)
  | .declared decl => some (decl.name, decl.typeRef)
  | .reference name => (s.attr? name).map fun decl => (decl.name, decl.typeRef)
  | .group _ => none

namespace DeclarationSet

def ownAttributes (s : DeclarationSet) (uses : List AttributeUse) : List (String × TypeRef) :=
  uses.filterMap (AttributeUse.own? s)

section Groups

/-- The attribute groups that entries refer to, in one or more steps. -/
inductive Reaches (s : DeclarationSet) (uses : List AttributeUse) : QName → AttributeGroupDef → Prop
  | direct {name : QName} {g : AttributeGroupDef} (listed : .group name ∈ uses)
      (found : s.attributeGroup? name = some g) : Reaches s uses name g
  | nested {outer name : QName} {g g' : AttributeGroupDef} (reached : Reaches s uses outer g)
      (listed : .group name ∈ g.attributes) (found : s.attributeGroup? name = some g') : Reaches s uses name g'

/-- The attribute stands among the entries or in a group that they reach. -/
def Lists (s : DeclarationSet) (uses : List AttributeUse) (e : String × TypeRef) : Prop :=
  e ∈ s.ownAttributes uses ∨ ∃ name g, s.Reaches uses name g ∧ e ∈ s.ownAttributes g.attributes

/-- A group that the entries reach accepts any attribute. -/
def ReachesAny (s : DeclarationSet) (uses : List AttributeUse) : Prop :=
  ∃ name g, s.Reaches uses name g ∧ g.anyAttribute = true

variable {s : DeclarationSet} {uses rest : List AttributeUse} {seen entered : List QName} {name : QName}
  {e : String × TypeRef} {g : AttributeGroupDef} {refs : List Mention}

theorem Reaches.found (h : s.Reaches uses name g) : s.attributeGroup? name = some g := by
  cases h with
  | direct _ found | nested _ _ found => exact found

theorem Reaches.mono {uses' : List AttributeUse} (h : s.Reaches uses name g)
    (sub : ∀ name, .group name ∈ uses → .group name ∈ uses') : s.Reaches uses' name g := by
  induction h with
  | direct listed found => exact .direct (sub _ listed) found
  | nested _ listed found ih => exact .nested ih listed found

theorem Reaches.through (outer : s.Reaches uses name g) {inner : QName} {g' : AttributeGroupDef}
    (h : s.Reaches g.attributes inner g') : s.Reaches uses inner g' := by
  induction h with
  | direct listed found => exact .nested outer listed found
  | nested _ listed found ih => exact .nested ih listed found

theorem reaches_append {uses' : List AttributeUse} {inner : QName} {g' : AttributeGroupDef}
    (h : s.Reaches (uses ++ uses') inner g') : s.Reaches uses inner g' ∨ s.Reaches uses' inner g' := by
  induction h with
  | direct listed found => exact (List.mem_append.1 listed).imp (.direct · found) (.direct · found)
  | nested _ listed found ih => exact ih.imp (.nested · listed found) (.nested · listed found)

/-- The groups that a walk through the entries goes into, apart from those in `seen`. -/
structure Visits (s : DeclarationSet) (seen : List QName) (uses : List AttributeUse) (entered : List QName) :
    Prop where
  reached : ∀ name ∈ entered, ∃ g, s.Reaches uses name g
  listed : ∀ name, .group name ∈ uses → name ∈ seen ∨ name ∈ entered
  nested : ∀ name ∈ entered, ∀ g, s.attributeGroup? name = some g →
    ∀ inner, .group inner ∈ g.attributes → inner ∈ seen ∨ inner ∈ entered

theorem Visits.mem_iff (h : s.Visits [] uses entered) : name ∈ entered ↔ ∃ g, s.Reaches uses name g := by
  refine ⟨h.reached name, ?_⟩
  rintro ⟨g, reached⟩
  have free {name : QName} (h : name ∈ [] ∨ name ∈ entered) : name ∈ entered := h.resolve_left nofun
  induction reached with
  | direct listed _ => exact free (h.listed _ listed)
  | nested outer listed _ ih => exact free (h.nested _ ih _ outer.found _ listed)

theorem Visits.nil (s : DeclarationSet) (seen : List QName) : s.Visits seen [] [] :=
  ⟨nofun, nofun, nofun⟩

theorem Visits.pass {use : AttributeUse} (h : s.Visits seen rest entered)
    (passed : ∀ name, use = .group name → name ∈ seen) : s.Visits seen (use :: rest) entered where
  reached name hn := by
    obtain ⟨g, reached⟩ := h.reached name hn
    exact ⟨g, reached.mono fun _ => List.mem_cons_of_mem _⟩
  listed name listed := by
    rcases List.mem_cons.1 listed with same | listed
    · exact .inl (passed name same.symm)
    · exact h.listed name listed
  nested := h.nested

theorem Visits.shift {inner : QName} (h : inner ∈ name :: seen ∨ inner ∈ entered) :
    inner ∈ seen ∨ inner ∈ name :: entered := by
  simpa only [List.mem_cons, or_assoc, or_left_comm] using h

theorem Visits.enter (h : s.Visits (name :: seen) (g.attributes ++ rest) entered)
    (found : s.attributeGroup? name = some g) : s.Visits seen (.group name :: rest) (name :: entered) where
  reached := by
    have outer : s.Reaches (.group name :: rest) name g := .direct (List.mem_cons_self ..) found
    refine List.forall_mem_cons.2 ⟨⟨g, outer⟩, fun inner hn => ?_⟩
    obtain ⟨g', reached⟩ := h.reached inner hn
    refine ⟨g', (reaches_append reached).elim outer.through fun later => ?_⟩
    exact later.mono fun _ => List.mem_cons_of_mem _
  listed inner listed := by
    rcases List.mem_cons.1 listed with same | listed
    · cases same
      exact .inr (List.mem_cons_self ..)
    · exact Visits.shift (h.listed inner (List.mem_append_right _ listed))
  nested := by
    refine List.forall_mem_cons.2 ⟨fun g' found' inner listed => ?_, fun outer hn g' found' inner listed => ?_⟩
    · obtain rfl := Option.some.inj (found.symm.trans found')
      exact Visits.shift (h.listed inner (List.mem_append_left _ listed))
    · exact Visits.shift (h.nested outer hn g' found' inner listed)

/-- The walk lists the entries and those of the groups that it goes into. -/
structure Gathers (s : DeclarationSet) (uses : List AttributeUse) (entered : List QName) (l : AttributeList) :
    Prop where
  attributes : ∀ e, e ∈ l.attributes ↔ e ∈ s.ownAttributes uses ∨
    ∃ name ∈ entered, ∃ g, s.attributeGroup? name = some g ∧ e ∈ s.ownAttributes g.attributes
  any : l.anyAttribute = true ↔
    ∃ name ∈ entered, ∃ g, s.attributeGroup? name = some g ∧ g.anyAttribute = true

variable {l : AttributeList}

theorem Gathers.own {use : AttributeUse} (h : s.Gathers rest entered l) (own : use.own? s = some e) :
    s.Gathers (use :: rest) entered { l with attributes := e :: l.attributes } where
  attributes e' := by simp [ownAttributes, own, h.attributes e', or_assoc]
  any := h.any

theorem Gathers.pass (h : s.Gathers rest entered l) : s.Gathers (.group name :: rest) entered l where
  attributes e := by simp [ownAttributes, AttributeUse.own?, h.attributes e]
  any := h.any

theorem Gathers.enter (h : s.Gathers (g.attributes ++ rest) entered l) (found : s.attributeGroup? name = some g) :
    s.Gathers (.group name :: rest) (name :: entered)
      { l with anyAttribute := g.anyAttribute || l.anyAttribute } where
  attributes e := by
    have here : (∃ g', s.attributeGroup? name = some g' ∧ e ∈ s.ownAttributes g'.attributes) ↔
        e ∈ s.ownAttributes g.attributes := by simp [found]
    have both : s.ownAttributes (g.attributes ++ rest) = s.ownAttributes g.attributes ++ s.ownAttributes rest :=
      List.filterMap_append
    rw [h.attributes e, both, List.mem_append, or_assoc, or_left_comm, List.exists_mem_cons_iff, here]
    rfl
  any := by simp [h.any, found]

theorem attributeUses_gathers (groups : ∀ name g, s.attributeGroup? name = some g →
      AttributeUse.mentionsList g.attributes ⊆ refs) (seen : List QName) (uses : List AttributeUse)
    (h : AttributeUse.mentionsList uses ⊆ refs) :
    Settles (s.attributeUses seen uses)
      (fun l => ∃ entered, s.Visits seen uses entered ∧ s.Gathers uses entered l)
      fun e => s.Lost refs e ∧ e.OffCircle := by
  induction seen, uses using attributeUses.induct s with
  | case1 seen =>
    rw [attributeUses]
    exact ⟨[], .nil s seen, by simp [ownAttributes], by simp⟩
  | case2 seen d rest ih =>
    rw [attributeUses]
    rw [AttributeUse.mentionsList, List.append_subset] at h
    refine (ih h.2).bind fun l => ?_
    rintro ⟨entered, visits, gathers⟩
    exact ⟨entered, visits.pass (by rintro _ ⟨⟩), gathers.own rfl⟩
  | case3 seen name rest unknown =>
    rw [attributeUses]
    rw [AttributeUse.mentionsList, AttributeUse.mentions, List.append_subset] at h
    split
    · refine ⟨lost_dangling .attr (h.1 (List.mem_singleton.2 rfl)) ?_, ResolveError.offCircle_dangling _ _ _⟩
      simp [ReferenceKind.declaration, declares, unknown]
    · next found => cases found.symm.trans unknown
  | case4 seen name rest d found ih =>
    rw [attributeUses]
    rw [AttributeUse.mentionsList, List.append_subset] at h
    split
    · next unknown => cases unknown.symm.trans found
    · next d' found' =>
      obtain rfl := Option.some.inj (found'.symm.trans found)
      refine (ih h.2).bind fun l => ?_
      rintro ⟨entered, visits, gathers⟩
      exact ⟨entered, visits.pass (by rintro _ ⟨⟩), gathers.own (by rw [AttributeUse.own?, found]; rfl)⟩
  | case5 seen name rest known ih =>
    rw [attributeUses, dif_pos known]
    rw [AttributeUse.mentionsList, List.append_subset] at h
    refine (ih h.2).mono (fun l => ?_) fun _ => id
    rintro ⟨entered, visits, gathers⟩
    exact ⟨entered, visits.pass (by rintro _ ⟨⟩; exact known), gathers.pass⟩
  | case6 seen name rest new unknown =>
    rw [attributeUses, dif_neg new]
    rw [AttributeUse.mentionsList, AttributeUse.mentions, List.append_subset] at h
    split
    · refine ⟨lost_dangling .attributeGroup (h.1 (List.mem_singleton.2 rfl)) ?_,
        ResolveError.offCircle_dangling _ _ _⟩
      simp [ReferenceKind.declaration, declares, unknown]
    · next found => cases found.symm.trans unknown
  | case7 seen name rest new g found ih =>
    rw [attributeUses, dif_neg new]
    rw [AttributeUse.mentionsList, List.append_subset] at h
    split
    · next unknown => cases unknown.symm.trans found
    · next g' found' =>
      obtain rfl := Option.some.inj (found'.symm.trans found)
      have within : AttributeUse.mentionsList (g'.attributes ++ rest) ⊆ refs := by
        rw [AttributeUse.mentionsList_append, List.append_subset]
        exact ⟨groups name g' found, h.2⟩
      refine (ih within).bind fun l => ?_
      rintro ⟨entered, visits, gathers⟩
      exact ⟨name :: entered, visits.enter found, gathers.enter found⟩

theorem attributeUses_lists (groups : ∀ name g, s.attributeGroup? name = some g →
      AttributeUse.mentionsList g.attributes ⊆ refs) (h : AttributeUse.mentionsList uses ⊆ refs) :
    Settles (s.attributeUses [] uses)
      (fun l => (∀ e, e ∈ l.attributes ↔ s.Lists uses e) ∧ (l.anyAttribute = true ↔ s.ReachesAny uses))
      (s.Lost refs) := by
  refine (attributeUses_gathers groups [] uses h).mono (fun l => ?_) fun _ => And.left
  rintro ⟨entered, visits, gathers⟩
  -- A group that is gone into is one that is reached.
  have reached {P : AttributeGroupDef → Prop} :
      (∃ name ∈ entered, ∃ g, s.attributeGroup? name = some g ∧ P g) ↔
        ∃ name g, s.Reaches uses name g ∧ P g := by
    constructor
    · rintro ⟨name, hn, g, found, hg⟩
      obtain ⟨g', reached⟩ := visits.reached name hn
      obtain rfl := Option.some.inj (reached.found.symm.trans found)
      exact ⟨name, g', reached, hg⟩
    · rintro ⟨name, g, reached, hg⟩
      exact ⟨name, visits.mem_iff.2 ⟨g, reached⟩, g, reached.found, hg⟩
  exact ⟨fun e => (gathers.attributes e).trans (or_congr_right reached), gathers.any.trans reached⟩

end Groups

section Levels

/-- A definition on the way up the extensions of a type, with the attributes that it lists. -/
structure Level where
  definition : ComplexDef
  attributes : List (String × TypeRef)

def Level.names (level : Level) : List String := level.attributes.map Prod.fst

def AcceptsAny (s : DeclarationSet) (x : ComplexDef) : Prop :=
  x.anyAttribute = true ∨ s.ReachesAny x.attributes

/-- The levels of a type from the top of its extensions down to the type itself. -/
inductive Levels (s : DeclarationSet) : TypeDef → List Level → Prop
  | none {d : TypeDef} (plain : d.complex? = none) : Levels s d []
  | first {d : TypeDef} {x : ComplexDef} {own : List (String × TypeRef)} (complex : d.complex? = some x)
      (first : ∀ base, x.derivation ≠ .extension base) (lists : ∀ e, e ∈ own ↔ s.Lists x.attributes e) :
      Levels s d [⟨x, own⟩]
  | extension {d b : TypeDef} {x : ComplexDef} {base : QName} {above : List Level} {own : List (String × TypeRef)}
      (complex : d.complex? = some x) (derived : x.derivation = .extension base) (found : s.type? base = some b)
      (before : Levels s b above) (lists : ∀ e, e ∈ own ↔ s.Lists x.attributes e) :
      Levels s d (above ++ [⟨x, own⟩])

variable {s : DeclarationSet} {refs : List Mention}

theorem Levels.lists {d : TypeDef} {levels : List Level} (h : s.Levels d levels) :
    ∀ level ∈ levels, ∀ e, e ∈ level.attributes ↔ s.Lists level.definition.attributes e := by
  induction h with
  | none => exact nofun
  | first _ _ lists => simpa using lists
  | extension _ _ _ _ lists ih =>
    intro level listed
    rcases List.mem_append.1 listed with listed | listed
    · exact ih level listed
    · obtain rfl := List.mem_singleton.1 listed
      exact lists

def AttributeList.Of (s : DeclarationSet) (l : AttributeList) (levels : List Level) : Prop :=
  l.attributes = levels.flatMap Level.attributes ∧
    (l.anyAttribute = true ↔ ∃ level ∈ levels, s.AcceptsAny level.definition)

theorem AttributeList.Of.nil (s : DeclarationSet) : AttributeList.Of s ⟨[], false⟩ [] := ⟨rfl, by simp⟩

theorem AttributeList.Of.extend {inherited own : AttributeList} {above : List Level} {x : ComplexDef}
    (h : inherited.Of s above) (any : own.anyAttribute = true ↔ s.ReachesAny x.attributes) :
    AttributeList.Of s ⟨inherited.attributes ++ own.attributes,
      inherited.anyAttribute || x.anyAttribute || own.anyAttribute⟩ (above ++ [⟨x, own.attributes⟩]) := by
  refine ⟨by simp [h.1], ?_⟩
  simp [h.2, any, AcceptsAny, or_assoc, or_and_right, exists_or]

theorem inheritedAttributes_levels (groups : ∀ name g, s.attributeGroup? name = some g →
      AttributeUse.mentionsList g.attributes ⊆ refs)
    (types : ∀ name d, s.type? name = some d → d.mentions ⊆ refs) (path : List QName) (d : TypeDef)
    (h : d.mentions ⊆ refs) :
    Settles (s.inheritedAttributes path d) (fun l => ∃ levels, s.Levels d levels ∧ l.Of s levels)
      (s.Lost refs) := by
  rw [inheritedAttributes]
  split
  · next plain => exact ⟨[], .none plain, rfl, by simp⟩
  · next x complex =>
    rw [TypeDef.mentions_of_complex? complex] at h
    have own := attributeUses_lists groups (List.Subset.trans (ComplexDef.attributes_mentions x) h)
    have first (top : ∀ base, x.derivation ≠ .extension base) :
        Settles (s.attributeUses [] x.attributes >>= fun own => pure (AttributeList.mk ([] ++ own.attributes)
          (false || x.anyAttribute || own.anyAttribute)))
          (fun l => ∃ levels, s.Levels d levels ∧ l.Of s levels) (s.Lost refs) := by
      refine own.bind fun l => ?_
      rintro ⟨lists, any⟩
      exact ⟨_, .first complex top lists, (AttributeList.Of.nil s).extend any⟩
    split
    · next base derived =>
      have mentioned : Mention.named .type base ∈ refs :=
        h (ComplexDef.base_mem_mentions (by simp [derived, Derivation.base?]))
      refine Settles.bind (Q := fun l => ∃ b above, s.type? base = some b ∧ s.Levels b above ∧ l.Of s above) ?_ ?_
      · refine (nextType_settles mentioned).bind fun next _ => ?_
        obtain ⟨b, found, new⟩ := next
        refine (inheritedAttributes_levels groups types (base :: path) b (types base b found)).mono ?_ fun _ => id
        rintro l ⟨above, before, inherited⟩
        exact ⟨b, above, found, before, inherited⟩
      · rintro inherited ⟨b, above, found, before, of⟩
        refine own.bind fun l => ?_
        rintro ⟨lists, any⟩
        exact ⟨_, .extension complex derived found before lists, of.extend any⟩
    · next derived => exact first (by simp [derived])
    · next derived => exact first (by simp [derived])
termination_by unvisited s.typeNames path
decreasing_by exact unvisited_cons_lt (mem_typeNames_of_type? found) new

end Levels

end DeclarationSet

end SchemaGraph
