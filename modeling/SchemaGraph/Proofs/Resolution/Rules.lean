import SchemaGraph.Proofs.Linking.Mentions
import SchemaGraph.Proofs.Resolution.Leaves

/-! Rules for the walks that read declarations.  A walk into groups or along extended types keeps what one of its
steps keeps; its faults are those of its lookups, a circle or a name that is not declared. -/
namespace SchemaGraph

def ReferenceKind.declaration : ReferenceKind → DeclarationKind
  | .type | .baseType => .type
  | .element | .head => .element
  | .attr => .attr
  | .attributeGroup => .attributeGroup
  | .group => .group

/-- A fault other than a circle. -/
def ResolveError.OffCircle (e : ResolveError) : Prop := ∀ path, e ≠ .set (.circular path)

theorem ResolveError.offCircle_dangling (kind : ReferenceKind) (name : QName) (context : String) :
    (ResolveError.dangling kind name context).OffCircle := nofun

namespace DeclarationSet

def Lost (s : DeclarationSet) (refs : List Mention) (e : ResolveError) : Prop :=
  (∃ path, e = .set (.circular path)) ∨
    ∃ kind name context, e = .dangling kind name context ∧
      Mention.named kind.declaration name ∈ refs ∧ s.declares kind.declaration name = false

section Lookups

variable {s : DeclarationSet} {refs : List Mention} {path : List QName} {name : QName} {context : String}

theorem lost_circular (path : List QName) : s.Lost refs (.set (.circular path)) := .inl ⟨path, rfl⟩

theorem lost_dangling (kind : ReferenceKind) (h : Mention.named kind.declaration name ∈ refs)
    (hd : s.declares kind.declaration name = false) :
    s.Lost refs (.dangling kind name context) :=
  .inr ⟨kind, name, context, rfl, h, hd⟩

theorem Lost.mono {refs' : List Mention} {e : ResolveError} (h : s.Lost refs e)
    (hr : ∀ kind name, Mention.named kind name ∈ refs → Mention.named kind name ∈ refs') :
    s.Lost refs' e := by
  rcases h with h | ⟨kind, name, context, rfl, hm, hd⟩
  · exact .inl h
  · exact lost_dangling kind (hr _ _ hm) hd

theorem type_settles (h : Mention.named .type name ∈ refs) :
    Settles (s.type name context) (fun d => s.type? name = some d) (s.Lost refs) := by
  unfold type
  cases hd : s.type? name with
  | none => exact lost_dangling .type h (by simp [ReferenceKind.declaration, declares, hd])
  | some d => rfl

theorem element_settles (h : Mention.named .element name ∈ refs) :
    Settles (s.element name context) (fun d => s.element? name = some d) (s.Lost refs) := by
  unfold element
  cases hd : s.element? name with
  | none => exact lost_dangling .element h (by simp [ReferenceKind.declaration, declares, hd])
  | some d => rfl

theorem nextType_settles (h : Mention.named .type name ∈ refs) :
    Settles (s.nextType path name context) (fun _ => True) (s.Lost refs) := by
  unfold nextType
  split
  · exact lost_circular _
  · split
    · trivial
    · next hd => exact lost_dangling .type h (by simpa [ReferenceKind.declaration, declares] using hd)

theorem nextType_eq_ok_iff {d : TypeDef} :
    (∃ h, s.nextType path name context = .ok ⟨d, h⟩) ↔ s.type? name = some d ∧ name ∉ path := by
  unfold nextType
  constructor
  · rintro ⟨h, -⟩
    exact h
  · rintro ⟨found, new⟩
    refine ⟨⟨found, new⟩, ?_⟩
    simp [new, found]

end Lookups

section Groups

/-- A rule for walks into groups.  With `pre` of a particle, where the walk comes to it, goes `post` of the member
that stands for it; a walk that stops has a fault in `F`. -/
structure ViewRule (s : DeclarationSet) (context : String) (pre : List QName → Site → Particle → Prop)
    (post : Particle → Member → Prop) (F : ResolveError → Prop) : Prop where
  element : ∀ {path site decl}, pre path site (.element decl) →
    post (.element decl) (.element decl site decl.occurs)
  elementRef : ∀ {path site name occurs}, pre path site (.elementRef name occurs) →
    Settles (s.element name context)
      (fun decl => post (.elementRef name occurs) (.element decl ⟨.element name, []⟩ occurs)) F
  /-- The walk goes into a group that stands in place. -/
  inside : ∀ {path site g}, pre path site (.group g) →
    ∀ i p, g.particles[i]? = some p → pre path (site.child i) p
  group : ∀ {g members}, List.Forall₂ post g.particles members →
    post (.group g) (.group ⟨g.compositor, g.occurs, true, members⟩)
  circular : ∀ {path site name occurs}, pre path site (.groupRef name occurs) → name ∈ path →
    F (.set (.circular (name :: path).reverse))
  missing : ∀ {path site name occurs}, pre path site (.groupRef name occurs) → s.group? name = none →
    F (.dangling .group name context)
  /-- The walk goes into a group that is referred to. -/
  opened : ∀ {path site name occurs d}, pre path site (.groupRef name occurs) → name ∉ path →
    s.group? name = some d → ∀ i p, d.group.particles[i]? = some p →
      pre (name :: path) (Site.child ⟨.group name, []⟩ i) p
  groupRef : ∀ {name occurs d members}, s.group? name = some d → List.Forall₂ post d.group.particles members →
    post (.groupRef name occurs) (.group ⟨d.group.compositor, occurs, false, members⟩)
  any : ∀ {path site occurs}, pre path site (.any occurs) → post (.any occurs) .any

inductive OwnContent (post : Particle → Member → Prop) (x : ComplexDef) : Option GroupView → Prop
  | plain (other : ∀ group, x.content ≠ .elements group) : OwnContent post x none
  | group {group : ModelGroup} {members : List Member} (content : x.content = .elements group)
      (each : List.Forall₂ post group.particles members) :
      OwnContent post x (some ⟨group.compositor, group.occurs, true, members⟩)

variable {s : DeclarationSet} {context : String} {pre : List QName → Site → Particle → Prop}
  {post : Particle → Member → Prop} {F : ResolveError → Prop} {path : List QName} {site : Site}

theorem ViewRule.views (rule : s.ViewRule context pre post F) :
    (∀ path site occurs anonymous group, (∀ i p, group.particles[i]? = some p → pre path (site.child i) p) →
      Settles (s.viewGroup context path site occurs anonymous group)
        (fun g => ∃ members, g = ⟨group.compositor, occurs, anonymous, members⟩ ∧
          List.Forall₂ post group.particles members) F) ∧
    (∀ path site index particles, (∀ i p, particles[i]? = some p → pre path (site.child (index + i)) p) →
      Settles (s.viewParticles context path site index particles) (List.Forall₂ post particles) F) ∧
    ∀ path site particle, pre path site particle →
      Settles (s.viewParticle context path site particle) (post particle) F := by
  -- One case for each branch of the three functions that call one another.
  refine viewGroup.mutual_induct s
    (fun path site occurs anonymous group => (∀ i p, group.particles[i]? = some p → pre path (site.child i) p) →
      Settles (s.viewGroup context path site occurs anonymous group)
        (fun g => ∃ members, g = ⟨group.compositor, occurs, anonymous, members⟩ ∧
          List.Forall₂ post group.particles members) F)
    (fun path site index particles => (∀ i p, particles[i]? = some p → pre path (site.child (index + i)) p) →
      Settles (s.viewParticles context path site index particles) (List.Forall₂ post particles) F)
    (fun path site particle => pre path site particle →
      Settles (s.viewParticle context path site particle) (post particle) F)
    ?_ ?_ ?_ ?_ ?_ ?_ ?_ ?_ ?_ ?_
  · intro path site occurs anonymous compositor _ particles ih h
    rw [viewGroup]
    exact (ih fun i p hp => by simpa using h i p hp).bind fun members each => ⟨members, rfl, each⟩
  · intro path site index _
    rw [viewParticles]
    exact .nil
  · intro path site index p rest ihp ihrest h
    rw [viewParticles]
    refine (ihp (h 0 p rfl)).bind fun m hm => (ihrest fun i q hq => ?_).bind fun l hl => .cons hm hl
    rw [Nat.add_assoc, Nat.add_comm 1]
    exact h (i + 1) q hq
  · intro path site decl h
    rw [viewParticle]
    exact rule.element h
  · intro path site name occurs h
    rw [viewParticle]
    exact (rule.elementRef h).bind fun decl hd => hd
  · intro path site compositor occurs particles ih h
    rw [viewParticle]
    refine (ih (rule.inside h)).bind ?_
    rintro _ ⟨members, rfl, each⟩
    exact rule.group each
  · intro path site name occurs here h
    rw [viewParticle, dif_pos here]
    exact rule.circular h here
  · intro path site name occurs new unknown h
    rw [viewParticle, dif_neg new]
    split
    · exact rule.missing h unknown
    · next found => cases found.symm.trans unknown
  · intro path site name occurs new d found ih h
    rw [viewParticle, dif_neg new]
    split
    · next unknown => cases unknown.symm.trans found
    · next d' found' =>
      obtain rfl := Option.some.inj (found'.symm.trans found)
      refine (ih (rule.opened h new found)).bind ?_
      rintro _ ⟨members, rfl, each⟩
      exact rule.groupRef found each
  · intro path site occurs h
    rw [viewParticle]
    exact rule.any h

theorem ViewRule.viewGroup (rule : s.ViewRule context pre post F) {group : ModelGroup} (occurs : Occurs)
    (anonymous : Bool) (h : ∀ i p, group.particles[i]? = some p → pre path (site.child i) p) :
    Settles (s.viewGroup context path site occurs anonymous group)
      (fun g => ∃ members, g = ⟨group.compositor, occurs, anonymous, members⟩ ∧
        List.Forall₂ post group.particles members) F :=
  rule.views.1 path site occurs anonymous group h

theorem ViewRule.ownContent (rule : s.ViewRule context pre post F) {x : ComplexDef}
    (h : ∀ group, x.content = .elements group → ∀ i p, group.particles[i]? = some p → pre [] (site.child i) p) :
    Settles (s.ownContent context site x) (OwnContent post x) F := by
  unfold DeclarationSet.ownContent
  split
  · next group content =>
    rw [Settles.map_iff]
    refine (rule.viewGroup group.occurs true (h group content)).mono ?_ fun _ => id
    rintro _ ⟨members, rfl, each⟩
    exact .group content each
  · next none => exact .plain fun group content => by cases none.symm.trans content
  · next simple => exact .plain fun group content => by cases simple.symm.trans content

theorem OwnContent.eachElement {Q : ElementDecl → Site → Prop} {x : ComplexDef} {own : Option GroupView}
    (h : OwnContent (fun _ m => EachElement Q m.leaves) x own) : ∀ g, own = some g → EachElement Q g.leaves := by
  cases h with
  | plain => exact nofun
  | group content each =>
    rintro _ ⟨⟩
    exact eachElement_group each

end Groups

section Extensions

/-- A rule for layouts.  With `pre` of a definition, where the walk comes to it, goes `post` of its layout, which
puts what `own` tells of its own content behind what it extends; a walk that stops has a fault in `F`. -/
structure LayoutRule (s : DeclarationSet) (context : String) (pre : List QName → Site → ComplexDef → Prop)
    (own : ComplexDef → Option GroupView → Prop) (post : ComplexDef → Layout → Prop) (F : ResolveError → Prop) :
    Prop where
  ownContent : ∀ {path site x}, pre path site x → Settles (s.ownContent context site x) (own x) F
  next : ∀ {path site x base}, pre path site x → x.derivation = .extension base →
    Settles (s.nextType path base context)
      (fun next => ∀ y, next.1.complex? = some y → pre (base :: path) ⟨.type base, []⟩ y) F
  first : ∀ {x g}, own x g →
    (∀ base b y, x.derivation = .extension base → s.type? base = some b → b.complex? ≠ some y) →
    post x (Layout.empty.withOwn g)
  extension : ∀ {x y g base b below}, own x g → x.derivation = .extension base → s.type? base = some b →
    b.complex? = some y → post y below → post x (below.withOwn g)

variable {s : DeclarationSet} {context : String} {pre : List QName → Site → ComplexDef → Prop}
  {own : ComplexDef → Option GroupView → Prop} {post : ComplexDef → Layout → Prop} {F : ResolveError → Prop}

theorem LayoutRule.layout (rule : s.LayoutRule context pre own post F) {path : List QName} {site : Site}
    {x : ComplexDef} (h : pre path site x) : Settles (s.layout context path site x) (post x) F := by
  rw [DeclarationSet.layout]
  refine (rule.ownContent h).bind fun g hg => ?_
  refine Settles.bind (Q := fun below => post x (below.withOwn g)) ?_ fun below => id
  split
  · next base derived =>
    refine (rule.next h derived).bind fun next ready => ?_
    obtain ⟨b, found, new⟩ := next
    dsimp only
    split
    · next y complex =>
      exact (rule.layout (ready y complex)).mono (fun _ => rule.extension hg derived found complex) fun _ => id
    · next simple =>
      refine rule.first hg fun base' b' y derived' found' complex => ?_
      cases derived.symm.trans derived'
      cases found.symm.trans found'
      cases simple.symm.trans complex
  · next none => exact rule.first hg fun base b y derived => by cases none.symm.trans derived
  · next restricted => exact rule.first hg fun base b y derived => by cases restricted.symm.trans derived
termination_by unvisited s.typeNames path
decreasing_by exact unvisited_cons_lt (mem_typeNames_of_type? found) new

end Extensions

end DeclarationSet

end SchemaGraph
