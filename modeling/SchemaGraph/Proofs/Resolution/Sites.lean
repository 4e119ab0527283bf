import SchemaGraph.Proofs.Resolution.Scope

/-! Where definitions stand.  A site leads to one particle of a set, so that an inline definition is known by
its site, and the elements of an effective content stand where their sites say. -/
namespace SchemaGraph

def TypeDef.group? (d : TypeDef) : Option ModelGroup :=
  d.complex?.bind fun x =>
    match x.content with
    | .elements group => some group
    | .empty | .simple _ => none

def Particle.group? : Particle → Option ModelGroup
  | .group g => some g
  | .element ⟨_, .inline d, _, _, _⟩ => d.group?
  | _ => none

def Particle.inline? : Particle → Option (QName × TypeDef)
  | .element ⟨name, .inline d, _, _, _⟩ => some (name, d)
  | _ => none

namespace DeclarationSet

/-- The group whose particles a site numbers: `path` leads to it inside a global declaration. -/
def groupAt (s : DeclarationSet) (owner : SiteOwner) : List Nat → Option ModelGroup
  | [] =>
    match owner with
    | .element name => (s.element? name).bind fun decl => (Particle.element decl).group?
    | .type name => (s.type? name).bind TypeDef.group?
    | .group name => (s.group? name).map (·.group)
  | i :: path => ((s.groupAt owner path).bind (·.particles[i]?)).bind Particle.group?

/-- The particle at a site.  A global element is one itself. -/
def particleAt (s : DeclarationSet) : Site → Option Particle
  | ⟨.element name, []⟩ => (s.element? name).map .element
  | ⟨_, []⟩ => none
  | ⟨owner, i :: path⟩ => (s.groupAt owner path).bind (·.particles[i]?)

/-- The inline type that is declared at a site, behind the name of its element. -/
def inlineAt (s : DeclarationSet) (site : Site) : Option (QName × TypeDef) :=
  (s.particleAt site).bind Particle.inline?

variable {s : DeclarationSet} {site : Site}

theorem groupAt_of_type? {name : QName} {d : TypeDef} (found : s.type? name = some d) :
    s.groupAt (.type name) [] = d.group? := by
  rw [groupAt, found, Option.bind_some]

theorem groupAt_of_group? {name : QName} {d : ModelGroupDef} (found : s.group? name = some d) :
    s.groupAt (.group name) [] = some d.group := by
  rw [groupAt, found, Option.map_some]

theorem groupAt_of_particleAt {p : Particle} (h : s.particleAt site = some p) :
    s.groupAt site.owner site.path = p.group? := by
  obtain ⟨owner, path⟩ := site
  cases path with
  | nil =>
    cases owner with
    | element name =>
      obtain ⟨decl, declared, rfl⟩ := Option.map_eq_some_iff.1 h
      simp [groupAt, declared]
    | type name => cases h
    | group name => cases h
  | cons i path =>
    rw [particleAt] at h
    rw [groupAt, h, Option.bind_some]

theorem groupAt_of_inlineAt {element : QName} {d : TypeDef} (h : s.inlineAt site = some (element, d)) :
    s.groupAt site.owner site.path = d.group? := by
  obtain ⟨p, found, inline⟩ := Option.bind_eq_some_iff.1 h
  rw [groupAt_of_particleAt found]
  unfold Particle.inline? at inline
  split at inline
  · cases inline
    rfl
  · cases inline

def Placed (s : DeclarationSet) (leaves : List Leaf) : Prop :=
  ∀ decl site occurs, Leaf.element decl site occurs ∈ leaves → s.particleAt site = some (.element decl)

theorem particleAt_child {group : ModelGroup} {i : Nat} {p : Particle}
    (found : s.groupAt site.owner site.path = some group) (listed : group.particles[i]? = some p) :
    s.particleAt (site.child i) = some p := by
  have child : site.child i = ⟨site.owner, i :: site.path⟩ := rfl
  rw [child, particleAt, found]
  exact listed

theorem viewRule_placed (s : DeclarationSet) (context : String) :
    s.ViewRule context (fun _ site p => s.particleAt site = some p)
      (fun _ m => EachElement (fun decl site => s.particleAt site = some (.element decl)) m.leaves)
      fun _ => True where
  element placed := eachElement_element placed
  elementRef {_ _ name _} _ := by
    unfold element
    cases declared : s.element? name with
    | none => trivial
    | some decl => exact eachElement_element (by rw [particleAt, declared]; rfl)
  inside placed _ _ listed := particleAt_child (groupAt_of_particleAt placed) listed
  group each := eachElement_group each
  circular _ _ := trivial
  missing _ _ := trivial
  opened _ _ found _ _ listed := particleAt_child (groupAt_of_group? found) listed
  groupRef _ each := eachElement_group each
  any _ := eachElement_any

theorem TypeDef.group?_of_elements {d : TypeDef} {x : ComplexDef} {group : ModelGroup}
    (hx : d.complex? = some x) (h : x.content = .elements group) : d.group? = some group := by
  rw [TypeDef.group?, hx, Option.bind_some, h]

theorem layoutRule_placed (s : DeclarationSet) (context : String) :
    s.LayoutRule context
      (fun _ site x => ∃ d : TypeDef, d.complex? = some x ∧ s.groupAt site.owner site.path = d.group?)
      (OwnContent fun _ m => EachElement (fun decl site => s.particleAt site = some (.element decl)) m.leaves)
      (fun _ l => s.Placed l.leaves) fun _ => True where
  ownContent := by
    rintro _ site x ⟨d, complex, stands⟩
    refine (s.viewRule_placed context).ownContent fun group content i p listed => ?_
    exact particleAt_child (stands.trans (TypeDef.group?_of_elements complex content)) listed
  next _ _ := Settles.trivial.mono
    (fun next _ y complex => ⟨next.1, complex, groupAt_of_type? next.2.1⟩) fun _ => id
  first own _ := EachElement.withOwn (fun _ _ _ hd => absurd hd List.not_mem_nil) own.eachElement
  extension own _ _ _ below := EachElement.withOwn below own.eachElement

theorem layout_placed (s : DeclarationSet) (context : String) (path : List QName) (site : Site)
    (d : TypeDef) (x : ComplexDef) (hx : d.complex? = some x)
    (hd : s.groupAt site.owner site.path = d.group?) :
    Settles (s.layout context path site x) (s.Placed ·.leaves) fun _ => True :=
  (s.layoutRule_placed context).layout ⟨d, hx, hd⟩

end DeclarationSet

end SchemaGraph
