import SchemaGraph.Declaration.Equality
import SchemaGraph.Resolution.Error

/-! The effective content of a complex type: references followed, inherited content first.

An inline definition is known by its site, the place where it is declared.  Two definitions that are equal
part for part at different sites are different definitions; the equality of members, by which restated
content is recognised, does not look at sites. -/
namespace SchemaGraph

inductive SiteOwner
  | element (name : QName)
  | type (name : QName)
  | group (name : QName)
deriving DecidableEq

/-- A place inside a global declaration: the numbers of the particles to go through, the last one
first. -/
structure Site where
  owner : SiteOwner
  path : List Nat
deriving DecidableEq

def Site.child (s : Site) (i : Nat) : Site := { s with path := i :: s.path }

mutual

inductive Member where
  | element (decl : ElementDecl) (site : Site) (occurs : Occurs)
  | group (view : GroupView)
  | any

/-- A model group with references followed.  A named group is not anonymous. -/
structure GroupView where
  compositor : Compositor
  occurs : Occurs
  anonymous : Bool
  members : List Member

end

def GroupView.isChoice (g : GroupView) : Bool := g.compositor == .choice

mutual

def Member.same : Member → Member → Bool
  | .element d _ o, .element d' _ o' => d == d' && o == o'
  | .group g, .group g' => g.same g'
  | .any, .any => true
  | _, _ => false

def GroupView.same : GroupView → GroupView → Bool
  | ⟨c, o, a, m⟩, ⟨c', o', a', m'⟩ => c == c' && o == o' && a == a' && Member.sameList m m'

def Member.sameList : List Member → List Member → Bool
  | [], [] => true
  | a :: r, b :: s => a.same b && Member.sameList r s
  | _, _ => false

end

instance : BEq Member := ⟨Member.same⟩

inductive Leaf
  | element (decl : ElementDecl) (site : Site) (occurs : Occurs)
  | wildcard

mutual

/-- The elements and wildcards of a member from left to right. -/
def Member.leaves : Member → List Leaf
  | .element decl site occurs => [.element decl site occurs]
  | .group g => g.leaves
  | .any => [.wildcard]

def GroupView.leaves : GroupView → List Leaf
  | ⟨_, _, _, members⟩ => Member.leavesList members

def Member.leavesList : List Member → List Leaf
  | [] => []
  | m :: rest => m.leaves ++ Member.leavesList rest

end

/-- Takes each of `inherited` out of `merged` once, where it first occurs. -/
def subtractInherited {α : Type} [BEq α] (merged inherited : List α) : List α :=
  inherited.foldl List.erase merged

/-- What restated content comes to beside what is inherited. -/
inductive Remainder (α : Type)
  | fullyInherited
  | remaining (rest : List α)
deriving DecidableEq

def remainder {α : Type} [BEq α] (merged inherited : List α) : Remainder α :=
  let rest := subtractInherited merged inherited
  if rest.isEmpty then .fullyInherited else .remaining rest

theorem remainder_eq_fullyInherited_iff {α : Type} [BEq α] {merged inherited : List α} :
    remainder merged inherited = .fullyInherited ↔ subtractInherited merged inherited = [] := by
  simp [remainder]

theorem remainder_eq_remaining_iff {α : Type} [BEq α] {merged inherited rest : List α} :
    remainder merged inherited = .remaining rest ↔ rest ≠ [] ∧ subtractInherited merged inherited = rest := by
  by_cases none : subtractInherited merged inherited = []
  · simp [remainder, none, eq_comm]
  · simp only [remainder, List.isEmpty_iff, none, if_false, Remainder.remaining.injEq]
    exact ⟨fun same => ⟨same ▸ none, same⟩, And.right⟩

/-- The effective content of a complex type. -/
structure Layout where
  /-- The content is itself a choice. -/
  isChoice : Bool
  /-- The content as a whole can be repeated. -/
  isList : Bool
  members : List Member

namespace Layout

def empty : Layout := ⟨false, false, []⟩

def leaves (l : Layout) : List Leaf := Member.leavesList l.members

/-- The layout of a type without inherited content.  A group without a name that is all there is takes
the place of the group around it. -/
def ofGroup (own : GroupView) : Layout :=
  let group :=
    match own.members with
    | [.group inner] => if inner.anonymous then inner else own
    | _ => own
  let singleRepeated :=
    group.compositor == .sequence &&
      match group.members with
      | [.element _ _ occurs] => occurs.isRepeated
      | [.group inner] => inner.occurs.isRepeated
      | _ => false
  ⟨own.isChoice, group.occurs.isRepeated || singleRepeated, group.members⟩

/-- Puts a type's own content behind inherited content.  A choice may restate inherited members; when
nothing else is left the inherited layout stands. -/
def extend (base : Layout) (own : GroupView) : Layout :=
  let inherited :=
    if base.isChoice then [Member.group ⟨.choice, .once, true, base.members⟩] else base.members
  if own.isChoice then
    match remainder own.members base.members with
    | .fullyInherited => base
    | .remaining rest => ⟨false, false, inherited ++ [.group ⟨.choice, own.occurs, true, rest⟩]⟩
  else ⟨false, false, inherited ++ own.members⟩

/-- Adds a type's own content, if it declares any. -/
def withOwn (base : Layout) : Option GroupView → Layout
  | none => base
  | some own => if base.members.isEmpty then ofGroup own else base.extend own

end Layout

namespace DeclarationSet

noncomputable def groupSize (s : DeclarationSet) (name : QName) : Nat :=
  (s.group? name).elim 0 fun d => sizeOf d.group

mutual

/-- A group as it stands at `site`; `path` holds the named groups that are open. -/
def viewGroup (s : DeclarationSet) (context : String) (path : List QName) (site : Site)
    (occurs : Occurs) (anonymous : Bool) (group : ModelGroup) : Except ResolveError GroupView :=
  match group with
  | ⟨compositor, _, particles⟩ => do
    let members ← viewParticles s context path site 0 particles
    return { compositor, occurs, anonymous, members }
termination_by unvisitedSize s.groupSize s.groups.keys path + sizeOf group

def viewParticles (s : DeclarationSet) (context : String) (path : List QName) (site : Site)
    (index : Nat) (particles : List Particle) : Except ResolveError (List Member) :=
  match particles with
  | [] => return []
  | p :: rest => do
    let m ← viewParticle s context path (site.child index) p
    return m :: (← viewParticles s context path site (index + 1) rest)
termination_by unvisitedSize s.groupSize s.groups.keys path + sizeOf particles

def viewParticle (s : DeclarationSet) (context : String) (path : List QName) (site : Site)
    (particle : Particle) : Except ResolveError Member :=
  match particle with
  | .element decl => return .element decl site decl.occurs
  | .elementRef name occurs => do
    return .element (← s.element name context) ⟨.element name, []⟩ occurs
  | .group ⟨compositor, occurs, particles⟩ => do
    return .group (← viewGroup s context path site occurs true ⟨compositor, occurs, particles⟩)
  | .groupRef name occurs =>
    if _hp : name ∈ path then throw (.set (.circular (name :: path).reverse))
    else
      match _hg : s.group? name with
      | none => throw (.dangling .group name context)
      | some d => do
        return .group
          (← viewGroup s context (name :: path) ⟨.group name, []⟩ occurs false d.group)
  | .any _ => return .any
termination_by unvisitedSize s.groupSize s.groups.keys path + sizeOf particle
decreasing_by
  · simp
  · have := unvisitedSize_cons_lt s.groupSize ((OrderedMap.mem_keys_iff _ _).2
      (by simp only [OrderedMap.contains]; exact Option.isSome_of_mem _hg)) _hp
    simp only [groupSize, _hg, Option.elim] at this
    omega

end

/-- The content that a complex type at `site` declares itself. -/
def ownContent (s : DeclarationSet) (context : String) (site : Site) (d : ComplexDef) :
    Except ResolveError (Option GroupView) :=
  match d.content with
  | .elements group => some <$> s.viewGroup context [] site group.occurs true group
  | .empty | .simple _ => pure none

/-- The effective content of a complex type whose definition stands at `site`; `path` holds the base
types that are open. -/
def layout (s : DeclarationSet) (context : String) (path : List QName) (site : Site)
    (d : ComplexDef) : Except ResolveError Layout := do
  let own ← s.ownContent context site d
  let base ← (match d.derivation with
    | .extension base => do
      let ⟨b, _h⟩ ← s.nextType path base context
      match b.complex? with
      | some c => s.layout context (base :: path) ⟨.type base, []⟩ c
      | none => pure .empty
    | .none | .restriction _ => pure .empty)
  return base.withOwn own
termination_by unvisited s.typeNames path
decreasing_by exact unvisited_cons_lt (mem_typeNames_of_type? _h.1) _h.2

end DeclarationSet

end SchemaGraph
