import SchemaGraph.Proofs.Linking.Acyclic
import SchemaGraph.Proofs.Resolution.Levels

/-! Walks over a set without circles.  Each edge that a walk follows is one that the check of the set covers, so
that no name comes up twice and a walk never stops where its path says that it is open already. -/
namespace SchemaGraph

open Relation Stateful

namespace DeclarationSet

variable {s : DeclarationSet} {path : List QName} {name : QName}

/-- The definition that a walk along bases goes to from `d`, which may be declared or inline. -/
def BaseOf (s : DeclarationSet) (b d : TypeDef) : Prop :=
  ∃ base, d.DerivesFrom base ∧ s.type? base = some b

def OpenedFrom (s : DeclarationSet) (g' g : ModelGroup) : Prop :=
  ∃ name d, g.RefersTo name ∧ s.group? name = some d ∧ d.group = g'

theorem Straight.wellFounded_baseOf (h : s.Straight) : WellFounded s.BaseOf := by
  have ends : ∀ name d, s.type? name = some d → Acc s.BaseOf d := by
    intro name
    induction h.types name with
    | intro name _ ih =>
      intro d found
      refine Acc.intro _ ?_
      rintro b ⟨base, derived, found'⟩
      exact ih base ⟨d, found, derived⟩ b found'
  refine ⟨fun d => Acc.intro _ ?_⟩
  rintro b ⟨base, -, found⟩
  exact ends base b found

/-- A walk into group references is over after finitely many steps, from every group. -/
theorem Straight.wellFounded_openedFrom (h : s.Straight) : WellFounded s.OpenedFrom := by
  have ends : ∀ name d, s.group? name = some d → Acc s.OpenedFrom d.group := by
    intro name
    induction h.groups name with
    | intro name _ ih =>
      intro d found
      refine Acc.intro _ ?_
      rintro _ ⟨ref, d', refers, found', rfl⟩
      exact ih ref ⟨d, found, refers⟩ d' found'
  refine ⟨fun g => Acc.intro _ ?_⟩
  rintro _ ⟨ref, d, -, found, rfl⟩
  exact ends ref d found

section Path

variable {R : QName → QName → Prop} {next : QName}

/-- No name of the path lies on a way ahead. -/
def Clear (R : QName → QName → Prop) (path : List QName) (name : QName) : Prop :=
  ∀ p ∈ path, ¬ ReflTransGen R name p

theorem Clear.not_mem (h : Clear R path name) : name ∉ path := fun here => h name here .refl

theorem Clear.cons (h : Clear R path name) (ends : Ending R name) (step : R name next) :
    Clear R (name :: path) next :=
  List.forall_mem_cons.2
    ⟨fun back => ends.not_transGen (.head' step back), fun p hp way => h p hp (.head step way)⟩

theorem clear_nil : Clear R [] name := fun _ h => absurd h List.not_mem_nil

end Path

section Walks

theorem nextType_offCircle {context : String} (new : name ∉ path) :
    Settles (s.nextType path name context) (fun _ => True) ResolveError.OffCircle := by
  unfold nextType
  rw [dif_neg new]
  split
  · trivial
  · exact ResolveError.offCircle_dangling _ _ _

theorem element_offCircle {context : String} :
    Settles (s.element name context) (fun _ => True) ResolveError.OffCircle := by
  unfold element
  split
  · trivial
  · exact ResolveError.offCircle_dangling _ _ _

theorem viewRule_offCircle (h : s.Straight) (context : String) :
    s.ViewRule context (fun path _ p => ∀ ref ∈ particleRef p, Clear s.Refers path ref) (fun _ _ => True)
      ResolveError.OffCircle where
  element _ := trivial
  elementRef _ := element_offCircle
  inside {_ _ g} clear i p hp ref hr := by
    rw [particleRef] at clear
    exact clear ref (mem_groupRefs (List.mem_of_getElem? hp) hr)
  group _ := trivial
  circular clear here := absurd here (clear _ (List.mem_singleton.2 rfl)).not_mem
  missing _ _ := ResolveError.offCircle_dangling _ _ _
  opened {_ _ name _ d} clear _ found i p hp ref hr := by
    have refers : d.group.RefersTo ref := ModelGroup.refersTo_iff.2 (mem_groupRefs (List.mem_of_getElem? hp) hr)
    exact (clear name (List.mem_singleton.2 rfl)).cons (h.groups name) ⟨d, found, refers⟩
  groupRef _ _ := trivial
  any _ := trivial

theorem viewGroup_offCircle (h : s.Straight) (context : String) (site : Site) (occurs : Occurs)
    (anonymous : Bool) (group : ModelGroup) :
    Settles (s.viewGroup context [] site occurs anonymous group) (fun _ => True) ResolveError.OffCircle :=
  ((viewRule_offCircle h context).viewGroup occurs anonymous fun _ _ _ _ _ => clear_nil).mono
    (fun _ _ => trivial) fun _ => id

theorem TypeDef.derivesFrom_of_complex? {d : TypeDef} {x : ComplexDef} {base : QName}
    (hx : d.complex? = some x) (hb : x.derivation.base? = some base) : d.DerivesFrom base := by
  obtain ⟨name, isAbstract, body⟩ := d
  cases body with
  | complex y =>
    obtain rfl : y = x := Option.some.inj hx
    exact .complex rfl hb
  | builtin _ | restriction _ _ | list _ | union => cases hx

theorem layoutRule_offCircle (h : s.Straight) (context : String) :
    s.LayoutRule context (fun path _ x => ∀ base, x.derivation.base? = some base → Clear s.Derives path base)
      (fun _ _ => True) (fun _ _ => True) ResolveError.OffCircle where
  ownContent _ := ((viewRule_offCircle h context).ownContent fun _ _ _ _ _ _ _ => clear_nil).mono
    (fun _ _ => trivial) fun _ => id
  next {_ _ _ base} clear derived := by
    have ahead : Clear s.Derives _ base := clear base (by rw [derived]; rfl)
    refine (nextType_offCircle ahead.not_mem).mono (fun next _ y complex base' derived' => ?_) fun _ => id
    exact ahead.cons (h.types base) ⟨next.1, next.2.1, TypeDef.derivesFrom_of_complex? complex derived'⟩
  first _ _ := trivial
  extension _ _ _ _ _ := trivial

theorem layout_offCircle (h : s.Straight) (context : String) (path : List QName) (site : Site)
    (d : ComplexDef) (clear : ∀ base, d.derivation.base? = some base → Clear s.Derives path base) :
    Settles (s.layout context path site d) (fun _ => True) ResolveError.OffCircle :=
  (layoutRule_offCircle h context).layout clear

theorem attributeUses_offCircle (seen : List QName) (uses : List AttributeUse) :
    Settles (s.attributeUses seen uses) (fun _ => True) ResolveError.OffCircle := by
  have groups : ∀ name g, s.attributeGroup? name = some g →
      AttributeUse.mentionsList g.attributes ⊆ s.mentions ++ AttributeUse.mentionsList uses :=
    fun _ _ found => List.Subset.trans (mentions_of_attributeGroup? found) (List.subset_append_left _ _)
  exact (attributeUses_gathers groups seen uses (List.subset_append_right _ _)).mono (fun _ _ => trivial)
    fun _ => And.right

theorem inheritedAttributes_offCircle (h : s.Straight) (path : List QName) (d : TypeDef)
    (clear : ∀ base, d.DerivesFrom base → Clear s.Derives path base) :
    Settles (s.inheritedAttributes path d) (fun _ => True) ResolveError.OffCircle := by
  rw [inheritedAttributes]
  split
  · trivial
  · next x hx =>
    refine Settles.bind (Q := fun _ => True) ?_ fun _ _ =>
      (attributeUses_offCircle [] x.attributes).bind fun _ _ => True.intro
    split
    · next base hb =>
      have ahead : Clear s.Derives path base :=
        clear base (TypeDef.derivesFrom_of_complex? hx (by rw [hb]; rfl))
      refine (nextType_offCircle ahead.not_mem).bind fun next _ => ?_
      obtain ⟨b, hd, hp⟩ := next
      exact inheritedAttributes_offCircle h (base :: path) b fun base' hb' =>
        ahead.cons (h.types base) ⟨b, hd, hb'⟩
    · trivial
    · trivial
termination_by unvisited s.typeNames path
decreasing_by exact unvisited_cons_lt (mem_typeNames_of_type? hd) hp

end Walks

/-- The check finds exactly the circles.  After linking there is none: every walk along bases or into groups
comes to its end, and no walk of the resolution stops because a type or a group is open already. -/
theorem circles_exactly {s : DeclarationSet} (built : s.Built) :
    (s.Resolves s.mentions →
      ((∃ path, s.checkReferences = .error (.circular path)) ↔ s.Circular) ∧
        (¬ s.Circular → s.checkReferences = .ok ())) ∧
    ∀ linked, result link s = .ok linked →
      WellFounded linked.BaseOf ∧ WellFounded linked.OpenedFrom ∧ ∀ context path,
        (∀ site d, linked.layout context [] site d ≠ .error (.set (.circular path))) ∧
        (∀ d, linked.inheritedAttributes [] d ≠ .error (.set (.circular path))) ∧
        ∀ site occurs anonymous group,
          linked.viewGroup context [] site occurs anonymous group ≠ .error (.set (.circular path)) := by
  refine ⟨checkReferences_exact built.indexed, fun linked h => ?_⟩
  have straight : linked.Straight :=
    straight_of_checkReferences (built_of_link built h).indexed (checkReferences_of_link h).2
  refine ⟨straight.wellFounded_baseOf, straight.wellFounded_openedFrom, fun context path => ⟨?_, ?_, ?_⟩⟩
  · intro site d circle
    exact (layout_offCircle straight context [] site d fun _ _ => clear_nil).fault circle path rfl
  · intro d circle
    exact (inheritedAttributes_offCircle straight [] d fun _ _ => clear_nil).fault circle path rfl
  · intro site occurs anonymous group circle
    exact (viewGroup_offCircle straight context site occurs anonymous group).fault circle path rfl

def mirrors : SchemaDocument :=
  let name := fun localName => (⟨some "urn:mirrors", localName⟩ : QName)
  { targetNamespace := some "urn:mirrors"
    types := [⟨some (name "Left"), false, .complex ⟨.extension (name "Right"), .empty, [], false⟩⟩,
      ⟨some (name "Right"), false, .complex ⟨.restriction (name "Left"), .empty, [], false⟩⟩] }

def steps : SchemaDocument :=
  let name := fun localName => (⟨some "urn:steps", localName⟩ : QName)
  { targetNamespace := some "urn:steps"
    types := [⟨some (name "Base"), false, .complex .empty⟩,
      ⟨some (name "Top"), false, .complex ⟨.extension (name "Base"),
        .elements ⟨.sequence, .once, [.groupRef (name "Outer") .once]⟩, [], false⟩⟩]
    groups := [⟨name "Inner", ⟨.sequence, .once, []⟩⟩,
      ⟨name "Outer", ⟨.sequence, .once, [.group ⟨.choice, .once, [.groupRef (name "Inner") .once]⟩]⟩⟩] }

theorem mirrors_steps_circles :
    (∃ path, (exec (add mirrors) .empty).2.checkReferences = .error (.circular path)) ∧
      ∃ linked, result link (exec (add steps) .empty).2 = .ok linked ∧ WellFounded linked.BaseOf ∧
        ∀ context path site d, linked.layout context [] site d ≠ .error (.set (.circular path)) := by
  constructor
  · let s := (exec (add mirrors) .empty).2
    let left : QName := ⟨some "urn:mirrors", "Left"⟩
    let right : QName := ⟨some "urn:mirrors", "Right"⟩
    have declared : (s.mentions.all fun
        | .named kind name => s.declares kind name
        | .inline _ _ => true) = true := by decide +kernel
    have resolves : s.Resolves s.mentions := fun kind name hm => List.all_eq_true.1 declared _ hm
    have derives : ∀ name base, ((s.type? name).bind derivationBase? == some base) = true → s.Derives name base := by
      intro name base h
      obtain ⟨d, found, derived⟩ := Option.bind_eq_some_iff.1 (beq_iff_eq.1 h)
      exact ⟨d, found, TypeDef.derivesFrom_iff.2 derived⟩
    have derived : s.Derives left right := derives left right (by decide +kernel)
    have back : s.Derives right left := derives right left (by decide +kernel)
    have circular : s.Circular := .inl ⟨left, by decide +kernel, left, .refl, .tail (.single derived) back⟩
    exact ((circles_exactly (.add .empty mirrors)).1 resolves).1.2 circular
  · have run : ((result link (exec (add steps) .empty).2).toOption.any fun _ => true) = true := by
      decide +kernel
    obtain ⟨linked, h, -⟩ := exists_eq_ok_of_any run
    obtain ⟨bases, -, walks⟩ := (circles_exactly (.add .empty steps)).2 linked h
    exact ⟨linked, h, bases, fun context path => (walks context path).1⟩

end DeclarationSet

end SchemaGraph
