import SchemaGraph.Proofs.Resolution.Inheritance
import SchemaGraph.Proofs.Resolution.Filling

/-! Which complex types are collections.  The bounds that count are those of the content group, unless a lone group
inside takes its place. -/
namespace SchemaGraph

open Stateful

def Particle.isRepeated : Particle → Bool
  | .element decl => decl.occurs.isRepeated
  | .elementRef _ occurs | .groupRef _ occurs => occurs.isRepeated
  | .group ⟨_, occurs, _⟩ => occurs.isRepeated
  | .any _ => false

def Member.isRepeated : Member → Bool
  | .element _ _ occurs => occurs.isRepeated
  | .group g => g.occurs.isRepeated
  | .any => false

/-- The group that counts: a group that is all there is takes the place of the group around it. -/
def ModelGroup.counting (g : ModelGroup) : ModelGroup :=
  match g.particles with
  | [.group inner] => inner
  | _ => g

theorem ModelGroup.counting_of_lone {g inner : ModelGroup} (h : g.particles = [.group inner]) :
    g.counting = inner := by
  rw [counting, h]

theorem ModelGroup.counting_eq_self {g : ModelGroup} (h : ∀ inner, g.particles ≠ [.group inner]) :
    g.counting = g := by
  unfold counting
  split
  · next inner particles => exact absurd particles (h inner)
  · rfl

/-- A sequence of one repeated particle. -/
def ModelGroup.repeatsOne (g : ModelGroup) : Bool :=
  g.compositor == .sequence &&
    match g.particles with
    | [p] => p.isRepeated
    | _ => false

def GroupView.counting (v : GroupView) : GroupView :=
  match v.members with
  | [.group inner] => if inner.anonymous then inner else v
  | _ => v

theorem GroupView.counting_of_lone {v inner : GroupView} (h : v.members = [.group inner])
    (unnamed : inner.anonymous = true) : v.counting = inner := by
  rw [counting, h]
  exact if_pos unnamed

theorem GroupView.counting_eq_self {v : GroupView}
    (h : ∀ inner, v.members = [.group inner] → inner.anonymous = false) : v.counting = v := by
  unfold counting
  split
  · next inner members => exact if_neg (Bool.eq_false_iff.1 (h inner members))
  · rfl

def GroupView.repeatsOne (v : GroupView) : Bool :=
  v.compositor == .sequence &&
    match v.members with
    | [m] => m.isRepeated
    | _ => false

theorem isRepeated_of_lone (members : List Member) :
    (match members with
      | [.element _ _ occurs] => occurs.isRepeated
      | [.group inner] => inner.occurs.isRepeated
      | _ => false) =
    match members with
      | [m] => m.isRepeated
      | _ => false := by
  rcases members with _ | ⟨m, _ | ⟨_, _⟩⟩
  · rfl
  · cases m <;> rfl
  · cases m <;> rfl

theorem Layout.isList_ofGroup (v : GroupView) :
    (ofGroup v).isList = (v.counting.occurs.isRepeated || v.counting.repeatsOne) :=
  congrArg (fun one => v.counting.occurs.isRepeated || (v.counting.compositor == .sequence && one))
    (isRepeated_of_lone _)

def TypeEntry.collapses (t : TypeEntry) : Bool :=
  t.attributes.isEmpty && t.elements.size == 1 && t.elements.values.all (·.isList)

namespace DeclarationSet

variable {s : DeclarationSet} {context : String} {path : List QName} {site : Site}

theorem viewGroup_eq_ok_iff {occurs : Occurs} {anonymous : Bool} {g : ModelGroup} {v : GroupView} :
    s.viewGroup context path site occurs anonymous g = .ok v ↔
      ∃ members, s.viewParticles context path site 0 g.particles = .ok members ∧
        v = ⟨g.compositor, occurs, anonymous, members⟩ := by
  obtain ⟨compositor, occurs', particles⟩ := g
  rw [viewGroup, bind_eq_ok_iff]
  exact exists_congr fun _ => and_congr_right fun _ => ⟨fun h => (Except.ok.inj h).symm, congrArg _ ∘ Eq.symm⟩

theorem viewParticles_cons_eq_ok_iff {index : Nat} {p : Particle} {rest : List Particle} {members : List Member} :
    s.viewParticles context path site index (p :: rest) = .ok members ↔
      ∃ m later, s.viewParticle context path (site.child index) p = .ok m ∧
        s.viewParticles context path site (index + 1) rest = .ok later ∧ members = m :: later := by
  rw [viewParticles, bind_eq_ok_iff]
  simp only [bind_eq_ok_iff]
  constructor
  · rintro ⟨m, hm, later, hlater, h⟩
    exact ⟨m, later, hm, hlater, (Except.ok.inj h).symm⟩
  · rintro ⟨m, later, hm, hlater, rfl⟩
    exact ⟨m, hm, later, hlater, rfl⟩

theorem viewParticles_nil_eq_ok_iff {index : Nat} {members : List Member} :
    s.viewParticles context path site index [] = .ok members ↔ members = [] := by
  rw [viewParticles]
  exact ⟨fun h => (Except.ok.inj h).symm, congrArg _ ∘ Eq.symm⟩

theorem isRepeated_of_viewParticle {p : Particle} {m : Member} (h : s.viewParticle context path site p = .ok m) :
    m.isRepeated = p.isRepeated := by
  unfold viewParticle at h
  split at h
  · cases h
    rfl
  · obtain ⟨decl, -, h⟩ := bind_eq_ok_iff.1 h
    cases h
    rfl
  · obtain ⟨v, hv, h⟩ := bind_eq_ok_iff.1 h
    obtain ⟨members, -, rfl⟩ := viewGroup_eq_ok_iff.1 hv
    cases h
    rfl
  · split at h
    · cases h
    · split at h
      · cases h
      · obtain ⟨v, hv, h⟩ := bind_eq_ok_iff.1 h
        obtain ⟨members, -, rfl⟩ := viewGroup_eq_ok_iff.1 hv
        cases h
        rfl
  · cases h
    rfl

theorem viewParticle_group_eq_ok_iff {g : ModelGroup} {m : Member} :
    s.viewParticle context path site (.group g) = .ok m ↔
      ∃ v, s.viewGroup context path site g.occurs true g = .ok v ∧ m = .group v := by
  obtain ⟨compositor, occurs, particles⟩ := g
  rw [viewParticle, bind_eq_ok_iff]
  exact exists_congr fun _ => and_congr_right fun _ => ⟨fun h => (Except.ok.inj h).symm, congrArg _ ∘ Eq.symm⟩

theorem not_anonymous_of_viewParticle {p : Particle} {v : GroupView} (other : ∀ g, p ≠ .group g)
    (h : s.viewParticle context path site p = .ok (.group v)) : v.anonymous = false := by
  unfold viewParticle at h
  split at h
  · cases h
  · obtain ⟨_, -, h⟩ := bind_eq_ok_iff.1 h
    cases h
  · exact absurd rfl (other _)
  · split at h
    · cases h
    · split at h
      · cases h
      · obtain ⟨v', hv, h⟩ := bind_eq_ok_iff.1 h
        obtain ⟨members, -, rfl⟩ := viewGroup_eq_ok_iff.1 hv
        cases h
        rfl
  · cases h

theorem repeatsOne_of_viewGroup {occurs : Occurs} {anonymous : Bool} {g : ModelGroup} {v : GroupView}
    (h : s.viewGroup context path site occurs anonymous g = .ok v) : v.repeatsOne = g.repeatsOne := by
  obtain ⟨members, hmembers, rfl⟩ := viewGroup_eq_ok_iff.1 h
  unfold GroupView.repeatsOne ModelGroup.repeatsOne
  refine congrArg _ ?_
  match particles : g.particles with
  | [] =>
    rw [particles] at hmembers
    cases viewParticles_nil_eq_ok_iff.1 hmembers
    rfl
  | [p] =>
    rw [particles] at hmembers
    obtain ⟨m, later, hm, hlater, rfl⟩ := viewParticles_cons_eq_ok_iff.1 hmembers
    cases viewParticles_nil_eq_ok_iff.1 hlater
    exact isRepeated_of_viewParticle hm
  | p :: q :: rest =>
    rw [particles] at hmembers
    obtain ⟨m, later, -, hlater, rfl⟩ := viewParticles_cons_eq_ok_iff.1 hmembers
    obtain ⟨m', later, -, -, rfl⟩ := viewParticles_cons_eq_ok_iff.1 hlater
    rfl

theorem counting_of_viewGroup {g : ModelGroup} {v : GroupView}
    (h : s.viewGroup context path site g.occurs true g = .ok v) :
    ∃ site', s.viewGroup context path site' g.counting.occurs true g.counting = .ok v.counting := by
  obtain ⟨members, hmembers, rfl⟩ := viewGroup_eq_ok_iff.1 h
  by_cases lone : ∃ inner, g.particles = [.group inner]
  · obtain ⟨inner, particles⟩ := lone
    rw [particles] at hmembers
    obtain ⟨m, later, hm, hlater, rfl⟩ := viewParticles_cons_eq_ok_iff.1 hmembers
    obtain ⟨v, hv, rfl⟩ := viewParticle_group_eq_ok_iff.1 hm
    cases viewParticles_nil_eq_ok_iff.1 hlater
    have unnamed : v.anonymous = true := by
      obtain ⟨members, -, rfl⟩ := viewGroup_eq_ok_iff.1 hv
      rfl
    rw [ModelGroup.counting_of_lone particles, GroupView.counting_of_lone rfl unnamed]
    exact ⟨_, hv⟩
  · rw [ModelGroup.counting_eq_self (not_exists.1 lone), GroupView.counting_eq_self ?_]
    · exact ⟨site, h⟩
    intro inner single
    dsimp only at single
    rw [single] at hmembers
    match particles : g.particles with
    | [] =>
      rw [particles] at hmembers
      cases viewParticles_nil_eq_ok_iff.1 hmembers
    | [p] =>
      rw [particles] at hmembers
      obtain ⟨m, later, hm, -, same⟩ := viewParticles_cons_eq_ok_iff.1 hmembers
      cases same
      exact not_anonymous_of_viewParticle (fun g' same => lone ⟨g', same ▸ particles⟩) hm
    | p :: q :: rest =>
      rw [particles] at hmembers
      obtain ⟨m, later, -, hlater, same⟩ := viewParticles_cons_eq_ok_iff.1 hmembers
      cases same
      obtain ⟨_, _, -, -, same⟩ := viewParticles_cons_eq_ok_iff.1 hlater
      cases same

end DeclarationSet

theorem isList_of_layout {s : DeclarationSet} {context : String} {site : Site} {x : ComplexDef} {group : ModelGroup}
    {l : Layout} (content : x.content = .elements group)
    (alone : ∀ below, s.Underlies context [] x below → below.members = [])
    (h : s.layout context [] site x = .ok l) :
    l.isList = (group.counting.occurs.isRepeated || group.counting.repeatsOne) := by
  obtain ⟨own, below, hown, hbelow, rfl⟩ := DeclarationSet.layout_eq_ok_iff.1 h
  rw [DeclarationSet.ownContent, content] at hown
  obtain ⟨v, hv, rfl⟩ := map_eq_ok_iff.1 hown
  obtain ⟨site', counting⟩ := DeclarationSet.counting_of_viewGroup hv
  have made : below.withOwn (some v) = Layout.ofGroup v := by
    rw [Layout.withOwn, alone below hbelow]
    rfl
  have repeats := DeclarationSet.repeatsOne_of_viewGroup counting
  obtain ⟨members, -, same⟩ := DeclarationSet.viewGroup_eq_ok_iff.1 counting
  rw [made, Layout.isList_ofGroup, repeats, same]

/-- A complex type whose base adds nothing is a collection if its content group repeats, or if the only group inside
does.  The exception is a lone group inside that does not repeat: it hides the bounds of the content group, and the
type is then a collection only if that group is a sequence of one repeated particle or the only element of the entry
repeats. -/
theorem repetition_kept {c : ResolveContext} {depth : Nat} {id : TypeId} {d : TypeDef} {x : ComplexDef} {site : Site}
    {s t : ResolveState} {type : TypeEntry} {group : ModelGroup} (hd : d.isSimple = false)
    (hx : d.complex? = some x) (entry : s.types.get? id = some type) (content : x.content = .elements group)
    (alone : ∀ below, c.set.Underlies type.key [] x below → below.members = [])
    (h : Yields (fillTo c (depth + 1) id d site) s () t) :
    ∃ filled, t.types.get? id = some filled ∧
      ((∀ inner, group.particles ≠ [.group inner]) → group.occurs.isRepeated = true → filled.isList = true) ∧
      (∀ inner, group.particles = [.group inner] → inner.occurs.isRepeated = true → filled.isList = true) ∧
      (∀ inner, group.particles = [.group inner] → inner.occurs.isRepeated = false →
        filled.isList = (inner.repeatsOne || filled.collapses)) ∧
      ∀ depth' d' site' context, Keeps (fun w => w.types.get? id = some filled)
        (resolveType c (fillTo c depth') d' site' context) := by
  obtain ⟨x', layout, filled, before, found, u, v, hx', hlayout, -, -, -, hfilled, same⟩ :=
    exists_filled resolve_adds hd h
  obtain rfl := Option.some.inj (hx.symm.trans hx')
  have grown : s.Grows 0 t :=
    (fillTo_grows (Nat.zero_le _) (depth + 1) id d site (Nat.zero_le _) s (.refl 0 s)).answer h
  rw [grown.key_eq entry hfilled] at hlayout
  have isList : filled.isList =
      (group.counting.occurs.isRepeated || group.counting.repeatsOne || filled.collapses) := by
    rw [← isList_of_layout content alone hlayout, same]
    rfl
  refine ⟨filled, hfilled, fun other repeated => ?_,
    fun inner lone repeated => ?_, fun inner lone once => ?_,
    fun depth' d' site' context => resolve_keeps_entry c depth' d' site' context id filled⟩
  · rw [isList, ModelGroup.counting_eq_self other, repeated]
    rfl
  · rw [isList, ModelGroup.counting_of_lone lone, repeated]
    rfl
  · rw [isList, ModelGroup.counting_of_lone lone, once, Bool.false_or]

def archiveName (localName : String) : QName := ⟨some "urn:archive", localName⟩

def archive : ResolveContext :=
  let text := fun localName =>
    (.element ⟨archiveName localName, .named (.xsd "string"), .once, false, none⟩ : Particle)
  let many : Occurs := ⟨0, .unbounded⟩
  let type := fun localName group =>
    (⟨some (archiveName localName), false, .complex ⟨.none, .elements group, [], false⟩⟩ : TypeDef)
  let set := (exec (DeclarationSet.add
    { targetNamespace := some "urn:archive"
      types := [type "File" ⟨.sequence, many, [text "letter", text "photo"]⟩,
        type "Box" ⟨.sequence, .once, [.group ⟨.sequence, many, [text "label", text "shelf"]⟩]⟩,
        type "Log" ⟨.sequence, many, [.group ⟨.sequence, .once, [text "time", text "entry"]⟩]⟩] }) .empty).2
  ⟨set, .ofSet set, {}, {}⟩

def archiveShape (localName : String) : Content → Bool
  | .elements ⟨_, occurs, [.element _, .element _]⟩ => localName == "File" && occurs.isRepeated
  | .elements ⟨_, _, [.group inner]⟩ =>
    localName != "File" && inner.occurs.isRepeated == (localName != "Log") && !inner.repeatsOne
  | _ => false

theorem archive_collections :
    let s := fun localName => (exec (Resolve.reserve (archiveName localName) false) .empty).2
    ∀ localName ∈ ["File", "Box", "Log"], ∃ d t filled, archive.set.type? (archiveName localName) = some d ∧
      Yields (fillTo archive 7 ⟨0⟩ d (siteOfType (archiveName localName))) (s localName) () t ∧
      t.types.get? ⟨0⟩ = some filled ∧ filled.isList = (localName != "Log") := by
  intro s localName hname
  have run : (["File", "Box", "Log"].all fun localName => (archive.set.type? (archiveName localName)).any fun d =>
      !d.isSimple && d.complex?.any fun x => decide (x.derivation = .none) && archiveShape localName x.content &&
      ((s localName).types.get? ⟨0⟩).isSome &&
      gives (fillTo archive 7 ⟨0⟩ d (siteOfType (archiveName localName))) (s localName) fun _ t =>
        (t.types.get? ⟨0⟩).any fun filled => !filled.collapses) = true := by decide +kernel
  obtain ⟨d, declared, run⟩ := (Option.any_eq_true _ _).1 (List.all_eq_true.1 run localName hname)
  rw [Bool.and_eq_true, Bool.not_eq_true'] at run
  obtain ⟨complex, run⟩ := run
  obtain ⟨x, hx, run⟩ := (Option.any_eq_true _ _).1 run
  rw [Bool.and_eq_true, Bool.and_eq_true, Bool.and_eq_true, decide_eq_true_eq] at run
  obtain ⟨⟨⟨derived, shape⟩, here⟩, run⟩ := run
  obtain ⟨type, entry⟩ := Option.isSome_iff_exists.1 here
  obtain ⟨_, t, populated, run⟩ := gives_iff.1 run
  have alone : ∀ below, archive.set.Underlies type.key [] x below → below.members = [] := by
    rintro below (_ | ⟨extends_, -, -, -⟩ | ⟨extends_, -, -, -, -⟩)
    · rfl
    all_goals cases derived.symm.trans extends_
  obtain ⟨filled, hfilled, run⟩ := (Option.any_eq_true _ _).1 run
  rw [Bool.not_eq_true'] at run
  unfold archiveShape at shape
  split at shape
  case h_1 occurs decl decl' content =>
    rw [Bool.and_eq_true, beq_iff_eq] at shape
    obtain ⟨rfl, repeated⟩ := shape
    obtain ⟨filled', hfilled', other, -⟩ := repetition_kept complex hx entry content alone populated
    exact ⟨d, t, filled', declared, populated, hfilled', other (fun _ => nofun) repeated⟩
  case h_2 occurs inner content =>
    simp only [Bool.and_eq_true, bne_iff_ne, beq_iff_eq, Bool.not_eq_true'] at shape
    obtain ⟨⟨other, repeated⟩, plain⟩ := shape
    obtain ⟨filled', hfilled', -, kept, lost, -⟩ := repetition_kept complex hx entry content alone populated
    refine ⟨d, t, filled', declared, populated, hfilled', ?_⟩
    obtain rfl := Option.some.inj (hfilled.symm.trans hfilled')
    cases once : inner.occurs.isRepeated with
    | true =>
      rw [kept inner rfl once, ← repeated, once]
    | false =>
      rw [lost inner rfl once, plain, run, ← repeated, once]
      rfl
  case h_3 => cases shape

end SchemaGraph
