import SchemaGraph.Proofs.Resolution.Circles
import SchemaGraph.Proofs.Resolution.Effective
import SchemaGraph.Proofs.Resolution.Linked
import SchemaGraph.Proofs.Resolution.Sites

/-! Content under extension.  After linking every complex type has a layout, and the elements and wildcards
of the type that it extends stand in front of its own, whole and in order.  What a choice restates is left
out once for each member of the inherited layout. -/
namespace SchemaGraph

open Relation Stateful

section Members

mutual

/-- A member with nothing to tell where it stands. -/
def Member.unplaced : Member → Member
  | .element decl _ occurs => .element decl ⟨.type decl.name, []⟩ occurs
  | .group g => .group g.unplaced
  | .any => .any

def GroupView.unplaced : GroupView → GroupView
  | ⟨compositor, occurs, anonymous, members⟩ =>
    ⟨compositor, occurs, anonymous, Member.unplacedList members⟩

def Member.unplacedList : List Member → List Member
  | [] => []
  | m :: rest => m.unplaced :: Member.unplacedList rest

end

mutual

theorem Member.same_iff : ∀ m m' : Member, m.same m' = true ↔ m.unplaced = m'.unplaced
  | .element decl _ occurs, m' => by
    cases m' with
    | element decl' _ occurs' =>
      simp only [Member.same, Member.unplaced, Bool.and_eq_true, beq_iff_eq, Member.element.injEq]
      constructor
      · rintro ⟨rfl, rfl⟩
        exact ⟨rfl, rfl, rfl⟩
      · rintro ⟨rfl, -, rfl⟩
        exact ⟨rfl, rfl⟩
    | group _ | any => simp [Member.same, Member.unplaced]
  | .group g, m' => by
    cases m' with
    | group g' => simp [Member.same, Member.unplaced, GroupView.same_iff g g']
    | element _ _ _ | any => simp [Member.same, Member.unplaced]
  | .any, m' => by cases m' <;> simp [Member.same, Member.unplaced]

theorem GroupView.same_iff : ∀ g g' : GroupView, g.same g' = true ↔ g.unplaced = g'.unplaced
  | ⟨_, _, _, members⟩, ⟨_, _, _, members'⟩ => by
    simp [GroupView.same, GroupView.unplaced, Member.sameList_iff members members', and_assoc]

theorem Member.sameList_iff : ∀ l l' : List Member,
    Member.sameList l l' = true ↔ Member.unplacedList l = Member.unplacedList l'
  | [], l' => by cases l' <;> simp [Member.sameList, Member.unplacedList]
  | m :: rest, l' => by
    cases l' with
    | nil => simp [Member.sameList, Member.unplacedList]
    | cons m' rest' =>
      simp [Member.sameList, Member.unplacedList, Member.same_iff m m', Member.sameList_iff rest rest']

end

theorem Member.beq_iff {m m' : Member} : (m == m') = true ↔ m.unplaced = m'.unplaced :=
  Member.same_iff m m'

instance : EquivBEq Member where
  symm h := Member.beq_iff.2 (Member.beq_iff.1 h).symm
  trans h h' := Member.beq_iff.2 ((Member.beq_iff.1 h).trans (Member.beq_iff.1 h'))
  rfl := Member.beq_iff.2 rfl

variable {α : Type} [BEq α] [EquivBEq α]

theorem countP_erase (a b : α) (l : List α) :
    (l.erase b).countP (a == ·) = l.countP (a == ·) - if (a == b) = true then 1 else 0 := by
  induction l with
  | nil => simp
  | cons x l ih =>
    rw [List.erase_cons]
    by_cases taken : (x == b) = true
    · have same : (a == x) = (a == b) := BEq.congr_right taken
      rw [if_pos taken, List.countP_cons, same]
      omega
    · rw [if_neg taken, List.countP_cons, ih, List.countP_cons]
      by_cases equal : (a == b) = true
      · have other : ¬ (a == x) = true := fun h => taken (BEq.trans (BEq.symm h) equal)
        rw [if_pos equal, if_neg other]
        rfl
      · rw [if_neg equal]
        rfl

theorem countP_subtractInherited (a : α) (merged inherited : List α) :
    (subtractInherited merged inherited).countP (a == ·) =
      merged.countP (a == ·) - inherited.countP (a == ·) := by
  unfold subtractInherited
  induction inherited generalizing merged with
  | nil => rfl
  | cons b rest ih => rw [List.foldl_cons, ih, countP_erase, List.countP_cons, Nat.sub_sub, Nat.add_comm]

end Members

theorem TypeDef.extensionBase?_eq_some_iff {d : TypeDef} {base : QName} :
    d.extensionBase? = some base ↔ ∃ x, d.complex? = some x ∧ x.derivation = .extension base := by
  obtain ⟨name, isAbstract, body⟩ := d
  unfold extensionBase? complex?
  cases body with
  | complex x =>
    obtain ⟨derivation, content, attributes, anyAttribute⟩ := x
    cases derivation <;> simp
  | builtin _ | restriction _ _ | list _ | union => simp

namespace DeclarationSet

variable {s : DeclarationSet} {context : String} {path : List QName} {site : Site} {x : ComplexDef}
  {l : Layout}

section Layouts

/-- The layout that a complex type starts from: that of the complex type that it extends, or nothing. -/
inductive Underlies (s : DeclarationSet) (context : String) (path : List QName) (x : ComplexDef) :
    Layout → Prop
  | first (derived : ∀ base, x.derivation ≠ .extension base) : Underlies s context path x .empty
  | simple {base : QName} {b : TypeDef} (derived : x.derivation = .extension base)
      (found : s.type? base = some b) (new : base ∉ path) (simple : b.complex? = none) :
      Underlies s context path x .empty
  | complex {base : QName} {b : TypeDef} {y : ComplexDef} {below : Layout}
      (derived : x.derivation = .extension base) (found : s.type? base = some b) (new : base ∉ path)
      (complex : b.complex? = some y)
      (inherited : s.layout context (base :: path) ⟨.type base, []⟩ y = .ok below) :
      Underlies s context path x below

theorem Underlies.inherited {base : QName} {b : TypeDef} {y : ComplexDef} {below : Layout}
    (h : s.Underlies context path x below) (derived : x.derivation = .extension base) (found : s.type? base = some b)
    (complex : b.complex? = some y) : s.layout context (base :: path) ⟨.type base, []⟩ y = .ok below := by
  cases h with
  | first derived' => exact absurd derived (derived' base)
  | simple derived' found' _ simple =>
    cases derived.symm.trans derived'
    cases found.symm.trans found'
    cases simple.symm.trans complex
  | complex derived' found' _ complex' inherited =>
    cases derived.symm.trans derived'
    cases found.symm.trans found'
    cases complex.symm.trans complex'
    exact inherited

theorem layout_eq_ok_iff :
    s.layout context path site x = .ok l ↔ ∃ own below, s.ownContent context site x = .ok own ∧
      s.Underlies context path x below ∧ below.withOwn own = l := by
  rw [layout]
  simp only [bind_eq_ok_iff]
  constructor
  · rintro ⟨own, hown, below, hbelow, h⟩
    refine ⟨own, below, hown, ?_, Except.ok.inj h⟩
    split at hbelow
    · next base derived =>
      obtain ⟨⟨b, found, new⟩, -, hbelow⟩ := bind_eq_ok_iff.1 hbelow
      dsimp only at hbelow
      split at hbelow
      · next y complex => exact .complex derived found new complex hbelow
      · next simple =>
        cases hbelow
        exact .simple derived found new simple
    · next none =>
      cases hbelow
      exact .first fun base derived => by cases none.symm.trans derived
    · next restricted =>
      cases hbelow
      exact .first fun base derived => by cases restricted.symm.trans derived
  · rintro ⟨own, below, hown, hbelow, rfl⟩
    refine ⟨own, hown, below, ?_, rfl⟩
    cases hbelow with
    | first derived =>
      split
      · next base h => exact absurd h (derived base)
      · rfl
      · rfl
    | simple derived found new simple =>
      obtain ⟨h, next⟩ := nextType_eq_ok_iff.2 ⟨found, new⟩
      rw [derived]
      dsimp only
      refine bind_eq_ok_iff.2 ⟨_, next, ?_⟩
      dsimp only
      rw [simple]
      rfl
    | complex derived found new complex inherited =>
      obtain ⟨h, next⟩ := nextType_eq_ok_iff.2 ⟨found, new⟩
      rw [derived]
      dsimp only
      refine bind_eq_ok_iff.2 ⟨_, next, ?_⟩
      dsimp only
      rw [complex]
      exact inherited

theorem layout_of_subset {path path' : List QName} {site : Site} {x : ComplexDef} {l : Layout}
    (fewer : path' ⊆ path) (h : s.layout context path site x = .ok l) :
    s.layout context path' site x = .ok l := by
  obtain ⟨own, below, hown, hbelow, rfl⟩ := layout_eq_ok_iff.1 h
  refine layout_eq_ok_iff.2 ⟨own, below, hown, ?_, rfl⟩
  cases hbelow with
  | first derived => exact .first derived
  | simple derived found new simple => exact .simple derived found (fun h => new (fewer h)) simple
  | @complex base b y _ derived found new complex inherited =>
    have wider : base :: path' ⊆ base :: path := List.cons_subset_cons base fewer
    exact .complex derived found (fun h => new (fewer h)) complex (layout_of_subset wider inherited)
termination_by unvisited s.typeNames path
decreasing_by exact unvisited_cons_lt (mem_typeNames_of_type? found) new

theorem layout_prefix (h : s.layout context path site x = .ok l) {base far : QName} {f : TypeDef}
    {z : ComplexDef} (derived : x.derivation = .extension base)
    (chain : ReflTransGen s.ExtendsType base far) (found : s.type? far = some f)
    (complex : f.complex? = some z) :
    ∃ below, s.layout context [] ⟨.type far, []⟩ z = .ok below ∧ below.leaves <+: l.leaves := by
  -- One step down the chain.
  have step : ∀ {site x l base b y}, s.layout context [] site x = .ok l → x.derivation = .extension base →
      s.type? base = some b → b.complex? = some y →
      ∃ below, s.layout context [] ⟨.type base, []⟩ y = .ok below ∧ below.leaves <+: l.leaves := by
    intro site x l base b y h derived found complex
    obtain ⟨own, below, -, hbelow, rfl⟩ := layout_eq_ok_iff.1 h
    refine ⟨below, layout_of_subset (List.nil_subset _) (hbelow.inherited derived found complex), ?_⟩
    cases own with
    | none => exact List.prefix_rfl
    | some g =>
      rw [Layout.leaves_withOwn_some]
      exact List.prefix_append _ _
  replace h := layout_of_subset (List.nil_subset path) h
  induction chain using ReflTransGen.head_induction_on generalizing site x l with
  | refl => exact step h derived found complex
  | head extends_ _ ih =>
    obtain ⟨b, foundBase, next⟩ := extends_
    obtain ⟨y, complexBase, derivedBase⟩ := TypeDef.extensionBase?_eq_some_iff.1 next
    obtain ⟨below, hbelow, front⟩ := step h derived foundBase complexBase
    obtain ⟨bottom, hbottom, front'⟩ := ih derivedBase hbelow
    exact ⟨bottom, hbottom, front'.trans front⟩

end Layouts

section Checked

variable {d : TypeDef}

/-- The definition stands at the site: a named type, or the inline type of an element. -/
inductive DefinedAt (s : DeclarationSet) : TypeDef → Site → Prop
  | named {name : QName} {d : TypeDef} (declared : s.type? name = some d) : DefinedAt s d ⟨.type name, []⟩
  | inline {element : QName} {d : TypeDef} {site : Site} (placed : s.inlineAt site = some (element, d)) :
      DefinedAt s d site

theorem group_mentions_of_type {group : ModelGroup} (h : d.group? = some group) :
    group.mentions ⊆ d.mentions := by
  obtain ⟨x, complex, h⟩ := Option.bind_eq_some_iff.1 h
  rw [TypeDef.mentions_of_complex? complex]
  refine List.Subset.trans ?_ (ComplexDef.content_mentions x)
  split at h
  · next group' content =>
    obtain rfl := Option.some.inj h
    rw [content, Content.mentions]
    exact List.Subset.refl _
  · cases h
  · cases h

theorem inline_mentions {p : Particle} {element : QName} (h : p.inline? = some (element, d)) :
    d.mentions ⊆ p.mentions := by
  unfold Particle.inline? at h
  split at h
  · cases h
    rw [Particle.mentions, ElementDecl.mentions, TypeRef.mentions]
    exact fun _ hr => List.mem_append_right _ (List.mem_cons_of_mem _ hr)
  · cases h

theorem group_mentions {p : Particle} {group : ModelGroup} (h : p.group? = some group) :
    group.mentions ⊆ p.mentions := by
  unfold Particle.group? at h
  split at h
  · cases h
    rw [Particle.mentions]
    exact List.Subset.refl _
  · exact List.Subset.trans (group_mentions_of_type h) (@inline_mentions _ (.element _) _ rfl)
  · cases h

theorem resolves_builtin {name : QName} (found : s.type? name = some d) (new : s.types.get? name = none) :
    s.Resolves d.mentions := by
  rw [type?, new] at found
  rw [mentions_builtin found]
  exact resolves_nil

variable (checked : s.checkReferences = .ok ())
include checked

theorem resolves_of_type? {name : QName} (found : s.type? name = some d) : s.Resolves d.mentions := by
  cases declared : s.types.get? name with
  | none => exact resolves_builtin found declared
  | some d' =>
    rw [type?, declared] at found
    cases found
    exact (resolves_of_checkReferences checked).1 d ((OrderedMap.mem_values_iff _ _).2 ⟨name, declared⟩)

theorem resolves_of_element? {name : QName} {decl : ElementDecl} (found : s.element? name = some decl) :
    s.Resolves decl.mentions :=
  (resolves_of_checkReferences checked).2.1 decl ((OrderedMap.mem_values_iff _ _).2 ⟨name, found⟩)

theorem resolves_of_group? {name : QName} {g : ModelGroupDef} (found : s.group? name = some g) :
    s.Resolves g.group.mentions :=
  (resolves_of_checkReferences checked).2.2.1 g ((OrderedMap.mem_values_iff _ _).2 ⟨name, found⟩)

theorem resolves_groupAt {owner : SiteOwner} {path : List Nat} {group : ModelGroup}
    (found : s.groupAt owner path = some group) : s.Resolves group.mentions := by
  induction path generalizing group with
  | nil =>
    cases owner with
    | element name =>
      obtain ⟨decl, declared, found⟩ := Option.bind_eq_some_iff.1 found
      have resolves := resolves_of_element? checked declared
      refine resolves.mono (List.Subset.trans (group_mentions found) ?_)
      rw [Particle.mentions]
      exact List.Subset.refl _
    | type name =>
      obtain ⟨d, declared, found⟩ := Option.bind_eq_some_iff.1 found
      exact (resolves_of_type? checked declared).mono (group_mentions_of_type found)
    | group name =>
      obtain ⟨g, declared, rfl⟩ := Option.map_eq_some_iff.1 found
      exact resolves_of_group? checked declared
  | cons i path ih =>
    obtain ⟨p, found, inner⟩ := Option.bind_eq_some_iff.1 found
    obtain ⟨outer, around, found⟩ := Option.bind_eq_some_iff.1 found
    refine (ih around).mono (List.Subset.trans (group_mentions inner) ?_)
    exact ModelGroup.mentions_of_mem (List.mem_of_getElem? found)

theorem resolves_particleAt {p : Particle} (found : s.particleAt site = some p) : s.Resolves p.mentions := by
  unfold particleAt at found
  split at found
  · obtain ⟨decl, declared, rfl⟩ := Option.map_eq_some_iff.1 found
    rw [Particle.mentions]
    exact resolves_of_element? checked declared
  · cases found
  · obtain ⟨group, around, found⟩ := Option.bind_eq_some_iff.1 found
    exact (resolves_groupAt checked around).mono (ModelGroup.mentions_of_mem (List.mem_of_getElem? found))

theorem DefinedAt.resolves (there : s.DefinedAt d site) : s.Resolves d.mentions := by
  cases there with
  | named declared => exact resolves_of_type? checked declared
  | inline placed =>
    obtain ⟨p, found, inline⟩ := Option.bind_eq_some_iff.1 placed
    exact (resolves_particleAt checked found).mono (inline_mentions inline)

def declaresMention (s : DeclarationSet) : Mention → Bool
  | .named kind name => s.declares kind name
  | .inline _ _ => true

theorem exists_contentsWithin {mentioned : List Mention} (resolves : s.Resolves mentioned) :
    ∃ refs, s.ContentsWithin refs ∧ mentioned ⊆ refs ∧ s.Resolves refs := by
  let refs := (s.mentions ++ mentioned).filter s.declaresMention
  have kept : ∀ {l : List Mention}, s.Resolves l → l ⊆ s.mentions ++ mentioned → l ⊆ refs := by
    intro l known sub r hr
    refine List.mem_filter.2 ⟨sub hr, ?_⟩
    cases r with
    | named kind name => exact known kind name hr
    | inline _ _ => rfl
  have own : ∀ {l : List Mention}, s.Resolves l → l ⊆ s.mentions → l ⊆ refs := fun known sub =>
    kept known (List.Subset.trans sub (List.subset_append_left _ _))
  refine ⟨refs, ⟨fun _ _ found => ?_, fun _ _ found => ?_, fun _ _ found => ?_⟩, ?_, fun kind name hm => ?_⟩
  · exact own (resolves_of_type? checked found) (mentions_of_type? found)
  · exact own (resolves_of_element? checked found) (mentions_of_element? found)
  · exact own (resolves_of_group? checked found) (mentions_of_group? found)
  · exact kept resolves (List.subset_append_right _ _)
  · exact (List.mem_filter.1 hm).2

theorem exists_layout (straight : s.Straight) (context : String) (site : Site)
    (resolves : s.Resolves x.mentions) : ∃ l, s.layout context [] site x = .ok l := by
  obtain ⟨refs, within, mentioned, declared⟩ := exists_contentsWithin checked resolves
  have lost := layout_settles within context [] site x mentioned
  have straightAhead := layout_offCircle straight context [] site x fun _ _ => clear_nil
  cases outcome : s.layout context [] site x with
  | ok l => exact ⟨l, rfl⟩
  | error e =>
    rcases lost.fault outcome with ⟨path, rfl⟩ | ⟨kind, name, _, rfl, hm, unknown⟩
    · exact absurd rfl (straightAhead.fault outcome path)
    · rw [declared _ _ hm] at unknown
      cases unknown

end Checked

/-- What a complex type declares itself: no elements, or the group that stands there, with references
followed. -/
inductive OwnView (s : DeclarationSet) (x : ComplexDef) : Option GroupView → Prop
  | none (empty : ∀ group, x.content ≠ .elements group) : OwnView s x none
  | some {group : ModelGroup} {g : GroupView} (content : x.content = .elements group)
      (choice : g.isChoice = group.isChoice)
      (read : Reads s group.particles (g.leaves.map Leaf.decl?)) : OwnView s x (some g)

theorem ownView_of_ownContent {own : Option GroupView} (h : s.ownContent context site x = .ok own) :
    s.OwnView x own := by
  have read : Settles (s.ownContent context site x) (OwnContent s.ReadBefore x) fun _ => True :=
    (s.viewRule_read context).ownContent fun _ _ _ _ _ => trivial
  cases read.answer h with
  | plain other => exact .none other
  | group content each => exact .some content rfl (reads_of_readBefore each)

/-- Inheritance keeps content.  Every complex type of a linked set has a layout.  A type that extends another
starts with the elements and wildcards of that type, in their order; its own content follows, of which a
choice leaves out one equal member for each member that it inherits.  So along a chain of extensions the
content of each type is a prefix of the content of the types above.  A type that extends no complex type has
its own content and nothing else. -/
theorem layout_inherits {u s : DeclarationSet} (built : u.Built) (linked : result link u = .ok s)
    (context : String) {d : TypeDef} {site : Site} {x : ComplexDef} (there : s.DefinedAt d site)
    (complex : d.complex? = some x) :
    ∃ own l, s.ownContent context site x = .ok own ∧ s.OwnView x own ∧
      s.layout context [] site x = .ok l ∧
      (∀ base b y, x.derivation = .extension base → s.type? base = some b → b.complex? = some y →
        ∃ below, s.layout context [] ⟨.type base, []⟩ y = .ok below ∧
          (own = none → l.leaves = below.leaves) ∧
          ∀ g, own = some g →
            (g.isChoice = false ∨ below.members = [] → l.leaves = below.leaves ++ g.leaves) ∧
            (g.isChoice = true → below.members ≠ [] →
              ∃ rest, rest = subtractInherited g.members below.members ∧ rest.Sublist g.members ∧
                (∀ m, rest.countP (m == ·) = g.members.countP (m == ·) - below.members.countP (m == ·)) ∧
                l.leaves = below.leaves ++ Member.leavesList rest)) ∧
      (∀ base far f z, x.derivation = .extension base → ReflTransGen s.ExtendsType base far →
        s.type? far = some f → f.complex? = some z →
        ∃ below, s.layout context [] ⟨.type far, []⟩ z = .ok below ∧ below.leaves <+: l.leaves) ∧
      ((∀ base b y, x.derivation = .extension base → s.type? base = some b → b.complex? ≠ some y) →
        l.leaves = own.elim [] GroupView.leaves) := by
  have checked := (checkReferences_of_link linked).2
  have straight := straight_of_checkReferences (built_of_link built linked).indexed checked
  have resolves : s.Resolves x.mentions := by
    rw [← TypeDef.mentions_of_complex? complex]
    exact there.resolves checked
  obtain ⟨l, h⟩ := exists_layout checked straight context site resolves
  obtain ⟨own, below, hown, hbelow, made⟩ := layout_eq_ok_iff.1 h
  refine ⟨own, l, hown, ownView_of_ownContent hown, h, ?_, ?_, ?_⟩
  · intro base b y derived found complexBase
    have inherited := hbelow.inherited derived found complexBase
    refine ⟨below, layout_of_subset (List.nil_subset _) inherited, ?_, ?_⟩
    · rintro rfl
      rw [← made]
      rfl
    · rintro g rfl
      have leaves := Layout.leaves_withOwn_some below g
      rw [made] at leaves
      refine ⟨fun whole => ?_, fun choice _ => ?_⟩
      · have all : below.added g = g.members := by
          rcases whole with plain | none
          · rw [Layout.added, plain]
            rfl
          · exact Layout.added_of_isEmpty none g
        rw [leaves, all, g.leaves_eq]
      · rw [Layout.added, if_pos choice] at leaves
        exact ⟨_, rfl, subtractInherited_sublist _ _, fun m => countP_subtractInherited m _ _, leaves⟩
  · intro base far f z derived chain found complexFar
    exact layout_prefix h derived chain found complexFar
  · intro first
    have start : below = .empty := by
      cases hbelow with
      | first => rfl
      | simple => rfl
      | complex derived found _ complex' _ => exact absurd complex' (first _ _ _ derived found)
    subst start
    rw [← made]
    cases own with
    | none => rfl
    | some g => exact Layout.leaves_ofGroup g

/-- A card is a letter that restates a choice and adds to it; a parcel adds a sequence to a card. -/
def post : SchemaDocument :=
  let name := fun localName => (⟨some "urn:post", localName⟩ : QName)
  let element := fun localName =>
    Particle.element ⟨name localName, .named (.xsd "string"), .once, false, none⟩
  let complex := fun localName derivation compositor parts => (⟨some (name localName), false,
    .complex ⟨derivation, .elements ⟨compositor, .once, parts⟩, [], false⟩⟩ : TypeDef)
  { targetNamespace := some "urn:post"
    types := [complex "Letter" .none .choice [element "paper", element "seal"],
      complex "Card" (.extension (name "Letter")) .choice [element "seal", element "picture", element "paper"],
      complex "Parcel" (.extension (name "Card")) .sequence [element "box"]] }

theorem parcel_inherits :
    let name := fun localName => (⟨some "urn:post", localName⟩ : QName)
    ∃ s d x l below, result link (exec (add post) .empty).2 = .ok s ∧ s.type? (name "Parcel") = some d ∧
      d.complex? = some x ∧ s.layout "Parcel" [] ⟨.type (name "Parcel"), []⟩ x = .ok l ∧
      l.leaves.map (fun leaf => leaf.decl?.map (·.name.localName)) =
        ["paper", "seal", "picture", "box"].map some ∧
      (∃ b y, s.type? (name "Letter") = some b ∧ b.complex? = some y ∧
        s.layout "Parcel" [] ⟨.type (name "Letter"), []⟩ y = .ok below) ∧
      below.leaves <+: l.leaves := by
  intro name
  have run : ((result link (exec (add post) .empty).2).toOption.any fun s =>
      ((s.type? (name "Parcel")).bind TypeDef.complex?).any fun x =>
        decide (x.derivation = .extension (name "Card")) &&
        decide ((s.type? (name "Card")).bind TypeDef.extensionBase? = some (name "Letter")) &&
        ((s.type? (name "Letter")).bind TypeDef.complex?).isSome &&
        (s.layout "Parcel" [] ⟨.type (name "Parcel"), []⟩ x).toOption.any fun l =>
          decide (l.leaves.map (fun leaf => leaf.decl?.map (·.name.localName)) =
            ["paper", "seal", "picture", "box"].map some)) = true := by decide +kernel
  obtain ⟨s, linked, run⟩ := exists_eq_ok_of_any run
  obtain ⟨x, hx, run⟩ := (Option.any_eq_true _ _).1 run
  simp only [Bool.and_eq_true, decide_eq_true_eq] at run
  obtain ⟨⟨⟨derived, card⟩, letter⟩, run⟩ := run
  obtain ⟨l, h, contents⟩ := exists_eq_ok_of_any run
  obtain ⟨d, found, complex⟩ := Option.bind_eq_some_iff.1 hx
  obtain ⟨c, foundCard, extendsLetter⟩ := Option.bind_eq_some_iff.1 card
  obtain ⟨y, hy⟩ := Option.isSome_iff_exists.1 letter
  obtain ⟨b, foundLetter, complexLetter⟩ := Option.bind_eq_some_iff.1 hy
  obtain ⟨-, l', -, -, h', -, chain, -⟩ :=
    layout_inherits (.add .empty post) linked "Parcel" (.named found) complex
  cases h.symm.trans h'
  obtain ⟨below, hbelow, front⟩ := chain (name "Card") (name "Letter") b y derived
    (.single ⟨c, foundCard, extendsLetter⟩) foundLetter complexLetter
  exact ⟨s, d, x, l, below, linked, found, complex, h, of_decide_eq_true contents,
    ⟨b, y, foundLetter, complexLetter, hbelow⟩, front⟩

end DeclarationSet

end SchemaGraph
