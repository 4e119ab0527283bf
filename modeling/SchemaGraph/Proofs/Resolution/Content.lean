import SchemaGraph.Proofs.Resolution.Effective
import SchemaGraph.Proofs.Resolution.Placing

/-! What becomes of the content of a complex type.  Places once taken stay, everything in the content takes
one or leaves a remark, and nothing but the content takes any. -/
namespace SchemaGraph

open Stateful

/-- `q` has come out of `p`: places have come at the end only, and the state has grown. -/
structure Progress.Leads (p q : Progress) : Prop where
  places : p.places <+: q.places
  state : p.state.Grows p.state.types.size q.state

namespace Progress.Leads

variable {p q r : Progress}

theorem refl (p : Progress) : p.Leads p := ⟨List.prefix_rfl, .refl _ _⟩

theorem trans (h : p.Leads q) (h' : q.Leads r) : p.Leads r :=
  ⟨h.places.trans h'.places, h.state.trans (h'.state.of_le h.state.size_le)⟩

theorem after {t : ResolveState} (h : p.state.Grows p.state.types.size t) : p.Leads (p.after t) :=
  ⟨List.prefix_rfl, h⟩

theorem enter (h : p.Leads q) (key : String) (id : TypeId) : p.Leads (q.enter key id) :=
  ⟨h.places.trans (List.prefix_append _ _), h.state⟩

theorem remark (h : p.Leads q) (kind : DiagnosticKind) (subject message : String) :
    p.Leads (q.remark kind subject message) :=
  ⟨h.places, h.state.trans (.diagnose _ _ _)⟩

theorem skip (h : p.Leads q) (key : String) : p.Leads (q.skip key) :=
  ⟨h.places, h.state.trans (.skip _ _ _)⟩

theorem keys (h : p.Leads q) : p.keys <+: q.keys := List.IsPrefix.map _ h.places

end Progress.Leads

section Leads

variable {c : ResolveContext} {resolve : ResolveType} {owner : String} {p q : Progress}
  (hresolve : ∀ (s : ResolveState) d site context,
    Keeps (s.Grows s.types.size) (resolve d site context))
include hresolve

theorem ElementPlaced.leads {decl : ElementDecl} {site : Site} {answer : Option TypeId}
    (h : ElementPlaced c resolve owner decl site p answer q) : p.Leads q := by
  have grown : ∀ {answer t}, Yields (resolveRef c resolve site (some decl.name) decl.typeRef) p.state
      answer t → p.Leads (p.after t) := fun typed =>
    .after ((resolveRef_keeps (hresolve p.state) p.state (.refl _ _)).answer typed)
  cases h with
  | entered typed _ => exact (grown typed).enter _ _
  | duplicate typed _ => exact (grown typed).remark _ _ _
  | skipped untyped _ => exact ((grown untyped).skip _).remark _ _ _

theorem SubtypePlaced.leads {name : QName} (h : SubtypePlaced c resolve name p q) : p.Leads q := by
  cases h with
  | abstract => exact .refl p
  | entered _ _ typed _ =>
    exact .enter (.after ((hresolve _ _ _ _ _ (.refl _ _)).answer typed)) _ _

theorem RestPlaced.leads {decl : ElementDecl} {answer : Option TypeId}
    (h : RestPlaced c resolve owner decl answer p q) : p.Leads q := by
  cases h with
  | members _ placed =>
    exact placed.lift .refl (fun _ _ _ => .trans) fun _ _ _ _ ⟨_, _, _, h⟩ => h.leads hresolve
  | nothing => exact .refl p
  | subtypes _ _ _ _ _ placed =>
    have below := placed.lift .refl (fun _ _ _ => .trans) fun _ _ _ _ h => h.leads hresolve
    split
    · exact below.remark _ _ _
    · exact below

theorem LeafPlaced.leads {leaf : Leaf} (h : LeafPlaced c resolve owner leaf p q) : p.Leads q := by
  cases h with
  | element own rest => exact (own.leads hresolve).trans (rest.leads hresolve)
  | wildcard => exact .remark (.refl p) _ _ _

theorem Through.leads {l : List Leaf} (h : Through (LeafPlaced c resolve owner) l p q) : p.Leads q :=
  h.lift .refl (fun _ _ _ => .trans) fun _ _ _ _ h => h.leads hresolve

end Leads

/-- The key is the name of the element itself, of a member of its substitution group, or of a concrete type
below the abstract type that the element has. -/
inductive StandsFor (c : ResolveContext) (p : Progress) : Leaf → String → Prop
  | own {decl : ElementDecl} {site : Site} {occurs : Occurs} :
      StandsFor c p (.element decl site occurs) decl.name.clark
  | member {decl member : ElementDecl} {site : Site} {occurs : Occurs} {name : QName}
      (joined : name ∈ c.set.substitutes decl.name) (declared : c.set.element? name = some member) :
      StandsFor c p (.element decl site occurs) member.name.clark
  | subtype {decl : ElementDecl} {site : Site} {occurs : Occurs} {id : TypeId} {type : TypeEntry}
      {name : QName} {d : TypeDef} (place : (decl.name.clark, id) ∈ p.places)
      (entry : p.state.types.get? id = some type) (isAbstract : type.isAbstract = true)
      (below : name ∈ c.hierarchy.descendants type.name) (declared : c.set.type? name = some d)
      (concrete : d.isAbstract = false) :
      StandsFor c p (.element decl site occurs) name.clark

section Origin

variable {c : ResolveContext} {resolve : ResolveType} {owner : String} {p q r : Progress}

theorem StandsFor.later {n : Nat} {leaf : Leaf} {key : String} (h : StandsFor c p leaf key)
    (places : p.places <+: q.places) (state : p.state.Grows n q.state) : StandsFor c q leaf key := by
  cases h with
  | own => exact .own
  | member joined declared => exact .member joined declared
  | subtype place entry isAbstract below declared concrete =>
    obtain ⟨type', entry', head⟩ := state.get?_head entry
    refine .subtype (places.subset place) entry' ((congrArg Prod.snd head).trans isAbstract) ?_
      declared concrete
    rwa [show type'.name = _ from congrArg Prod.fst head]

theorem mem_keys_enter {key key' : String} {id : TypeId} (h : key ∈ (p.enter key' id).keys) :
    key ∈ p.keys ∨ key = key' := by
  simpa [Progress.keys, Progress.enter] using h

theorem ElementPlaced.origin {decl : ElementDecl} {site : Site} {answer : Option TypeId}
    (h : ElementPlaced c resolve owner decl site p answer q) {key : String} (hk : key ∈ q.keys) :
    key ∈ p.keys ∨ key = decl.name.clark := by
  cases h with
  | entered => exact mem_keys_enter hk
  | duplicate => exact .inl hk
  | skipped => exact .inl hk

theorem ElementPlaced.mem_places {decl : ElementDecl} {site : Site} {id : TypeId}
    (h : ElementPlaced c resolve owner decl site p (some id) q) : (decl.name.clark, id) ∈ q.places := by
  cases h with
  | entered => exact List.mem_append_right _ (List.mem_singleton.2 rfl)

theorem SubtypePlaced.origin {name : QName} (h : SubtypePlaced c resolve name p q) {key : String}
    (hk : key ∈ q.keys) :
    key ∈ p.keys ∨ key = name.clark ∧ ∃ d, c.set.type? name = some d ∧ d.isAbstract = false := by
  cases h with
  | abstract => exact .inl hk
  | entered declared concrete => exact (mem_keys_enter hk).imp id fun h => ⟨h, _, declared, concrete⟩

theorem Through.origin {α : Type} {R : α → Progress → Progress → Prop} {P : α → String → Prop}
    {l : List α} (step : ∀ a ∈ l, ∀ p q, R a p q → ∀ key ∈ q.keys, key ∈ p.keys ∨ P a key)
    (h : Through R l p q) {key : String} (hk : key ∈ q.keys) : key ∈ p.keys ∨ ∃ a ∈ l, P a key := by
  induction h with
  | nil => exact .inl hk
  | cons ha _ ih =>
    rcases ih (fun a hm => step a (by simp [hm])) hk with hk | ⟨a, hm, hp⟩
    · rcases step _ (by simp) _ _ ha key hk with hk | hp
      · exact .inl hk
      · exact .inr ⟨_, by simp, hp⟩
    · exact .inr ⟨a, by simp [hm], hp⟩

theorem RestPlaced.origin {decl : ElementDecl} {site : Site} {occurs : Occurs}
    {answer : Option TypeId} (h : RestPlaced c resolve owner decl answer p q)
    (place : ∀ id, answer = some id → (decl.name.clark, id) ∈ p.places) {key : String}
    (hk : key ∈ q.keys) : key ∈ p.keys ∨ StandsFor c p (.element decl site occurs) key := by
  cases h with
  | members _ placed =>
    refine (placed.origin (P := fun name key => ∃ member, c.set.element? name = some member ∧
      key = member.name.clark) ?_ hk).imp id ?_
    · rintro name - p q ⟨member, _, declared, h⟩ key hk
      exact (h.origin hk).imp id fun h => ⟨member, declared, h⟩
    · rintro ⟨name, joined, member, declared, rfl⟩
      exact .member joined declared
  | nothing => exact .inl hk
  | @subtypes typeId type below _ typed entry isAbstract _ placed =>
    have hk : key ∈ below.keys := by
      split at hk <;> exact hk
    refine (placed.origin (P := fun name key => key = name.clark ∧ ∃ d, c.set.type? name = some d ∧
      d.isAbstract = false) (fun _ _ _ _ h _ => h.origin) hk).imp id ?_
    rintro ⟨name, hbelow, rfl, d, declared, concrete⟩
    exact .subtype (place typeId typed) entry isAbstract hbelow declared concrete

variable (hresolve : ∀ (s : ResolveState) d site context,
  Keeps (s.Grows s.types.size) (resolve d site context))
include hresolve

theorem LeafPlaced.origin {leaf : Leaf} (h : LeafPlaced c resolve owner leaf p q) {key : String}
    (hk : key ∈ q.keys) : key ∈ p.keys ∨ StandsFor c q leaf key := by
  cases h with
  | @element decl site occurs answer _ between _ own rest =>
    have later := rest.leads hresolve
    have place : ∀ id, answer = some id → (decl.name.clark, id) ∈ between.places := by
      rintro id rfl
      exact own.mem_places
    have origin : key ∈ between.keys ∨ StandsFor c between (.element decl site occurs) key :=
      rest.origin place hk
    rcases origin with hk | h
    · refine (own.origin hk).imp id ?_
      rintro rfl
      exact .own
    · exact .inr (h.later later.places later.state)
  | wildcard => exact .inl hk

theorem Through.standsFor {l : List Leaf} (h : Through (LeafPlaced c resolve owner) l p q) {key : String}
    (hk : key ∈ q.keys) : key ∈ p.keys ∨ ∃ leaf ∈ l, StandsFor c q leaf key := by
  induction h with
  | nil => exact .inl hk
  | cons ha rest ih =>
    have later := rest.leads hresolve
    rcases ih hk with hk | ⟨leaf, hm, h⟩
    · rcases ha.origin hresolve hk with hk | h
      · exact .inl hk
      · exact .inr ⟨_, List.mem_cons_self .., h.later later.places later.state⟩
    · exact .inr ⟨leaf, List.mem_cons_of_mem _ hm, h⟩

end Origin

theorem TypeDef.exists_complex? {d : TypeDef} (h : d.isSimple = false) : ∃ x, d.complex? = some x := by
  obtain ⟨name, isAbstract, body⟩ := d
  cases body with
  | complex x => exact ⟨x, rfl⟩
  | builtin _ => cases h
  | restriction _ _ => cases h
  | list _ => cases h
  | union => cases h

section Fillings

variable {c : ResolveContext} {resolve : ResolveType} {id : TypeId} {d : TypeDef} {site : Site} {s t : ResolveState}
  (hresolve : ∀ d site context, Keeps (s.Grows 0) (resolve d site context))
include hresolve

theorem last_of_fillWith (h : Yields (fillWith c resolve id d site) s () t) :
    ∃ u, s.Grows 0 u ∧ Yields (if d.isSimple then fillScalar c resolve id d else
      match d.complex? with
      | some x => fillComplex c resolve id x site
      | none => pure ()) u () t := by
  unfold fillWith at h
  obtain ⟨l, -, h⟩ := yields_ofExcept_bind.1 h
  rw [yields_bind] at h
  obtain ⟨_, u, hattributes, h⟩ := h
  rw [yields_bind] at h
  obtain ⟨_, v, hany, h⟩ := h
  have attributes : s.Grows 0 u :=
    (Keeps.forM (fun _ _ => fillAttribute_keeps hresolve stable_grows (Nat.zero_le _)) s (.refl 0 s)).answer hattributes
  have marks : Keeps (s.Grows 0)
      (Resolve.modifyType id fun t => { t with anyAttribute := l.anyAttribute }) :=
    stable_grows.filling _ (Nat.zero_le _) fun _ => ⟨rfl, fun simple => simple⟩
  have any : s.Grows 0 v := (marks u attributes).answer hany
  exact ⟨v, any, h⟩

theorem fillComplex_of_fillWith {x : ComplexDef} (hd : d.isSimple = false) (hx : d.complex? = some x)
    (h : Yields (fillWith c resolve id d site) s () t) :
    ∃ u, s.Grows 0 u ∧ Yields (fillComplex c resolve id x site) u () t := by
  obtain ⟨u, before, h⟩ := last_of_fillWith hresolve h
  rw [hd, hx] at h
  exact ⟨u, before, h⟩

theorem fillScalar_of_fillWith (hd : d.isSimple = true) (h : Yields (fillWith c resolve id d site) s () t) :
    ∃ u, s.Grows 0 u ∧ Yields (fillScalar c resolve id d) u () t := by
  obtain ⟨u, before, h⟩ := last_of_fillWith hresolve h
  rw [if_pos hd] at h
  exact ⟨u, before, h⟩

end Fillings

/-- No content is lost.  When a complex type has been filled, every element and every wildcard of its
effective content has been gone through in order: each element and each member of its substitution group
has taken the next place or left one remark, and each wildcard has left one remark.  All keys of the entry
come from there, no place is given up once it is taken, and nothing that is resolved later changes the
entry. -/
theorem content_accounted {c : ResolveContext} {depth : Nat} {id : TypeId} {d : TypeDef} {site : Site}
    {s t : ResolveState} (hd : d.isSimple = false)
    (h : Yields (fillTo c (depth + 1) id d site) s () t) :
    ∃ x layout entry u v, d.complex? = some x ∧ t.types.get? id = some entry ∧
      c.set.layout entry.key [] site x = .ok layout ∧
      Effective c.set x (layout.leaves.map Leaf.decl?) ∧
      s.diagnostics <+: u.diagnostics ∧ v.diagnostics = t.diagnostics ∧
      let Placed := LeafPlaced c (resolveType c (fillTo c depth)) entry.key
      Through Placed layout.leaves ⟨[], u⟩ ⟨entry.elements.places, v⟩ ∧
      (∀ before after, layout.leaves = before ++ after → ∃ p,
        Through Placed before ⟨[], u⟩ p ∧ Through Placed after p ⟨entry.elements.places, v⟩ ∧
        p.keys <+: entry.elements.keys ∧ p.state.diagnostics <+: t.diagnostics) ∧
      (∀ key ∈ entry.elements.keys, ∃ leaf ∈ layout.leaves,
        StandsFor c ⟨entry.elements.places, t⟩ leaf key) ∧
      ∀ depth' d' site' context, Keeps (fun w => w.types.get? id = some entry)
        (resolveType c (fillTo c depth') d' site' context) := by
  obtain ⟨x, hx⟩ := TypeDef.exists_complex? hd
  obtain ⟨u, before, h⟩ := fillComplex_of_fillWith resolve_adds hd hx h
  obtain ⟨old, layout, v, entry, hold, hlayout, through, hentry, later, remarks⟩ :=
    through_of_fillComplex h
  have content : u.Grows 0 t := (fillComplex_grows resolve_adds (Nat.zero_le _) u (.refl 0 u)).answer h
  -- Remarks were made in the name that the entry had before, which it has kept.
  have key : old.key = entry.key := (content.key_eq hold hentry).symm
  rw [key] at hlayout through
  refine ⟨x, layout, entry, u, v, hx, hentry, hlayout, ?_, before.diagnostics, remarks, through, ?_, ?_,
    fun depth' d' site' context => resolve_keeps_entry c depth' d' site' context id entry⟩
  · exact (DeclarationSet.layout_effective c.set entry.key [] site x).answer hlayout
  · intro first last hsplit
    rw [hsplit] at through
    obtain ⟨p, hfirst, hlast⟩ := Through.append_iff.1 through
    have leads := Through.leads (resolve_grows c depth) hlast
    refine ⟨p, hfirst, hlast, ?_, remarks ▸ leads.state.diagnostics⟩
    rw [← ElementMap.map_fst_places]
    exact leads.keys
  · intro key hk
    rw [← ElementMap.map_fst_places] at hk
    rcases through.standsFor (resolve_grows c depth) hk with hk | ⟨leaf, hm, h⟩
    · cases hk
    · exact ⟨leaf, hm, h.later List.prefix_rfl later⟩

/-- A cage takes its elements by every route: its own, in a group, by reference, as members of a substitution
group and below an abstract type. -/
def zoo : DeclarationSet :=
  let name := fun localName => (⟨some "urn:zoo", localName⟩ : QName)
  let text : TypeRef := .named (.xsd "string")
  let element := fun localName typeRef => (⟨name localName, typeRef, .once, false, none⟩ : ElementDecl)
  let animal := fun localName => (⟨some (name localName), false,
    .complex ⟨.extension (name "Animal"), .empty, [], false⟩⟩ : TypeDef)
  (exec (DeclarationSet.add
    { targetNamespace := some "urn:zoo"
      types := [⟨some (name "Animal"), true, .complex .empty⟩, animal "Cat", animal "Dog",
        ⟨some (name "Cage"), false, .complex ⟨.none, .elements ⟨.sequence, .once,
          [.element (element "keeper" text),
            .group ⟨.sequence, .once, [.element (element "label" text)]⟩,
            .groupRef (name "Extras") .once, .elementRef (name "food") .once,
            .element (element "animal" (.named (name "Animal"))), .any .once,
            .element (element "label" text)]⟩, [], false⟩⟩]
      elements := [element "food" text, { element "hay" text with head := some (name "food") }]
      groups := [⟨name "Extras", ⟨.sequence, .once, [.element (element "note" text)]⟩⟩] }) .empty).2

theorem cage_accounted :
    let name := fun localName => (⟨some "urn:zoo", localName⟩ : QName)
    let c : ResolveContext := ⟨zoo, .ofSet zoo, {}, {}⟩
    let s := (exec (Resolve.reserve (name "Cage") false) .empty).2
    ∃ d t entry x layout, zoo.type? (name "Cage") = some d ∧ d.isSimple = false ∧
      Yields (fillTo c 7 ⟨0⟩ d (siteOfType (name "Cage"))) s () t ∧
      t.types.get? ⟨0⟩ = some entry ∧
      entry.elements.keys = ["keeper", "label", "note", "food", "hay", "animal", "Cat", "Dog"].map
        (fun localName => (name localName).clark) ∧
      t.diagnostics.map Diagnostic.kind = [.skippedWildcard, .duplicateElement] ∧
      zoo.layout entry.key [] (siteOfType (name "Cage")) x = .ok layout ∧
      ∀ key ∈ entry.elements.keys, ∃ leaf ∈ layout.leaves,
        StandsFor c ⟨entry.elements.places, t⟩ leaf key := by
  intro name c s
  have run : ((zoo.type? (name "Cage")).any fun d => !d.isSimple &&
      match exec (fillTo c 7 ⟨0⟩ d (siteOfType (name "Cage"))) s with
      | (.ok (), t) => decide (t.diagnostics.map Diagnostic.kind = [.skippedWildcard, .duplicateElement]) &&
        decide ((t.types.get? ⟨0⟩).map (fun entry => entry.elements.keys) =
          some (["keeper", "label", "note", "food", "hay", "animal", "Cat", "Dog"].map
            fun localName => (name localName).clark))
      | (.error _, _) => false) = true := by decide +kernel
  obtain ⟨d, declared, run⟩ := (Option.any_eq_true _ _).1 run
  rw [Bool.and_eq_true, Bool.not_eq_true'] at run
  obtain ⟨complex, run⟩ := run
  split at run
  · next t filled =>
    simp only [Bool.and_eq_true, decide_eq_true_eq] at run
    obtain ⟨remarks, keys⟩ := run
    obtain ⟨x, layout, entry, u, v, -, hentry, hlayout, -, -, -, -, -, origin, -⟩ :=
      content_accounted complex filled
    rw [hentry] at keys
    exact ⟨d, t, entry, x, layout, declared, complex, filled, hentry, Option.some.inj keys, remarks,
      hlayout, origin⟩
  · cases run

end SchemaGraph
