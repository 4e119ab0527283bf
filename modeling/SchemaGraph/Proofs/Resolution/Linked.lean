import SchemaGraph.Proofs.Linking.Extensions
import SchemaGraph.Proofs.Resolution.Requests

/-! Names after linking.  The check covers every declaration but the global attributes, so that a name
that resolution cannot follow stands in the type of a global attribute. -/
namespace SchemaGraph

open Stateful

namespace DeclarationSet

variable {s : DeclarationSet}

theorem resolves_of_checkReferences (h : s.checkReferences = .ok ()) :
    (∀ d ∈ s.types.values, s.Resolves d.mentions) ∧
      (∀ d ∈ s.elements.values, s.Resolves d.mentions) ∧
      (∀ d ∈ s.groups.values, s.Resolves d.group.mentions) ∧
      ∀ d ∈ s.attributeGroups.values, s.Resolves (AttributeUse.mentionsList d.attributes) := by
  unfold checkReferences at h
  simp only [seq_eq_ok_iff, forM_eq_ok_iff, checkType_eq_ok_iff, checkElement_eq_ok_iff,
    checkGroup_eq_ok_iff, checkAttributes_eq_ok_iff] at h
  obtain ⟨types, elements, groups, attributeGroups⟩ := h
  exact ⟨fun d hd => (types d hd).1, elements, fun d hd => (groups d hd).1, attributeGroups⟩

theorem isSome_type?_of_contains {name : QName} (h : s.types.contains name = true) :
    (s.type? name).isSome = true := by
  obtain ⟨d, hd⟩ := Option.isSome_iff_exists.1 h
  simp [type?, hd]

theorem isSome_element?_of_substitutes (h : s.Indexed) {head name : QName}
    (hname : name ∈ s.substitutes head) : (s.element? name).isSome = true := by
  obtain ⟨d, found, -⟩ := (mem_substitutes_iff h).1 hname
  exact Option.isSome_of_mem found

end DeclarationSet

section Dangling

variable {s : DeclarationSet} {table : OverrideTable} {options : ResolveOptions}

def DeclarationSet.MissingInAttribute (s : DeclarationSet) (kind : DeclarationKind) (name : QName) :
    Prop :=
  s.declares kind name = false ∧ ∃ d ∈ s.attributes.values, Mention.named kind name ∈ d.typeRef.mentions none

/-- A fault that leads nowhere does so from a global attribute. -/
def DeclarationSet.LeadsSomewhere (s : DeclarationSet) (e : ResolveError) : Prop :=
  ∀ kind name context, e = .dangling kind name context → s.MissingInAttribute kind.declaration name

theorem allows_leadsSomewhere (hi : s.Indexed) (hc : s.checkReferences = .ok ())
    {refs : List Mention} {hin : ClosedInward refs} (hr : s.Resolves refs) :
    (Scope.around ⟨s, .ofSet s, table, options⟩ refs hin).Allows s.LeadsSomewhere where
  content := by
    rintro _ he kind name context rfl
    cases he
  foreign := fun _ _ _ _ _ _ _ => nofun
  lost := by
    rintro _ (⟨path, rfl⟩ | ⟨kind, name, context, rfl, hm, hd⟩) kind' name' context' h
    · cases h
    · cases h
      have hseen : ∀ refs, s.Resolves refs → Mention.named kind.declaration name ∉ refs :=
        fun refs hr hm => by simp [hr _ _ hm] at hd
      -- A mention outside the global attributes has been checked or belongs to the request.
      obtain ⟨types, elements, groups, attributeGroups⟩ := s.resolves_of_checkReferences hc
      rcases List.mem_append.1 hm with hm | hm
      · exact absurd hm (hseen refs hr)
      · rcases DeclarationSet.mem_mentions_iff.1 hm with
          ⟨d, hd', hm⟩ | ⟨d, hd', hm⟩ | ⟨d, hd', hm⟩ | ⟨d, hd', hm⟩ | ⟨d, hd', hm⟩
        · exact absurd hm (hseen _ (types d hd'))
        · exact absurd hm (hseen _ (elements d hd'))
        · exact ⟨hd, d, hd', hm⟩
        · exact absurd hm (hseen _ (attributeGroups d hd'))
        · exact absurd hm (hseen _ (groups d hd'))
  member := by
    intro head name owner hname hnone
    have := DeclarationSet.isSome_element?_of_substitutes hi hname
    rw [show s.element? name = none from hnone] at this
    cases this
  subtype := by
    intro base name owner hname hnone
    obtain ⟨_, ⟨d, declared, -⟩, -⟩ := Relation.TransGen.head'_iff.1 (ClassHierarchy.mem_descendants_iff.1 hname)
    cases hnone.symm.trans declared

theorem fillWith_dangles {c : ResolveContext} {d : TypeDef} {l : DeclarationSet.AttributeList}
    {first : String} {missing : QName} {rest : List (String × TypeRef)}
    (hl : c.set.inheritedAttributes [] d = .ok l)
    (hfirst : l.attributes = (first, .named missing) :: rest) (hmissing : c.set.type? missing = none)
    (resolve : ResolveType) (id : TypeId) (site : Site) (s : ResolveState) :
    Ends (fillWith c resolve id d site) s (fun _ _ => False)
      fun e _ => e = .dangling .type missing "resolver" := by
  unfold fillWith
  rw [hl, ends_bind, ends_ofExcept]
  change Ends (l.attributes.forM _ >>= _) s _ _
  rw [hfirst]
  change Ends ((fillAttribute c resolve id site (first, .named missing) >>= _) >>= _) s _ _
  unfold fillAttribute resolveRef resolveNamed DeclarationSet.type
  rw [ends_bind, ends_bind, ends_bind, ends_map, ends_bind, hmissing]
  rfl

theorem resolveName_dangles {c : ResolveContext} {state : ResolveState} {name missing : QName}
    {d : TypeDef} {l : DeclarationSet.AttributeList} {first : String} {rest : List (String × TypeRef)}
    (htype : c.set.type? name = some d) (hname : d.name = some name) (hknown : c.isKnown name = true)
    (hnew : state.types.lookup name.clark = none) (hl : c.set.inheritedAttributes [] d = .ok l)
    (hfirst : l.attributes = (first, .named missing) :: rest) (hmissing : c.set.type? missing = none) :
    ∃ t, Fails (c.resolveName name) state (.dangling .type missing "resolver") t := by
  -- At least one type can be open, so that the new entry gets as far as its attributes.
  obtain ⟨depth, hdepth⟩ : ∃ depth, c.set.depthBound + d.mentions.length = depth + 1 :=
    ⟨_, Nat.add_right_comm ..⟩
  have fails : Ends (c.resolveName name) state (fun _ _ => False)
      fun e _ => e = .dangling .type missing "resolver" := by
    unfold ResolveContext.resolveName resolveNamed DeclarationSet.type
    rw [htype, ends_bind]
    change Ends (c.resolve d (siteOfType name) none) state _ _
    unfold ResolveContext.resolve resolveType Resolve.lookup
    rw [hname, hdepth, ends_bind]
    simp only [ends_bind, ends_get, ends_pure, hnew, hknown, if_true]
    unfold enterNamed Resolve.reserve
    simp only [ends_bind, ends_get]
    cases hr : state.types.reserve? { name, isAbstract := d.isAbstract } with
    | none =>
      have taken := Registry.reserve?_eq_none_iff.1 hr
      rw [show TypeEntry.key { name, isAbstract := d.isAbstract } = name.clark from rfl, hnew] at taken
      cases taken
    | some p =>
      exact (fillWith_dangles hl hfirst hmissing _ _ _ _).mono (fun _ _ => False.elim) fun _ _ => id
  obtain ⟨e, t, h, rfl⟩ := fails.exists_fails
  exact ⟨t, h⟩

/-- The request names or mentions nothing that is not declared. -/
def Request.OnDeclared (s : DeclarationSet) : Request → Prop
  | .all => True
  | .named name => s.declares .type name = true
  | .definition d _ _ => s.Resolves d.mentions

theorem Request.OnDeclared.resolves {c : ResolveContext} {r : Request} (h : r.OnDeclared c.set)
    (hi : c.set.Indexed) : c.set.Resolves (c.mentions r) := by
  intro kind name hm
  cases r with
  | all =>
    obtain ⟨doc, hdoc, hm⟩ := List.mem_flatMap.1 hm
    rcases List.mem_append.1 hm with hm | hm
    · obtain ⟨_, hname, hm⟩ := List.mem_map.1 hm
      cases hm
      exact hi.listedElements doc hdoc name hname
    · obtain ⟨_, hname, hm⟩ := List.mem_map.1 hm
      cases hm
      exact DeclarationSet.isSome_type?_of_contains (hi.listedTypes doc hdoc name hname)
  | named _ =>
    cases List.mem_singleton.1 hm
    exact h
  | definition d _ context =>
    rcases List.mem_cons.1 hm with hm | hm
    · cases hm
    · exact h kind name hm

/-- Linking closes a set up to its global attributes: no request fails on a name unless the name stands
undeclared in the type of a global attribute.  There it can fail: the types of global attributes are not
checked, and resolution follows them. -/
theorem dangling_of_link {u : DeclarationSet} (hu : u.Built) (h : result DeclarationSet.link u = .ok s)
    (table : OverrideTable) (options : ResolveOptions) (requests : List Request) :
    let c : ResolveContext := ⟨s, .ofSet s, table, options⟩
    let state := c.stateAfter requests
    (∀ r, r.OnDeclared s → ∀ kind name context t,
      Fails (c.answer r) state (.dangling kind name context) t →
        s.MissingInAttribute kind.declaration name) ∧
      ∀ name d l first missing rest, s.type? name = some d → d.name = some name →
        c.isKnown name = true → state.types.lookup name.clark = none →
        s.inheritedAttributes [] d = .ok l → l.attributes = (first, .named missing) :: rest →
        s.type? missing = none →
        ∃ t, Fails (c.answer (.named name)) state (.dangling .type missing "resolver") t := by
  intro c state
  have hi : s.Indexed := (DeclarationSet.built_of_link hu h).indexed
  have checked := (DeclarationSet.checkReferences_of_link h).2
  refine ⟨fun r hr kind name context t hfails => ?_, ?_⟩
  · have allows : (c.scope r).Allows s.LeadsSomewhere :=
      allows_leadsSomewhere hi checked (hr.resolves (c := c) hi)
    have served := c.answer_serves r allows (c.sound_stateAfter requests)
    exact (served.fault hfails).2.2 kind name context rfl
  · intro name d l first missing rest htype hname hknown hnew hl hfirst hmissing
    obtain ⟨t, ht⟩ := resolveName_dangles (c := c) htype hname hknown hnew hl hfirst hmissing
    have fails : Ends (c.answer (.named name)) state (fun _ _ => False)
        fun e _ => e = .dangling .type missing "resolver" := by
      change Ends (some <$> c.resolveName name) state _ _
      rw [ends_map]
      unfold Ends
      rw [show exec (c.resolveName name) state = _ from ht]
    obtain ⟨e, t, h, rfl⟩ := fails.exists_fails
    exact ⟨t, h⟩

end Dangling

def lengths : SchemaDocument :=
  let name := fun localName => (⟨some "urn:lengths", localName⟩ : QName)
  { targetNamespace := some "urn:lengths"
    types := [⟨some (name "Length"), false, .complex ⟨.none, .empty, [.reference (name "unit")], false⟩⟩]
    attributes := [(name "unit", ⟨"unit", .named (name "Missing")⟩)] }

theorem lengths_dangle :
    let missing : QName := ⟨some "urn:lengths", "Missing"⟩
    ∃ s t, result DeclarationSet.link (exec (DeclarationSet.add lengths) .empty).2 = .ok s ∧
      let c : ResolveContext := ⟨s, .ofSet s, {}, {}⟩
      Fails (c.answer (.named ⟨some "urn:lengths", "Length"⟩)) c.fresh
        (.dangling .type missing "resolver") t ∧ s.MissingInAttribute .type missing := by
  intro missing
  let length : QName := ⟨some "urn:lengths", "Length"⟩
  have built : (exec (DeclarationSet.add lengths) .empty).2.Built := .add .empty lengths
  have run : ((result DeclarationSet.link (exec (DeclarationSet.add lengths) .empty).2).toOption.any fun s =>
      let c : ResolveContext := ⟨s, .ofSet s, {}, {}⟩
      (s.type? missing).isNone && c.isKnown length && (c.fresh.types.lookup length.clark).isNone &&
        (s.type? length).any fun d => d.name == some length &&
          (s.inheritedAttributes [] d).toOption.any fun l =>
            l.attributes.head?.any fun first => first.2 == .named missing) = true := by decide +kernel
  obtain ⟨s, linked, run⟩ := exists_eq_ok_of_any run
  obtain ⟨start, run⟩ := Bool.and_eq_true_iff.1 run
  simp only [Bool.and_eq_true, Option.isNone_iff_eq_none] at start
  obtain ⟨⟨undeclared, known⟩, new⟩ := start
  obtain ⟨d, hd, run⟩ := (Option.any_eq_true _ _).1 run
  obtain ⟨named, run⟩ := Bool.and_eq_true_iff.1 run
  have hname : d.name = some length := by simpa only [beq_iff_eq] using named
  obtain ⟨l, hl, run⟩ := exists_eq_ok_of_any run
  obtain ⟨⟨first, _⟩, head, rfl⟩ : ∃ a, l.attributes.head? = some a ∧ a.2 = .named missing := by
    simpa only [Option.any_eq_true, beq_iff_eq] using run
  obtain ⟨rest, hfirst⟩ := List.head?_eq_some_iff.1 head
  obtain ⟨closed, dangles⟩ := dangling_of_link built linked {} {} []
  obtain ⟨t, ht⟩ := dangles length d l first missing rest hd hname known new hl hfirst undeclared
  have declared : s.declares .type length = true := Option.isSome_iff_exists.2 ⟨d, hd⟩
  exact ⟨s, t, linked, ht, closed (.named length) declared .type missing "resolver" t ht⟩

end SchemaGraph
