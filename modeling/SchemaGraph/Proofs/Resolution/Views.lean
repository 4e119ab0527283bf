import SchemaGraph.Proofs.Resolution.Classes
import SchemaGraph.Proofs.Resolution.Levels

/-! What is read off the declarations stays within what they mention: the elements of a content, the
attributes of a type and the class of its values.  It cannot be read when a walk comes back to where it
was or a mentioned name is not declared, and for no other reason. -/
namespace SchemaGraph

/-- The elements of a content mention only what is in `refs`. -/
def ElementsWithin (refs : List Mention) (leaves : List Leaf) : Prop :=
  ∀ decl site occurs, Leaf.element decl site occurs ∈ leaves → decl.mentions ⊆ refs

theorem TypeDef.base_mentions {d : TypeDef} {r : TypeRef} (derived : d.base? = some r) :
    r.mentions none ⊆ d.mentions := by
  obtain ⟨name, isAbstract, body⟩ := d
  cases body with
  | restriction base literals =>
    cases derived
    rw [TypeDef.mentions, TypeBody.mentions]
    exact List.Subset.refl _
  | complex c =>
    rw [TypeDef.mentions, TypeBody.mentions]
    cases based : c.derivation.base? with
    | none =>
      simp only [TypeDef.base?, based, Option.elim, Option.some.injEq] at derived
      subst derived
      rw [TypeRef.mentions]
      exact List.nil_subset _
    | some base =>
      simp only [TypeDef.base?, based, Option.elim, Option.some.injEq] at derived
      subst derived
      rw [TypeRef.mentions]
      simpa using ComplexDef.base_mem_mentions based
  | builtin | list | union => cases derived

namespace DeclarationSet

section Content

variable {s : DeclarationSet} {refs : List Mention}

/-- The declarations that contents are put together from mention only what is in `refs`. -/
structure ContentsWithin (s : DeclarationSet) (refs : List Mention) : Prop where
  types : ∀ name d, s.type? name = some d → d.mentions ⊆ refs
  elements : ∀ name d, s.element? name = some d → d.mentions ⊆ refs
  groups : ∀ name d, s.group? name = some d → d.group.mentions ⊆ refs

theorem ContentsWithin.of_mentions (hs : s.mentions ⊆ refs) : s.ContentsWithin refs where
  types _ _ found := List.Subset.trans (mentions_of_type? found) hs
  elements _ _ found := List.Subset.trans (mentions_of_element? found) hs
  groups _ _ found := List.Subset.trans (mentions_of_group? found) hs

theorem ContentsWithin.viewRule (hs : s.ContentsWithin refs) (context : String) :
    s.ViewRule context (fun _ _ p => p.mentions ⊆ refs)
      (fun _ m => EachElement (fun decl _ => decl.mentions ⊆ refs) m.leaves) (s.Lost refs) where
  element h := by
    rw [Particle.mentions] at h
    exact eachElement_element h
  elementRef h := by
    rw [Particle.mentions] at h
    exact (element_settles (h (List.mem_singleton.2 rfl))).mono
      (fun decl found => eachElement_element (hs.elements _ decl found)) fun _ => id
  inside h i p hp := by
    rw [Particle.mentions] at h
    exact List.Subset.trans (ModelGroup.mentions_of_mem (List.mem_of_getElem? hp)) h
  group each := eachElement_group each
  circular _ _ := lost_circular _
  missing h unknown := by
    rw [Particle.mentions] at h
    exact lost_dangling .group (h (List.mem_singleton.2 rfl)) (by simp [ReferenceKind.declaration, declares, unknown])
  opened _ _ found i p hp :=
    List.Subset.trans (ModelGroup.mentions_of_mem (List.mem_of_getElem? hp)) (hs.groups _ _ found)
  groupRef _ each := eachElement_group each
  any _ := eachElement_any

theorem ContentsWithin.layoutRule (hs : s.ContentsWithin refs) (context : String) :
    s.LayoutRule context (fun _ _ x => x.mentions ⊆ refs)
      (OwnContent fun _ m => EachElement (fun decl _ => decl.mentions ⊆ refs) m.leaves)
      (fun _ l => ElementsWithin refs l.leaves) (s.Lost refs) where
  ownContent {_ _ x} h := (hs.viewRule context).ownContent fun group content i p hp => by
    have around := List.Subset.trans (ComplexDef.content_mentions x) h
    rw [content, Content.mentions] at around
    exact List.Subset.trans (ModelGroup.mentions_of_mem (List.mem_of_getElem? hp)) around
  next h derived := by
    have mentioned := h (ComplexDef.base_mem_mentions (by rw [derived]; rfl))
    refine (nextType_settles mentioned).mono (fun next _ y complex => ?_) fun _ => id
    rw [← TypeDef.mentions_of_complex? complex]
    exact hs.types _ _ next.2.1
  first own _ := EachElement.withOwn (fun _ _ _ hd => absurd hd List.not_mem_nil) own.eachElement
  extension own _ _ _ below := EachElement.withOwn below own.eachElement

theorem layout_settles (hs : s.ContentsWithin refs) (context : String) (path : List QName) (site : Site)
    (d : ComplexDef) (h : d.mentions ⊆ refs) :
    Settles (s.layout context path site d) (fun l => ElementsWithin refs l.leaves) (s.Lost refs) :=
  (hs.layoutRule context).layout h

end Content

section Values

variable {s : DeclarationSet} {refs : List Mention}

def AttributesWithin (refs : List Mention) (l : AttributeList) : Prop :=
  ∀ a ∈ l.attributes, a.2.mentions none ⊆ refs

theorem Lists.mentions {uses : List AttributeUse} {e : String × TypeRef} (listed : s.Lists uses e)
    (hs : s.mentions ⊆ refs) (h : AttributeUse.mentionsList uses ⊆ refs) : e.2.mentions none ⊆ refs := by
  have own {uses : List AttributeUse} (h : AttributeUse.mentionsList uses ⊆ refs) (listed : e ∈ s.ownAttributes uses) :
      e.2.mentions none ⊆ refs := by
    obtain ⟨use, hu, own⟩ := List.mem_filterMap.1 listed
    cases use with
    | declared decl =>
      cases own
      refine List.Subset.trans ?_ (List.Subset.trans (AttributeUse.mentions_of_mem hu) h)
      obtain ⟨name, typeRef⟩ := decl
      rw [AttributeUse.mentions]
      exact List.Subset.refl _
    | reference name =>
      obtain ⟨decl, declared, rfl⟩ := Option.map_eq_some_iff.1 own
      exact List.Subset.trans (mentions_of_attr? declared) hs
    | group name => cases own
  obtain listed | ⟨name, g, reached, listed⟩ := listed
  · exact own h listed
  · exact own (List.Subset.trans (mentions_of_attributeGroup? reached.found) hs) listed

theorem Levels.mentions {d : TypeDef} {levels : List Level} (below : s.Levels d levels) (hs : s.mentions ⊆ refs)
    (h : d.mentions ⊆ refs) : ∀ level ∈ levels, level.definition.mentions ⊆ refs := by
  induction below with
  | none => exact nofun
  | first complex =>
    rw [TypeDef.mentions_of_complex? complex] at h
    exact List.forall_mem_singleton.2 h
  | extension complex derived found _ _ ih =>
    rw [TypeDef.mentions_of_complex? complex] at h
    exact List.forall_mem_append.2
      ⟨ih (List.Subset.trans (mentions_of_type? found) hs), List.forall_mem_singleton.2 h⟩

theorem inheritedAttributes_settles (hs : s.mentions ⊆ refs) (path : List QName) (d : TypeDef)
    (h : d.mentions ⊆ refs) :
    Settles (s.inheritedAttributes path d) (AttributesWithin refs) (s.Lost refs) := by
  refine (inheritedAttributes_levels (fun _ _ found => List.Subset.trans (mentions_of_attributeGroup? found) hs)
    (fun _ _ found => List.Subset.trans (mentions_of_type? found) hs) path d h).mono ?_ fun _ => id
  rintro l ⟨levels, below, attributes, -⟩ a ha
  rw [attributes] at ha
  obtain ⟨level, hl, ha⟩ := List.mem_flatMap.1 ha
  have within := List.Subset.trans (ComplexDef.attributes_mentions _) (below.mentions hs h level hl)
  exact ((below.lists level hl a).1 ha).mentions hs within

def ItemWithin (refs : List Mention) (x : ScalarClass) : Prop :=
  ∀ item, x.listItem = some item → Mention.named .type item ∈ refs

theorem classify_among (types : ∀ name b, s.type? name = some b → b.mentions ⊆ refs) (path : List QName) (d : TypeDef)
    (h : d.mentions ⊆ refs) : Settles (s.classify path d) (ItemWithin refs) (s.Lost refs) := by
  induction path, d using classify_induction (s := s) with
  | alone path d x decides =>
    rw [classify_of_decidesAlone decides]
    cases decides <;> rintro _ ⟨⟩
  | items path d item body ih =>
    have mentioned : Mention.named .type item ∈ refs := by
      obtain ⟨name, isAbstract, _⟩ := d
      cases body
      simpa [TypeDef.mentions, TypeBody.mentions, TypeRef.mentions] using h
    rw [classify_items body]
    refine (nextType_settles mentioned).bind fun ⟨e, found, new⟩ _ => ?_
    refine Settles.map_iff.2 ((ih e found new (types _ e found)).mono (fun x _ => ?_) fun _ => id)
    unfold classOfItems
    split
    · rintro _ ⟨⟩
      exact mentioned
    · rintro _ ⟨⟩
  | named path d base none derived ih =>
    have mentioned := List.Subset.trans (TypeDef.base_mentions derived) h
    rw [TypeRef.mentions] at mentioned
    rw [classify_named none derived]
    exact (nextType_settles (mentioned (List.mem_singleton.2 rfl))).bind fun ⟨e, found, new⟩ _ =>
      ih e found new (types _ e found)
  | inline path d e none derived ih =>
    have mentioned := List.Subset.trans (TypeDef.base_mentions derived) h
    rw [TypeRef.mentions] at mentioned
    rw [classify_inline none derived]
    exact ih (List.Subset.trans (List.subset_cons_self _ _) mentioned)

theorem classify_settles (hs : s.mentions ⊆ refs) (path : List QName) (d : TypeDef)
    (h : d.mentions ⊆ refs) : Settles (s.classify path d) (ItemWithin refs) (s.Lost refs) :=
  classify_among (fun _ _ found => List.Subset.trans (mentions_of_type? found) hs) path d h

theorem primitiveOfType_settles (hs : s.mentions ⊆ refs) (d : TypeDef) (h : d.mentions ⊆ refs) :
    Settles (s.primitiveOfType d) (fun _ => True) (s.Lost refs) := by
  unfold primitiveOfType
  split
  · trivial
  · split
    · trivial
    · exact (classify_settles hs [] d h).bind fun _ _ => trivial

end Values

end DeclarationSet

end SchemaGraph
