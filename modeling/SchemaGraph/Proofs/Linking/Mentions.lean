import SchemaGraph.Linking.Mentions
import SchemaGraph.Proofs.Outcome

/-! Mentions are closed inward: what an inline definition mentions is mentioned by everything around it.
The check of a declaration succeeds exactly when every name that it mentions is declared. -/
namespace SchemaGraph

/-- With an inline definition the list holds everything that the definition mentions. -/
def ClosedInward (refs : List Mention) : Prop :=
  ∀ d context, Mention.inline d context ∈ refs → d.mentions ⊆ refs

theorem closedInward_nil : ClosedInward [] := fun _ _ h => absurd h List.not_mem_nil

theorem closedInward_named {α : Type} {l : List α} (kind : α → DeclarationKind) (name : α → QName) :
    ClosedInward (l.map fun a => .named (kind a) (name a)) := by
  intro d context h
  obtain ⟨a, -, ha⟩ := List.mem_map.1 h
  cases ha

theorem ClosedInward.append {refs refs' : List Mention} (h : ClosedInward refs)
    (h' : ClosedInward refs') : ClosedInward (refs ++ refs') := by
  intro d context hd r hr
  rcases List.mem_append.1 hd with hd | hd
  · exact List.mem_append_left _ (h d context hd hr)
  · exact List.mem_append_right _ (h' d context hd hr)

theorem closedInward_flatMap {α : Type} {f : α → List Mention} {l : List α}
    (h : ∀ a ∈ l, ClosedInward (f a)) : ClosedInward (l.flatMap f) := by
  intro d context hd r hr
  obtain ⟨a, ha, hd⟩ := List.mem_flatMap.1 hd
  exact List.mem_flatMap.2 ⟨a, ha, h a ha d context hd hr⟩

mutual

theorem TypeRef.closedInward (context : Option QName) :
    ∀ r : TypeRef, ClosedInward (r.mentions context)
  | .named _ => by simp [ClosedInward, TypeRef.mentions]
  | .unspecified => by simp [ClosedInward, TypeRef.mentions]
  | .inline d => by
    intro d' context' h r hr
    rw [TypeRef.mentions] at h ⊢
    rcases List.mem_cons.1 h with h | h
    · cases h
      exact List.mem_cons_of_mem _ hr
    · exact List.mem_cons_of_mem _ (TypeDef.closedInward d d' context' h hr)

theorem TypeDef.closedInward : ∀ d : TypeDef, ClosedInward d.mentions
  | ⟨_, _, body⟩ => by
    rw [TypeDef.mentions]
    exact TypeBody.closedInward body

theorem TypeBody.closedInward : ∀ b : TypeBody, ClosedInward b.mentions
  | .builtin _ => by simpa [TypeBody.mentions] using closedInward_nil
  | .union => by simpa [TypeBody.mentions] using closedInward_nil
  | .restriction base _ => by
    rw [TypeBody.mentions]
    exact TypeRef.closedInward none base
  | .list item => by
    rw [TypeBody.mentions]
    exact TypeRef.closedInward none item
  | .complex d => by
    rw [TypeBody.mentions]
    exact ComplexDef.closedInward d

theorem ComplexDef.closedInward : ∀ d : ComplexDef, ClosedInward d.mentions
  | ⟨_, content, attributes, _⟩ => by
    rw [ComplexDef.mentions]
    exact ((closedInward_named _ _).append (Content.closedInward content)).append
      (AttributeUse.closedInward_list attributes)

theorem Content.closedInward : ∀ c : Content, ClosedInward c.mentions
  | .empty => by simpa [Content.mentions] using closedInward_nil
  | .simple _ => by simpa [Content.mentions] using closedInward_nil
  | .elements group => by
    rw [Content.mentions]
    exact ModelGroup.closedInward group

theorem ModelGroup.closedInward : ∀ g : ModelGroup, ClosedInward g.mentions
  | ⟨_, _, particles⟩ => by
    rw [ModelGroup.mentions]
    exact Particle.closedInward_list particles

theorem Particle.closedInward_list : ∀ l : List Particle, ClosedInward (Particle.mentionsList l)
  | [] => by simpa [Particle.mentionsList] using closedInward_nil
  | p :: rest => by
    rw [Particle.mentionsList]
    exact (Particle.closedInward p).append (Particle.closedInward_list rest)

theorem Particle.closedInward : ∀ p : Particle, ClosedInward p.mentions
  | .element d => by
    rw [Particle.mentions]
    exact ElementDecl.closedInward d
  | .group g => by
    rw [Particle.mentions]
    exact ModelGroup.closedInward g
  | .elementRef _ _ => by simp [ClosedInward, Particle.mentions]
  | .groupRef _ _ => by simp [ClosedInward, Particle.mentions]
  | .any _ => by simpa [Particle.mentions] using closedInward_nil

theorem ElementDecl.closedInward : ∀ d : ElementDecl, ClosedInward d.mentions
  | ⟨name, typeRef, _, _, _⟩ => by
    rw [ElementDecl.mentions]
    exact (closedInward_named _ _).append (TypeRef.closedInward (some name) typeRef)

theorem AttributeUse.closedInward_list :
    ∀ l : List AttributeUse, ClosedInward (AttributeUse.mentionsList l)
  | [] => by simpa [AttributeUse.mentionsList] using closedInward_nil
  | use :: rest => by
    rw [AttributeUse.mentionsList]
    exact (AttributeUse.closedInward use).append (AttributeUse.closedInward_list rest)

theorem AttributeUse.closedInward : ∀ u : AttributeUse, ClosedInward u.mentions
  | .declared ⟨_, typeRef⟩ => by
    rw [AttributeUse.mentions]
    exact TypeRef.closedInward none typeRef
  | .reference _ => by simp [ClosedInward, AttributeUse.mentions]
  | .group _ => by simp [ClosedInward, AttributeUse.mentions]

end

theorem ElementDecl.typeRef_mentions (d : ElementDecl) :
    d.typeRef.mentions (some d.name) ⊆ d.mentions := by
  obtain ⟨name, typeRef, occurs, isAbstract, head⟩ := d
  rw [ElementDecl.mentions]
  exact List.subset_append_right _ _

theorem ModelGroup.mentions_of_mem {group : ModelGroup} {p : Particle} (h : p ∈ group.particles) :
    p.mentions ⊆ group.mentions := by
  obtain ⟨_, _, particles⟩ := group
  rw [ModelGroup.mentions]
  induction particles with
  | nil => cases h
  | cons first rest ih =>
    rw [Particle.mentionsList]
    rcases List.mem_cons.1 h with rfl | h
    · exact List.subset_append_left _ _
    · exact List.Subset.trans (ih h) (List.subset_append_right _ _)

theorem ComplexDef.base_mem_mentions {d : ComplexDef} {base : QName} (h : d.derivation.base? = some base) :
    Mention.named .type base ∈ d.mentions := by
  obtain ⟨derivation, content, attributes, anyAttribute⟩ := d
  have h : derivation.base? = some base := h
  simp [ComplexDef.mentions, h]

theorem ComplexDef.content_mentions (d : ComplexDef) : d.content.mentions ⊆ d.mentions := by
  obtain ⟨derivation, content, attributes, anyAttribute⟩ := d
  intro m hm
  rw [ComplexDef.mentions]
  exact List.mem_append_left _ (List.mem_append_right _ hm)

theorem ComplexDef.attributes_mentions (d : ComplexDef) :
    AttributeUse.mentionsList d.attributes ⊆ d.mentions := by
  obtain ⟨derivation, content, attributes, anyAttribute⟩ := d
  intro m hm
  rw [ComplexDef.mentions]
  exact List.mem_append_right _ hm

theorem TypeDef.mentions_of_complex? {d : TypeDef} {x : ComplexDef} (h : d.complex? = some x) :
    d.mentions = x.mentions := by
  obtain ⟨name, isAbstract, body⟩ := d
  cases body with
  | complex y =>
    obtain rfl : y = x := Option.some.inj h
    rw [TypeDef.mentions, TypeBody.mentions]
  | builtin _ => cases h
  | restriction _ _ => cases h
  | list _ => cases h
  | union => cases h

theorem AttributeUse.mentionsList_append (uses uses' : List AttributeUse) :
    AttributeUse.mentionsList (uses ++ uses') =
      AttributeUse.mentionsList uses ++ AttributeUse.mentionsList uses' := by
  induction uses with
  | nil => rfl
  | cons use rest ih => rw [List.cons_append, AttributeUse.mentionsList, ih,
      AttributeUse.mentionsList, List.append_assoc]

theorem AttributeUse.mentions_of_mem {uses : List AttributeUse} {use : AttributeUse} (h : use ∈ uses) :
    use.mentions ⊆ AttributeUse.mentionsList uses := by
  obtain ⟨before, after, rfl⟩ := List.append_of_mem h
  rw [AttributeUse.mentionsList_append, AttributeUse.mentionsList]
  exact fun _ hm => List.mem_append_right _ (List.mem_append_left _ hm)

namespace DeclarationSet

variable {s : DeclarationSet} {name : QName}

theorem closedInward (s : DeclarationSet) : ClosedInward s.mentions :=
  (((closedInward_flatMap fun d _ => TypeDef.closedInward d).append
    (closedInward_flatMap fun d _ => ElementDecl.closedInward d)).append
    (closedInward_flatMap fun d _ => TypeRef.closedInward none d.typeRef)).append
    (closedInward_flatMap fun d _ => AttributeUse.closedInward_list d.attributes) |>.append
    (closedInward_flatMap fun d _ => ModelGroup.closedInward d.group)

theorem mem_mentions_iff {r : Mention} :
    r ∈ s.mentions ↔
      (∃ d ∈ s.types.values, r ∈ d.mentions) ∨ (∃ d ∈ s.elements.values, r ∈ d.mentions) ∨
        (∃ d ∈ s.attributes.values, r ∈ d.typeRef.mentions none) ∨
        (∃ d ∈ s.attributeGroups.values, r ∈ AttributeUse.mentionsList d.attributes) ∨
        ∃ d ∈ s.groups.values, r ∈ d.group.mentions := by
  simp only [mentions, List.mem_append, List.mem_flatMap, or_assoc]

theorem mentions_builtin {d : TypeDef} (h : builtinType? name = some d) : d.mentions = [] := by
  unfold builtinType? at h
  split at h
  · split at h
    · cases h
      rfl
    · obtain ⟨p, -, rfl⟩ := Option.map_eq_some_iff.1 h
      rfl
  · cases h

theorem mentions_of_type? {d : TypeDef} (h : s.type? name = some d) : d.mentions ⊆ s.mentions := by
  intro r hr
  unfold type? at h
  cases ht : s.types.get? name with
  | none =>
    rw [ht] at h
    rw [mentions_builtin h] at hr
    cases hr
  | some d' =>
    rw [ht] at h
    cases h
    exact mem_mentions_iff.2 (.inl ⟨d, (OrderedMap.mem_values_iff _ _).2 ⟨name, ht⟩, hr⟩)

theorem mentions_of_element? {d : ElementDecl} (h : s.element? name = some d) :
    d.mentions ⊆ s.mentions := fun _ hr =>
  mem_mentions_iff.2 (.inr (.inl ⟨d, (OrderedMap.mem_values_iff _ _).2 ⟨name, h⟩, hr⟩))

theorem mentions_of_attr? {d : AttributeDecl} (h : s.attr? name = some d) :
    d.typeRef.mentions none ⊆ s.mentions := fun _ hr =>
  mem_mentions_iff.2 (.inr (.inr (.inl ⟨d, (OrderedMap.mem_values_iff _ _).2 ⟨name, h⟩, hr⟩)))

theorem mentions_of_attributeGroup? {d : AttributeGroupDef} (h : s.attributeGroup? name = some d) :
    AttributeUse.mentionsList d.attributes ⊆ s.mentions := fun _ hr =>
  mem_mentions_iff.2
    (.inr (.inr (.inr (.inl ⟨d, (OrderedMap.mem_values_iff _ _).2 ⟨name, h⟩, hr⟩))))

theorem mentions_of_group? {d : ModelGroupDef} (h : s.group? name = some d) :
    d.group.mentions ⊆ s.mentions := fun _ hr =>
  mem_mentions_iff.2
    (.inr (.inr (.inr (.inr ⟨d, (OrderedMap.mem_values_iff _ _).2 ⟨name, h⟩, hr⟩))))

def declares (s : DeclarationSet) : DeclarationKind → QName → Bool
  | .type, name => (s.type? name).isSome
  | .element, name => (s.element? name).isSome
  | .attr, name => (s.attr? name).isSome
  | .attributeGroup, name => (s.attributeGroup? name).isSome
  | .group, name => (s.group? name).isSome

def Resolves (s : DeclarationSet) (refs : List Mention) : Prop :=
  ∀ kind name, Mention.named kind name ∈ refs → s.declares kind name = true

theorem resolves_nil : s.Resolves [] := fun _ _ h => absurd h List.not_mem_nil

theorem resolves_append {refs refs' : List Mention} :
    s.Resolves (refs ++ refs') ↔ s.Resolves refs ∧ s.Resolves refs' := by
  simp only [Resolves, List.mem_append, or_imp, forall_and]

theorem resolves_singleton {kind : DeclarationKind} :
    s.Resolves [.named kind name] ↔ s.declares kind name = true := by
  simp [Resolves]

theorem resolves_inline {d : TypeDef} {context : Option QName} {refs : List Mention} :
    s.Resolves (.inline d context :: refs) ↔ s.Resolves refs := by
  simp [Resolves]

theorem require_eq_ok_iff {found : Bool} {kind : ReferenceKind} {context : String} :
    require found kind name context = .ok () ↔ found = true := by
  unfold require
  cases found <;> simp

mutual

theorem checkTypeRef_eq_ok_iff (context : String) (element : Option QName) : ∀ r : TypeRef,
    s.checkTypeRef context r = .ok () ↔ s.Resolves (r.mentions element)
  | .named name => by
    rw [checkTypeRef, require_eq_ok_iff, TypeRef.mentions, resolves_singleton, declares]
  | .inline d => by
    rw [checkTypeRef, TypeRef.mentions, resolves_inline]
    exact checkType_eq_ok_iff context d
  | .unspecified => by simp [checkTypeRef, TypeRef.mentions, resolves_nil]

theorem checkType_eq_ok_iff (context : String) : ∀ d : TypeDef,
    s.checkType context d = .ok () ↔ s.Resolves d.mentions
  | ⟨_, _, body⟩ => by
    rw [checkType, TypeDef.mentions]
    exact checkBody_eq_ok_iff context body

theorem checkBody_eq_ok_iff (context : String) : ∀ b : TypeBody,
    s.checkBody context b = .ok () ↔ s.Resolves b.mentions
  | .restriction base _ => by
    rw [checkBody, TypeBody.mentions]
    exact checkTypeRef_eq_ok_iff context none base
  | .list item => by
    rw [checkBody, TypeBody.mentions]
    exact checkTypeRef_eq_ok_iff context none item
  | .union => by simp [checkBody, TypeBody.mentions, resolves_nil]
  | .builtin _ => by simp [checkBody, TypeBody.mentions, resolves_nil]
  | .complex d => by
    rw [checkBody, TypeBody.mentions]
    exact checkComplex_eq_ok_iff context d

theorem checkComplex_eq_ok_iff (context : String) : ∀ d : ComplexDef,
    s.checkComplex context d = .ok () ↔ s.Resolves d.mentions
  | ⟨derivation, content, attributes, _⟩ => by
    rw [checkComplex, ComplexDef.mentions, resolves_append, resolves_append,
      ← checkContent_eq_ok_iff context content, ← checkAttributes_eq_ok_iff context attributes]
    cases derivation.base? with
    | none => simp [seq_eq_ok_iff, resolves_nil]
    | some base => simp [seq_eq_ok_iff, require_eq_ok_iff, resolves_singleton, declares, and_assoc]

theorem checkContent_eq_ok_iff (context : String) : ∀ content : Content,
    s.checkContent context content = .ok () ↔ s.Resolves content.mentions
  | .elements group => by
    rw [checkContent, Content.mentions]
    exact checkGroup_eq_ok_iff context group
  | .empty => by simp [checkContent, Content.mentions, resolves_nil]
  | .simple _ => by simp [checkContent, Content.mentions, resolves_nil]

theorem checkGroup_eq_ok_iff (context : String) : ∀ group : ModelGroup,
    s.checkGroup context group = .ok () ↔ s.Resolves group.mentions
  | ⟨_, _, particles⟩ => by
    rw [checkGroup, ModelGroup.mentions]
    exact checkParticles_eq_ok_iff context particles

theorem checkParticles_eq_ok_iff (context : String) : ∀ particles : List Particle,
    s.checkParticles context particles = .ok () ↔ s.Resolves (Particle.mentionsList particles)
  | [] => by simp [checkParticles, Particle.mentionsList, resolves_nil]
  | p :: rest => by
    rw [checkParticles, Particle.mentionsList, resolves_append, ← checkParticle_eq_ok_iff context p,
      ← checkParticles_eq_ok_iff context rest]
    exact seq_eq_ok_iff

theorem checkParticle_eq_ok_iff (context : String) : ∀ p : Particle,
    s.checkParticle context p = .ok () ↔ s.Resolves p.mentions
  | .element decl => by
    rw [checkParticle, Particle.mentions]
    exact checkElement_eq_ok_iff context decl
  | .elementRef name _ => by
    rw [checkParticle, require_eq_ok_iff, Particle.mentions, resolves_singleton, declares]
  | .group group => by
    rw [checkParticle, Particle.mentions]
    exact checkGroup_eq_ok_iff context group
  | .groupRef name _ => by
    rw [checkParticle, require_eq_ok_iff, Particle.mentions, resolves_singleton, declares]
  | .any _ => by simp [checkParticle, Particle.mentions, resolves_nil]

theorem checkElement_eq_ok_iff (context : String) : ∀ d : ElementDecl,
    s.checkElement context d = .ok () ↔ s.Resolves d.mentions
  | ⟨name, typeRef, _, _, head⟩ => by
    rw [ElementDecl.mentions, resolves_append,
      ← checkTypeRef_eq_ok_iff (name.clark ++ " in " ++ context) (some name) typeRef]
    cases head with
    | none => simp [checkElement, resolves_nil]
    | some head =>
      simp [checkElement, seq_eq_ok_iff, require_eq_ok_iff, resolves_singleton, declares]

theorem checkAttributes_eq_ok_iff (context : String) : ∀ uses : List AttributeUse,
    s.checkAttributes context uses = .ok () ↔ s.Resolves (AttributeUse.mentionsList uses)
  | [] => by simp [checkAttributes, AttributeUse.mentionsList, resolves_nil]
  | use :: rest => by
    rw [checkAttributes, AttributeUse.mentionsList, resolves_append,
      ← checkAttribute_eq_ok_iff context use, ← checkAttributes_eq_ok_iff context rest]
    exact seq_eq_ok_iff

theorem checkAttribute_eq_ok_iff (context : String) : ∀ use : AttributeUse,
    s.checkAttribute context use = .ok () ↔ s.Resolves use.mentions
  | .declared ⟨_, typeRef⟩ => by
    rw [checkAttribute, AttributeUse.mentions]
    exact checkTypeRef_eq_ok_iff context none typeRef
  | .reference name => by
    rw [checkAttribute, require_eq_ok_iff, AttributeUse.mentions, resolves_singleton, declares]
  | .group name => by
    rw [checkAttribute, require_eq_ok_iff, AttributeUse.mentions, resolves_singleton, declares]

end

end DeclarationSet

end SchemaGraph
