import SchemaGraph.Linking.Mentions

/-! Declarations with other references.  `redirect f` replaces every name that a declaration refers to, at any depth,
and leaves the names that are declared alone; it changes nothing exactly if `f` leaves every name alone that is
mentioned. -/
namespace SchemaGraph

def Derivation.redirect (f : QName → QName) : Derivation → Derivation
  | .none => .none
  | .extension base => .extension (f base)
  | .restriction base => .restriction (f base)

mutual

def TypeRef.redirect (f : QName → QName) : TypeRef → TypeRef
  | .named name => .named (f name)
  | .inline d => .inline (d.redirect f)
  | .unspecified => .unspecified

def TypeDef.redirect (f : QName → QName) : TypeDef → TypeDef
  | ⟨name, isAbstract, body⟩ => ⟨name, isAbstract, body.redirect f⟩

def TypeBody.redirect (f : QName → QName) : TypeBody → TypeBody
  | .builtin primitive => .builtin primitive
  | .restriction base enumerations => .restriction (base.redirect f) enumerations
  | .list item => .list (item.redirect f)
  | .union => .union
  | .complex d => .complex (d.redirect f)

def ComplexDef.redirect (f : QName → QName) : ComplexDef → ComplexDef
  | ⟨derivation, content, attributes, anyAttribute⟩ =>
    ⟨derivation.redirect f, content.redirect f, AttributeUse.redirectList f attributes, anyAttribute⟩

def Content.redirect (f : QName → QName) : Content → Content
  | .empty => .empty
  | .elements group => .elements (group.redirect f)
  | .simple enumerations => .simple enumerations

def ModelGroup.redirect (f : QName → QName) : ModelGroup → ModelGroup
  | ⟨compositor, occurs, particles⟩ => ⟨compositor, occurs, Particle.redirectList f particles⟩

def Particle.redirectList (f : QName → QName) : List Particle → List Particle
  | [] => []
  | p :: rest => p.redirect f :: Particle.redirectList f rest

def Particle.redirect (f : QName → QName) : Particle → Particle
  | .element d => .element (d.redirect f)
  | .elementRef name occurs => .elementRef (f name) occurs
  | .group g => .group (g.redirect f)
  | .groupRef name occurs => .groupRef (f name) occurs
  | .any occurs => .any occurs

def ElementDecl.redirect (f : QName → QName) : ElementDecl → ElementDecl
  | ⟨name, typeRef, occurs, isAbstract, head⟩ => ⟨name, typeRef.redirect f, occurs, isAbstract, head.map f⟩

def AttributeDecl.redirect (f : QName → QName) : AttributeDecl → AttributeDecl
  | ⟨name, typeRef⟩ => ⟨name, typeRef.redirect f⟩

def AttributeUse.redirectList (f : QName → QName) : List AttributeUse → List AttributeUse
  | [] => []
  | use :: rest => use.redirect f :: AttributeUse.redirectList f rest

def AttributeUse.redirect (f : QName → QName) : AttributeUse → AttributeUse
  | .declared d => .declared (d.redirect f)
  | .reference name => .reference (f name)
  | .group name => .group (f name)

end

def AttributeGroupDef.redirect (f : QName → QName) (d : AttributeGroupDef) : AttributeGroupDef :=
  { d with attributes := AttributeUse.redirectList f d.attributes }

def ModelGroupDef.redirect (f : QName → QName) (d : ModelGroupDef) : ModelGroupDef :=
  { d with group := d.group.redirect f }

def SchemaDocument.redirect (f : QName → QName) (doc : SchemaDocument) : SchemaDocument where
  targetNamespace := doc.targetNamespace
  elements := doc.elements.map (·.redirect f)
  types := doc.types.map (·.redirect f)
  attributes := doc.attributes.map fun p => (p.1, p.2.redirect f)
  attributeGroups := doc.attributeGroups.map (·.redirect f)
  groups := doc.groups.map (·.redirect f)

theorem Particle.redirectList_eq_map (f : QName → QName) (l : List Particle) :
    Particle.redirectList f l = l.map (·.redirect f) := by
  induction l with
  | nil => rfl
  | cons p l ih => rw [Particle.redirectList, ih, List.map_cons]

theorem AttributeUse.redirectList_eq_map (f : QName → QName) (l : List AttributeUse) :
    AttributeUse.redirectList f l = l.map (·.redirect f) := by
  induction l with
  | nil => rfl
  | cons use l ih => rw [AttributeUse.redirectList, ih, List.map_cons]

def SchemaDocument.mentions (doc : SchemaDocument) : List Mention :=
  doc.types.flatMap TypeDef.mentions ++ doc.elements.flatMap ElementDecl.mentions ++
    doc.attributes.flatMap (·.2.typeRef.mentions none) ++
    doc.attributeGroups.flatMap (AttributeUse.mentionsList ·.attributes) ++ doc.groups.flatMap (·.group.mentions)

def Fixes (f : QName → QName) (refs : List Mention) : Prop := ∀ kind name, .named kind name ∈ refs → f name = name

namespace Fixes

variable {f : QName → QName} {refs refs' : List Mention}

theorem nil_iff : Fixes f [] ↔ True := iff_true_intro fun _ _ h => absurd h List.not_mem_nil

theorem append_iff : Fixes f (refs ++ refs') ↔ Fixes f refs ∧ Fixes f refs' := by
  constructor
  · intro h
    exact ⟨fun kind name hn => h kind name (List.mem_append_left _ hn),
      fun kind name hn => h kind name (List.mem_append_right _ hn)⟩
  · rintro ⟨h, h'⟩ kind name hn
    exact (List.mem_append.1 hn).elim (h kind name) (h' kind name)

theorem single_iff {kind : DeclarationKind} {name : QName} : Fixes f [.named kind name] ↔ f name = name := by
  constructor
  · exact fun h => h kind name List.mem_cons_self
  · intro h kind' name' hn
    cases List.mem_singleton.1 hn
    exact h

theorem option_iff {kind : DeclarationKind} {o : Option QName} :
    Fixes f (o.toList.map (.named kind)) ↔ o.map f = o := by
  cases o with
  | none => simp [nil_iff]
  | some name =>
    change Fixes f [.named kind name] ↔ _
    rw [single_iff, Option.map_some, Option.some.injEq]

theorem inline_iff {d : TypeDef} {context : Option QName} : Fixes f (.inline d context :: refs) ↔ Fixes f refs := by
  constructor
  · exact fun h kind name hn => h kind name (List.mem_cons_of_mem _ hn)
  · intro h kind name hn
    rcases List.mem_cons.1 hn with hn | hn
    · cases hn
    · exact h kind name hn

theorem flatMap_iff {α : Type} {l : List α} {g : α → List Mention} :
    Fixes f (l.flatMap g) ↔ ∀ a ∈ l, Fixes f (g a) := by
  constructor
  · intro h a ha kind name hn
    exact h kind name (List.mem_flatMap.2 ⟨a, ha, hn⟩)
  · intro h kind name hn
    obtain ⟨a, ha, hn⟩ := List.mem_flatMap.1 hn
    exact h a ha kind name hn

end Fixes

variable {f : QName → QName}

theorem Derivation.redirect_eq_self_iff {d : Derivation} :
    d.redirect f = d ↔ Fixes f (d.base?.toList.map (.named .type)) := by
  rw [Fixes.option_iff]
  cases d <;> simp [Derivation.redirect, Derivation.base?]

mutual

theorem TypeRef.redirect_eq_self_iff (context : Option QName) :
    ∀ r : TypeRef, r.redirect f = r ↔ Fixes f (r.mentions context)
  | .named name => by
    rw [TypeRef.redirect, TypeRef.mentions, Fixes.single_iff, TypeRef.named.injEq]
  | .inline d => by
    rw [TypeRef.redirect, TypeRef.mentions, Fixes.inline_iff, TypeRef.inline.injEq]
    exact TypeDef.redirect_eq_self_iff d
  | .unspecified => by
    simp [TypeRef.redirect, TypeRef.mentions, Fixes.nil_iff]

theorem TypeDef.redirect_eq_self_iff : ∀ d : TypeDef, d.redirect f = d ↔ Fixes f d.mentions
  | ⟨name, isAbstract, body⟩ => by
    rw [TypeDef.redirect, TypeDef.mentions, TypeDef.mk.injEq]
    simp [TypeBody.redirect_eq_self_iff body]

theorem TypeBody.redirect_eq_self_iff : ∀ b : TypeBody, b.redirect f = b ↔ Fixes f b.mentions
  | .builtin _ => by simp [TypeBody.redirect, TypeBody.mentions, Fixes.nil_iff]
  | .union => by simp [TypeBody.redirect, TypeBody.mentions, Fixes.nil_iff]
  | .restriction base _ => by simp [TypeBody.redirect, TypeBody.mentions, TypeRef.redirect_eq_self_iff none base]
  | .list item => by simp [TypeBody.redirect, TypeBody.mentions, TypeRef.redirect_eq_self_iff none item]
  | .complex d => by simp [TypeBody.redirect, TypeBody.mentions, ComplexDef.redirect_eq_self_iff d]

theorem ComplexDef.redirect_eq_self_iff : ∀ d : ComplexDef, d.redirect f = d ↔ Fixes f d.mentions
  | ⟨derivation, content, attributes, anyAttribute⟩ => by
    rw [ComplexDef.redirect, ComplexDef.mentions, Fixes.append_iff, Fixes.append_iff, ComplexDef.mk.injEq]
    simp [Derivation.redirect_eq_self_iff, Content.redirect_eq_self_iff content,
      AttributeUse.redirectList_eq_self_iff attributes, and_assoc]

theorem Content.redirect_eq_self_iff : ∀ c : Content, c.redirect f = c ↔ Fixes f c.mentions
  | .empty => by simp [Content.redirect, Content.mentions, Fixes.nil_iff]
  | .simple _ => by simp [Content.redirect, Content.mentions, Fixes.nil_iff]
  | .elements group => by simp [Content.redirect, Content.mentions, ModelGroup.redirect_eq_self_iff group]

theorem ModelGroup.redirect_eq_self_iff : ∀ g : ModelGroup, g.redirect f = g ↔ Fixes f g.mentions
  | ⟨compositor, occurs, particles⟩ => by
    rw [ModelGroup.redirect, ModelGroup.mentions, ModelGroup.mk.injEq]
    simp [Particle.redirectList_eq_self_iff particles]

theorem Particle.redirectList_eq_self_iff :
    ∀ l : List Particle, Particle.redirectList f l = l ↔ Fixes f (Particle.mentionsList l)
  | [] => by simp [Particle.redirectList, Particle.mentionsList, Fixes.nil_iff]
  | p :: rest => by
    rw [Particle.redirectList, Particle.mentionsList, Fixes.append_iff, List.cons.injEq]
    exact and_congr (Particle.redirect_eq_self_iff p) (Particle.redirectList_eq_self_iff rest)

theorem Particle.redirect_eq_self_iff : ∀ p : Particle, p.redirect f = p ↔ Fixes f p.mentions
  | .element d => by simp [Particle.redirect, Particle.mentions, ElementDecl.redirect_eq_self_iff d]
  | .elementRef name _ => by simp [Particle.redirect, Particle.mentions, Fixes.single_iff]
  | .group g => by simp [Particle.redirect, Particle.mentions, ModelGroup.redirect_eq_self_iff g]
  | .groupRef name _ => by simp [Particle.redirect, Particle.mentions, Fixes.single_iff]
  | .any _ => by simp [Particle.redirect, Particle.mentions, Fixes.nil_iff]

theorem ElementDecl.redirect_eq_self_iff : ∀ d : ElementDecl, d.redirect f = d ↔ Fixes f d.mentions
  | ⟨name, typeRef, occurs, isAbstract, head⟩ => by
    rw [ElementDecl.redirect, ElementDecl.mentions, Fixes.append_iff, Fixes.option_iff, ElementDecl.mk.injEq]
    simp [TypeRef.redirect_eq_self_iff (some name) typeRef, and_comm]

theorem AttributeDecl.redirect_eq_self_iff : ∀ d : AttributeDecl, d.redirect f = d ↔ Fixes f (d.typeRef.mentions none)
  | ⟨name, typeRef⟩ => by
    rw [AttributeDecl.redirect, AttributeDecl.mk.injEq]
    simp [TypeRef.redirect_eq_self_iff none typeRef]

theorem AttributeUse.redirectList_eq_self_iff :
    ∀ l : List AttributeUse, AttributeUse.redirectList f l = l ↔ Fixes f (AttributeUse.mentionsList l)
  | [] => by simp [AttributeUse.redirectList, AttributeUse.mentionsList, Fixes.nil_iff]
  | use :: rest => by
    rw [AttributeUse.redirectList, AttributeUse.mentionsList, Fixes.append_iff, List.cons.injEq]
    exact and_congr (AttributeUse.redirect_eq_self_iff use) (AttributeUse.redirectList_eq_self_iff rest)

theorem AttributeUse.redirect_eq_self_iff : ∀ u : AttributeUse, u.redirect f = u ↔ Fixes f u.mentions
  | .declared ⟨name, typeRef⟩ => by
    rw [AttributeUse.redirect, AttributeUse.mentions, AttributeUse.declared.injEq, AttributeDecl.redirect_eq_self_iff]
  | .reference name => by simp [AttributeUse.redirect, AttributeUse.mentions, Fixes.single_iff]
  | .group name => by simp [AttributeUse.redirect, AttributeUse.mentions, Fixes.single_iff]

end

theorem AttributeGroupDef.redirect_eq_self_iff {d : AttributeGroupDef} :
    d.redirect f = d ↔ Fixes f (AttributeUse.mentionsList d.attributes) := by
  obtain ⟨name, attributes, anyAttribute⟩ := d
  rw [redirect, AttributeGroupDef.mk.injEq]
  simp [AttributeUse.redirectList_eq_self_iff attributes]

theorem ModelGroupDef.redirect_eq_self_iff {d : ModelGroupDef} : d.redirect f = d ↔ Fixes f d.group.mentions := by
  obtain ⟨name, group⟩ := d
  rw [redirect, ModelGroupDef.mk.injEq]
  simp [ModelGroup.redirect_eq_self_iff group]

theorem map_eq_self_iff {α : Type} {g : α → α} {l : List α} : l.map g = l ↔ ∀ a ∈ l, g a = a := by
  constructor
  · intro h
    exact List.map_eq_map_iff.1 (h.trans (List.map_id l).symm)
  · intro h
    exact (List.map_congr_left h).trans (List.map_id l)

theorem SchemaDocument.redirect_eq_self_iff {doc : SchemaDocument} :
    doc.redirect f = doc ↔ Fixes f doc.mentions := by
  obtain ⟨target, elements, types, attributes, attributeGroups, groups⟩ := doc
  simp only [redirect, mentions, SchemaDocument.mk.injEq, true_and, map_eq_self_iff, Fixes.append_iff,
    Fixes.flatMap_iff, TypeDef.redirect_eq_self_iff, ElementDecl.redirect_eq_self_iff, Prod.ext_iff,
    AttributeDecl.redirect_eq_self_iff, AttributeGroupDef.redirect_eq_self_iff, ModelGroupDef.redirect_eq_self_iff,
    and_assoc]
  exact and_left_comm

end SchemaGraph
