import SchemaGraph.Declaration.Reading
import SchemaGraph.Proofs.Linking.Mentions

/-! What is read from a document.  Its types are named in its own namespace, and no type that is declared inline has a
name; the second is shown along the tree, with one lemma for each way of reading an element. -/
namespace SchemaGraph

def Nameless (refs : List Mention) : Prop := ∀ d context, Mention.inline d context ∈ refs → d.name = none

namespace Nameless

variable {refs refs' : List Mention}

theorem nil : Nameless [] := fun _ _ h => absurd h List.not_mem_nil

theorem append_iff : Nameless (refs ++ refs') ↔ Nameless refs ∧ Nameless refs' := by
  constructor
  · intro h
    exact ⟨fun d context hd => h d context (List.mem_append_left _ hd),
      fun d context hd => h d context (List.mem_append_right _ hd)⟩
  · rintro ⟨h, h'⟩ d context hd
    exact (List.mem_append.1 hd).elim (h d context) (h' d context)

theorem named {α : Type} (l : List α) (kind : α → DeclarationKind) (name : α → QName) :
    Nameless (l.map fun a => .named (kind a) (name a)) := by
  intro d context h
  obtain ⟨a, -, ha⟩ := List.mem_map.1 h
  cases ha

theorem single (kind : DeclarationKind) (name : QName) : Nameless [.named kind name] :=
  .named [name] (fun _ => kind) id

theorem flatMap_iff {α : Type} {l : List α} {f : α → List Mention} :
    Nameless (l.flatMap f) ↔ ∀ a ∈ l, Nameless (f a) := by
  constructor
  · intro h a ha d context hd
    exact h d context (List.mem_flatMap.2 ⟨a, ha, hd⟩)
  · intro h d context hd
    obtain ⟨a, ha, hd⟩ := List.mem_flatMap.1 hd
    exact h a ha d context hd

end Nameless

theorem TypeRef.nameless_iff {r : TypeRef} {context : Option QName} :
    Nameless (r.mentions context) ↔ ∀ d, r = .inline d → d.name = none ∧ Nameless d.mentions := by
  cases r with
  | named name => exact ⟨fun _ _ => nofun, fun _ => .single _ name⟩
  | unspecified => exact ⟨fun _ _ => nofun, fun _ => .nil⟩
  | inline d =>
    rw [TypeRef.mentions]
    constructor
    · rintro h _ ⟨⟩
      exact ⟨h d context List.mem_cons_self, fun d' context' hd => h d' context' (List.mem_cons_of_mem _ hd)⟩
    · intro h d' context' hd
      obtain ⟨own, inner⟩ := h d rfl
      rcases List.mem_cons.1 hd with hd | hd
      · cases hd
        exact own
      · exact inner d' context' hd

theorem ElementDecl.nameless_iff {d : ElementDecl} : Nameless d.mentions ↔ Nameless (d.typeRef.mentions none) := by
  obtain ⟨name, typeRef, occurs, isAbstract, head⟩ := d
  rw [ElementDecl.mentions, Nameless.append_iff, TypeRef.nameless_iff, TypeRef.nameless_iff]
  exact and_iff_right (.named _ _ _)

theorem ComplexDef.nameless_iff {d : ComplexDef} :
    Nameless d.mentions ↔ Nameless d.content.mentions ∧ Nameless (AttributeUse.mentionsList d.attributes) := by
  obtain ⟨derivation, content, attributes, anyAttribute⟩ := d
  rw [ComplexDef.mentions, Nameless.append_iff, Nameless.append_iff]
  exact and_congr_left' (and_iff_right (.named _ _ _))

theorem Particle.nameless_mentionsList {l : List Particle} (h : ∀ p ∈ l, Nameless p.mentions) :
    Nameless (Particle.mentionsList l) := by
  induction l with
  | nil => exact .nil
  | cons p l ih =>
    rw [List.forall_mem_cons] at h
    rw [Particle.mentionsList]
    exact Nameless.append_iff.2 ⟨h.1, ih h.2⟩

theorem AttributeUse.nameless_singleton {use : AttributeUse} :
    Nameless (AttributeUse.mentionsList [use]) ↔ Nameless use.mentions := by
  rw [AttributeUse.mentionsList, AttributeUse.mentionsList, List.append_nil]

abbrev Brings {α : Type} (r : Except DocumentError α) (Q : α → Prop) : Prop := Settles r Q fun _ => True

namespace Reading

/-- What an element is read as has no inline definition with a name, and a type has the name that it is given. -/
structure Plain (r : Reading) : Prop where
  elementDecl : ∀ isGlobal, Brings (r.elementDecl isGlobal) fun d => Nameless d.mentions
  complexType : ∀ name, Brings (r.complexType name) fun d => d.name = name ∧ Nameless d.mentions
  simpleType : ∀ name, Brings (r.simpleType name) fun d => d.name = name ∧ Nameless d.mentions
  simpleBody : ∀ parent, Brings (r.simpleBody parent) fun body => ∀ b, body = some b → Nameless b.mentions
  modelGroup : ∀ compositor, Brings (r.modelGroup compositor) fun g => Nameless g.mentions
  complexDerivation : ∀ parent d, Nameless d.mentions →
    Brings (r.complexDerivation parent d) fun d => Nameless d.mentions
  simpleDerivation : ∀ parent d, Nameless d.mentions →
    Brings (r.simpleDerivation parent d) fun d => Nameless d.mentions
  contentOf : ∀ d, Nameless d.mentions → Brings (r.contentOf d) fun d => Nameless d.mentions
  attributeDecl : Brings r.attributeDecl fun d => Nameless (d.typeRef.mentions none)
  attributeGroup : Brings r.attributeGroup fun g => Nameless (AttributeUse.mentionsList g.attributes)
  groupDef : Brings r.groupDef fun g => Nameless g.group.mentions

variable {ctx : NameContext} {e parent : Markup.Element} {part : Markup.Element × Reading} {parts : Parts}
  {d : ComplexDef}

section Parts

variable (plain : ∀ part ∈ parts, part.2.Plain)
include plain

theorem inlineType_brings : Brings (inlineType parts) fun r => Nameless (r.mentions none) := by
  unfold inlineType
  split
  · exact .nil
  · next e r found =>
    have reading : r.Plain := plain _ (List.mem_of_find?_eq_some found)
    have own : ∀ d : TypeDef, d.name = none ∧ Nameless d.mentions → Nameless ((TypeRef.inline d).mentions none) := by
      intro d hd
      refine TypeRef.nameless_iff.2 ?_
      rintro _ ⟨⟩
      exact hd
    refine Settles.map_iff.2 ?_
    split
    · exact (reading.complexType none).mono own fun _ => id
    · exact (reading.simpleType none).mono own fun _ => id

theorem typeRef_brings (key : String) : Brings (typeRef e key parts) fun r => Nameless (r.mentions none) := by
  unfold typeRef
  refine Settles.trivial.bind fun name _ => ?_
  cases name with
  | some name => exact .single _ name
  | none => exact inlineType_brings plain

theorem readElementDecl_brings (isGlobal : Bool) :
    Brings (readElementDecl ctx e parts isGlobal) fun d => Nameless d.mentions := by
  unfold readElementDecl
  refine Settles.trivial.bind fun localName _ => ?_
  refine (typeRef_brings plain "type").bind fun r hr => ?_
  refine Settles.trivial.bind fun occurs _ => ?_
  refine Settles.trivial.bind fun isAbstract _ => ?_
  refine Settles.trivial.bind fun head _ => ?_
  exact ElementDecl.nameless_iff.2 hr

end Parts

theorem groupRef_brings : Brings (groupRef e) fun p => Nameless p.mentions := by
  unfold groupRef
  refine Settles.trivial.bind fun name _ => Settles.trivial.bind fun occurs _ => ?_
  exact .single _ name

theorem particle?_brings (plain : part.2.Plain) :
    Brings (particle? parent part) fun p => ∀ q, p = some q → Nameless q.mentions := by
  obtain ⟨e, r⟩ := part
  unfold particle?
  dsimp only
  split
  · refine (plain.modelGroup _).bind fun g hg => ?_
    rintro _ ⟨⟩
    exact hg
  split
  · refine Settles.trivial.bind fun name _ => ?_
    cases name with
    | some name =>
      refine Settles.trivial.bind fun occurs _ => ?_
      rintro _ ⟨⟩
      exact .single _ name
    | none =>
      refine (plain.elementDecl false).bind fun d hd => ?_
      rintro _ ⟨⟩
      exact hd
  · refine groupRef_brings.bind fun p hp => ?_
    rintro _ ⟨⟩
    exact hp
  · refine Settles.trivial.bind fun occurs _ => ?_
    rintro _ ⟨⟩
    exact .nil
  · exact fun _ => nofun
  · trivial

theorem readModelGroup_brings (plain : ∀ part ∈ parts, part.2.Plain) (compositor : Compositor) :
    Brings (readModelGroup e parts compositor) fun g => Nameless g.mentions := by
  unfold readModelGroup
  refine (Settles.mapM fun part hpart => particle?_brings (plain part hpart)).bind fun particles hparticles => ?_
  refine Settles.trivial.bind fun occurs _ => ?_
  change Nameless (ModelGroup.mentions ⟨compositor, occurs, particles.filterMap id⟩)
  rw [ModelGroup.mentions]
  refine Particle.nameless_mentionsList fun p hp => ?_
  obtain ⟨o, ho, same⟩ := List.mem_filterMap.1 hp
  exact hparticles o ho p same

theorem attributeUse?_brings (plain : part.2.Plain) :
    Brings (attributeUse? part) fun use => Nameless (AttributeUse.mentionsList use.toList) := by
  obtain ⟨e, r⟩ := part
  unfold attributeUse?
  dsimp only
  split
  · exact .nil
  refine Settles.trivial.bind fun name _ => ?_
  split
  · next name _ => exact AttributeUse.nameless_singleton.2 (.single _ name)
  · trivial
  · next name _ => exact AttributeUse.nameless_singleton.2 (.single _ name)
  · refine plain.attributeDecl.bind fun d hd => AttributeUse.nameless_singleton.2 ?_
    obtain ⟨name, typeRef⟩ := d
    rw [AttributeUse.mentions]
    exact hd

theorem nameless_append {uses : List AttributeUse} (h : Nameless (AttributeUse.mentionsList uses))
    {use : Option AttributeUse} (hu : Nameless (AttributeUse.mentionsList use.toList)) :
    Nameless (AttributeUse.mentionsList (uses ++ use.toList)) := by
  rw [AttributeUse.mentionsList_append]
  exact Nameless.append_iff.2 ⟨h, hu⟩

theorem addAttribute_brings (plain : part.2.Plain) (hd : Nameless d.mentions) :
    Brings (addAttribute part d) fun d => Nameless d.mentions := by
  rw [ComplexDef.nameless_iff] at hd
  exact (attributeUse?_brings plain).bind fun use hu => ComplexDef.nameless_iff.2 ⟨hd.1, nameless_append hd.2 hu⟩

theorem addPart_brings (plain : part.2.Plain) (hd : Nameless d.mentions) :
    Brings (addPart parent d part) fun d => Nameless d.mentions := by
  obtain ⟨e, r⟩ := part
  have ⟨content, attributes⟩ := ComplexDef.nameless_iff.1 hd
  unfold addPart
  dsimp only
  split
  · refine (plain.modelGroup _).bind fun g hg => ?_
    exact ComplexDef.nameless_iff.2 ⟨hg, attributes⟩
  split
  · refine groupRef_brings.bind fun p hp => ?_
    refine ComplexDef.nameless_iff.2 ⟨?_, attributes⟩
    exact Particle.nameless_mentionsList fun q hq => List.mem_singleton.1 hq ▸ hp
  · exact addAttribute_brings plain hd
  · exact addAttribute_brings plain hd
  · exact ComplexDef.nameless_iff.2 ⟨content, attributes⟩
  · exact hd
  · trivial

theorem foldlM_addPart_brings (plain : ∀ part ∈ parts, part.2.Plain) (hd : Nameless d.mentions) :
    Brings (parts.foldlM (addPart parent) d) fun d => Nameless d.mentions :=
  Settles.foldlM hd fun part hpart _ h => addPart_brings (plain part hpart) h

theorem readComplexDerivation_brings (plain : ∀ part ∈ parts, part.2.Plain) (hd : Nameless d.mentions) :
    Brings (readComplexDerivation e parts parent d) fun d => Nameless d.mentions := by
  have ⟨content, attributes⟩ := ComplexDef.nameless_iff.1 hd
  have derived (derivation : Derivation) : Nameless (ComplexDef.mentions { d with derivation }) :=
    ComplexDef.nameless_iff.2 ⟨content, attributes⟩
  unfold readComplexDerivation
  split
  · exact Settles.trivial.bind fun base _ => foldlM_addPart_brings plain (derived _)
  · exact Settles.trivial.bind fun base _ => foldlM_addPart_brings plain (derived _)
  · exact hd
  · trivial

theorem addFacet_brings {acc : List String × ComplexDef} (plain : part.2.Plain) (hd : Nameless acc.2.mentions) :
    Brings (addFacet acc part) fun acc => Nameless acc.2.mentions := by
  have ⟨content, attributes⟩ := ComplexDef.nameless_iff.1 hd
  unfold addFacet
  split
  · exact Settles.trivial.bind fun value _ => hd
  · exact (addAttribute_brings plain hd).bind fun _ h => h
  · exact (addAttribute_brings plain hd).bind fun _ h => h
  · exact ComplexDef.nameless_iff.2 ⟨content, attributes⟩
  · exact hd

theorem readSimpleDerivation_brings (plain : ∀ part ∈ parts, part.2.Plain) (hd : Nameless d.mentions) :
    Brings (readSimpleDerivation e parts parent d) fun d => Nameless d.mentions := by
  have ⟨content, attributes⟩ := ComplexDef.nameless_iff.1 hd
  have facets (derivation : Derivation) :
      Brings (parts.foldlM addFacet ([], { d with derivation })) fun acc => Nameless acc.2.mentions :=
    Settles.foldlM (ComplexDef.nameless_iff.2 ⟨content, attributes⟩) fun part hpart _ h =>
      addFacet_brings (plain part hpart) h
  have simple (acc : List String × ComplexDef) (h : Nameless acc.2.mentions) :
      Nameless (ComplexDef.mentions { acc.2 with content := .simple acc.1 }) :=
    ComplexDef.nameless_iff.2 ⟨.nil, (ComplexDef.nameless_iff.1 h).2⟩
  unfold readSimpleDerivation
  refine Settles.trivial.bind fun base _ => ?_
  cases base with
  | none =>
    dsimp only
    split
    · trivial
    · trivial
    · exact hd
    · trivial
  | some name =>
    dsimp only
    split
    · exact (facets _).bind simple
    · exact (facets _).bind simple
    · exact hd
    · trivial

theorem readContent_brings (plain : ∀ part ∈ parts, part.2.Plain) (hd : Nameless d.mentions) :
    Brings (readContent e parts d) fun d => Nameless d.mentions := by
  unfold readContent
  split
  · exact Settles.foldlM hd fun part hpart _ h => (plain part hpart).complexDerivation e _ h
  · exact Settles.foldlM hd fun part hpart _ h => (plain part hpart).simpleDerivation e _ h

theorem addTypePart_brings (plain : part.2.Plain) (hd : Nameless d.mentions) :
    Brings (addTypePart parent d part) fun d => Nameless d.mentions := by
  unfold addTypePart
  split
  · exact plain.contentOf d hd
  · exact plain.contentOf d hd
  · exact hd
  · exact addPart_brings plain hd

theorem readComplexType_brings (plain : ∀ part ∈ parts, part.2.Plain) (name : Option QName) :
    Brings (readComplexType e parts name) fun d => d.name = name ∧ Nameless d.mentions := by
  have empty : Nameless ComplexDef.empty.mentions := .nil
  have read : Brings (parts.foldlM (addTypePart e) ComplexDef.empty) fun d => Nameless d.mentions :=
    Settles.foldlM empty fun part hpart _ h => addTypePart_brings (plain part hpart) h
  unfold readComplexType
  refine read.bind fun d hd => Settles.trivial.bind fun isAbstract _ => ?_
  exact ⟨rfl, hd⟩

theorem readSimpleBody_brings (plain : ∀ part ∈ parts, part.2.Plain) :
    Brings (readSimpleBody e parts parent) fun body => ∀ b, body = some b → Nameless b.mentions := by
  unfold readSimpleBody
  split
  · refine (typeRef_brings plain "base").bind fun base hbase => Settles.trivial.bind fun literals _ => ?_
    rintro _ ⟨⟩
    exact hbase
  · refine (typeRef_brings plain "itemType").bind fun item hitem => ?_
    rintro _ ⟨⟩
    exact hitem
  · rintro _ ⟨⟩
    exact .nil
  · exact fun _ => nofun
  · trivial

theorem readSimpleType_brings (plain : ∀ part ∈ parts, part.2.Plain) (name : Option QName) :
    Brings (readSimpleType e parts name) fun d => d.name = name ∧ Nameless d.mentions := by
  unfold readSimpleType
  refine (Settles.mapM fun part hpart => (plain part hpart).simpleBody e).bind fun bodies hbodies => ?_
  split
  · next body last =>
    obtain ⟨o, ho, same⟩ := List.mem_filterMap.1 (List.mem_of_getLast? last)
    exact ⟨rfl, hbodies o ho body same⟩
  · trivial

theorem readAttributeDecl_brings (plain : ∀ part ∈ parts, part.2.Plain) :
    Brings (readAttributeDecl e parts) fun d => Nameless (d.typeRef.mentions none) := by
  unfold readAttributeDecl
  exact Settles.trivial.bind fun name _ => (typeRef_brings plain "type").bind fun r hr => hr

theorem addToAttributeGroup_brings {g : AttributeGroupDef} (plain : part.2.Plain)
    (hg : Nameless (AttributeUse.mentionsList g.attributes)) :
    Brings (addToAttributeGroup parent g part) fun g => Nameless (AttributeUse.mentionsList g.attributes) := by
  unfold addToAttributeGroup
  split
  · exact (attributeUse?_brings plain).bind fun use hu => nameless_append hg hu
  · exact (attributeUse?_brings plain).bind fun use hu => nameless_append hg hu
  · exact hg
  · exact hg
  · trivial

theorem readAttributeGroup_brings (plain : ∀ part ∈ parts, part.2.Plain) :
    Brings (readAttributeGroup ctx e parts) fun g => Nameless (AttributeUse.mentionsList g.attributes) := by
  unfold readAttributeGroup
  refine Settles.trivial.bind fun name _ => ?_
  exact Settles.foldlM (I := fun g : AttributeGroupDef => Nameless (AttributeUse.mentionsList g.attributes)) .nil
    fun part hpart _ h => addToAttributeGroup_brings (plain part hpart) h

theorem readGroupDef_brings (plain : ∀ part ∈ parts, part.2.Plain) :
    Brings (readGroupDef ctx e parts) fun g => Nameless g.group.mentions := by
  unfold readGroupDef
  refine Settles.trivial.bind fun localName _ => ?_
  dsimp only
  split
  · next group found =>
    obtain ⟨⟨e, r⟩, hpart, here⟩ := List.exists_of_findSome?_eq_some found
    obtain ⟨compositor, -, rfl⟩ := Option.map_eq_some_iff.1 here
    exact ((plain _ hpart).modelGroup compositor).bind fun g hg => hg
  · trivial

theorem plain_ofParts (plain : ∀ part ∈ parts, part.2.Plain) : (ofParts ctx e parts).Plain where
  elementDecl := readElementDecl_brings plain
  complexType := readComplexType_brings plain
  simpleType := readSimpleType_brings plain
  simpleBody _ := readSimpleBody_brings plain
  modelGroup := readModelGroup_brings plain
  complexDerivation _ _ := readComplexDerivation_brings plain
  simpleDerivation _ _ := readSimpleDerivation_brings plain
  contentOf _ := readContent_brings plain
  attributeDecl := readAttributeDecl_brings plain
  attributeGroup := readAttributeGroup_brings plain
  groupDef := readGroupDef_brings plain

mutual

theorem plain_ofElement (ctx : NameContext) : ∀ e : Markup.Element, (ofElement ctx e).Plain
  | ⟨label, localName, attributes, scope, children⟩ => by
    rw [ofElement]
    exact plain_ofParts (plain_partsOf ctx children)

theorem plain_partsOf (ctx : NameContext) : ∀ l : List Markup.Element, ∀ part ∈ partsOf ctx l, part.2.Plain
  | [] => fun _ h => absurd h List.not_mem_nil
  | e :: rest => by
    rw [partsOf]
    exact List.forall_mem_cons.2 ⟨plain_ofElement ctx e, plain_partsOf ctx rest⟩

end

end Reading

namespace SchemaDocument

structure Own (doc : SchemaDocument) : Prop where
  types : ∀ d ∈ doc.types, (∃ localName, d.name = some ⟨doc.targetNamespace, localName⟩) ∧ Nameless d.mentions
  elements : ∀ d ∈ doc.elements, Nameless d.mentions
  attributes : ∀ p ∈ doc.attributes, Nameless (p.2.typeRef.mentions none)
  attributeGroups : ∀ g ∈ doc.attributeGroups, Nameless (AttributeUse.mentionsList g.attributes)
  groups : ∀ g ∈ doc.groups, Nameless g.group.mentions

theorem addGlobal_brings {ctx : NameContext} {doc : SchemaDocument} {part : Markup.Element × Reading}
    (plain : part.2.Plain) (h : doc.targetNamespace = ctx.target ∧ doc.Own) :
    Brings (addGlobal ctx doc part) fun doc => doc.targetNamespace = ctx.target ∧ doc.Own := by
  obtain ⟨e, r⟩ := part
  obtain ⟨target, own⟩ := h
  unfold addGlobal
  dsimp only
  split
  · refine (plain.elementDecl true).bind fun d hd => ?_
    exact ⟨target, { own with elements := List.forall_mem_append.2 ⟨own.elements, List.forall_mem_singleton.2 hd⟩ }⟩
  · refine Settles.trivial.bind fun localName _ => (plain.complexType _).bind fun d hd => ?_
    refine ⟨target, { own with
      types := List.forall_mem_append.2 ⟨own.types, List.forall_mem_singleton.2 ⟨⟨localName, ?_⟩, hd.2⟩⟩ }⟩
    rw [hd.1, target]
    rfl
  · refine Settles.trivial.bind fun localName _ => (plain.simpleType _).bind fun d hd => ?_
    refine ⟨target, { own with
      types := List.forall_mem_append.2 ⟨own.types, List.forall_mem_singleton.2 ⟨⟨localName, ?_⟩, hd.2⟩⟩ }⟩
    rw [hd.1, target]
    rfl
  · refine plain.attributeDecl.bind fun d hd => ?_
    exact ⟨target, { own with
      attributes := List.forall_mem_append.2 ⟨own.attributes, List.forall_mem_singleton.2 hd⟩ }⟩
  · refine plain.attributeGroup.bind fun g hg => ?_
    exact ⟨target, { own with
      attributeGroups := List.forall_mem_append.2 ⟨own.attributeGroups, List.forall_mem_singleton.2 hg⟩ }⟩
  · refine plain.groupDef.bind fun g hg => ?_
    exact ⟨target, { own with groups := List.forall_mem_append.2 ⟨own.groups, List.forall_mem_singleton.2 hg⟩ }⟩
  · exact ⟨target, own⟩
  · exact ⟨target, own⟩
  · exact ⟨target, own⟩
  · exact ⟨target, own⟩
  · trivial

theorem own_ofText {text : String} {doc : SchemaDocument} (read : ofText text = .ok doc) : doc.Own := by
  have brings : Brings (ofText text) Own := by
    unfold ofText
    refine Settles.trivial.bind fun root _ => ?_
    unfold ofElement
    split
    · trivial
    have start : Own { targetNamespace := root.attr? "targetNamespace" } :=
      ⟨fun _ h => absurd h List.not_mem_nil, fun _ h => absurd h List.not_mem_nil, fun _ h => absurd h List.not_mem_nil,
        fun _ h => absurd h List.not_mem_nil, fun _ h => absurd h List.not_mem_nil⟩
    let ctx : NameContext := ⟨root.attr? "targetNamespace", root.attr? "elementFormDefault" == some "qualified"⟩
    have added : Brings ((Reading.partsOf ctx root.children).foldlM (addGlobal ctx) { targetNamespace := ctx.target })
        fun doc => doc.targetNamespace = ctx.target ∧ doc.Own :=
      Settles.foldlM ⟨rfl, start⟩ fun part hpart _ h => addGlobal_brings (Reading.plain_partsOf _ _ part hpart) h
    exact added.mono (fun _ h => h.2) fun _ => id
  exact brings.answer read

end SchemaDocument

end SchemaGraph
