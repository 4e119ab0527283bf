import SchemaGraph.Proofs.Declaration.Comparison

/-! Two readings side by side.  Elements that agree, and whose children agree in turn, are read alike: one lemma for
each way of reading an element, from its parts to the declarations of a document. -/
namespace SchemaGraph

open Markup (Element)

namespace Comparison

variable {c : Comparison}

/-- Two elements are read alike in every position.  The elements around them show in faults only. -/
structure Readings (c : Comparison) (r s : Reading) : Prop where
  elementDecl : ∀ isGlobal, c.Follows (·.redirect c.move) (r.elementDecl isGlobal) (s.elementDecl isGlobal)
  complexType : ∀ name, c.Follows (·.redirect c.move) (r.complexType name) (s.complexType name)
  simpleType : ∀ name, c.Follows (·.redirect c.move) (r.simpleType name) (s.simpleType name)
  simpleBody : ∀ p q : Element, (c.exact → q.tag = p.tag) →
    c.Follows (Option.map (·.redirect c.move)) (r.simpleBody p) (s.simpleBody q)
  modelGroup : ∀ compositor, c.Follows (·.redirect c.move) (r.modelGroup compositor) (s.modelGroup compositor)
  complexDerivation : ∀ p q : Element, (c.exact → q.tag = p.tag) → ∀ d,
    c.Follows (·.redirect c.move) (r.complexDerivation p d) (s.complexDerivation q (d.redirect c.move))
  simpleDerivation : ∀ p q : Element, (c.exact → q.tag = p.tag) → ∀ d,
    c.Follows (·.redirect c.move) (r.simpleDerivation p d) (s.simpleDerivation q (d.redirect c.move))
  contentOf : ∀ d, c.Follows (·.redirect c.move) (r.contentOf d) (s.contentOf (d.redirect c.move))
  attributeDecl : c.Follows (·.redirect c.move) r.attributeDecl s.attributeDecl
  attributeGroup : c.Follows (·.redirect c.move) r.attributeGroup s.attributeGroup
  groupDef : c.Follows (·.redirect c.move) r.groupDef s.groupDef

/-- An annotation with its reading: where a derivation may stand, it is none. -/
structure Silent (part : Element × Reading) : Prop where
  note : part.1.isNote
  simpleBody : ∀ parent, part.2.simpleBody parent = .ok none
  complexDerivation : ∀ parent d, part.2.complexDerivation parent d = .ok d
  simpleDerivation : ∀ parent d, part.2.simpleDerivation parent d = .ok d

def Pair (c : Comparison) (p q : Element × Reading) : Prop := c.Heads p.1 q.1 ∧ c.Readings p.2 q.2

abbrev Parts (c : Comparison) : Reading.Parts → Reading.Parts → Prop := Beside Silent Silent c.Pair

section Parts

open Reading

variable {ctx : NameContext} {a b e e' : Element} {p q part : Element × Reading} {ps qs : Reading.Parts}

theorem localName_of_silent (h : Silent part) : part.1.localName = "annotation" := Element.localName_of_isNote h.note

theorem inlineType_follows (h : c.Parts ps qs) : c.Follows (·.redirect c.move) (inlineType ps) (inlineType qs) := by
  have first : Option.Rel c.Pair (ps.find? fun p => p.1.localName == "complexType" || p.1.localName == "simpleType")
      (qs.find? fun q => q.1.localName == "complexType" || q.1.localName == "simpleType") :=
    h.find? (fun _ hs => by rw [localName_of_silent hs]; decide) (fun _ hs => by rw [localName_of_silent hs]; decide)
      fun _ _ pair => by rw [pair.1.localName]
  unfold inlineType
  revert first
  generalize ps.find? _ = found, qs.find? _ = found'
  rintro (⟨hd, rd⟩ | _)
  · dsimp only
    rw [hd.localName]
    split
    · exact (rd.complexType none).map fun _ => rfl
    · exact (rd.simpleType none).map fun _ => rfl
  · exact .pure TypeRef.unspecified

theorem typeRef_follows (hd : c.Heads a b) (h : c.Parts ps qs) {key : String} (mem : key ∈ nameKeys) :
    c.Follows (·.redirect c.move) (typeRef a key ps) (typeRef b key qs) := by
  unfold typeRef
  refine (hd.qname? key mem).bind fun name => ?_
  cases name with
  | some name => exact .pure (TypeRef.named name)
  | none => exact inlineType_follows h

theorem readElementDecl_follows (hd : c.Heads a b) (h : c.Parts ps qs) (isGlobal : Bool) :
    c.Follows (·.redirect c.move) (readElementDecl ctx a ps isGlobal) (readElementDecl ctx b qs isGlobal) := by
  have localNamed (n : String) : ctx.localName b n = ctx.localName a n := by
    unfold NameContext.localName
    rw [hd.attr? "form" (by decide) (by decide)]
  unfold readElementDecl
  refine hd.name.bind fun n => ?_
  refine (typeRef_follows hd h (by decide)).bind fun r => ?_
  refine hd.readOccurs.bind fun occurs => ?_
  refine (hd.readFlag (by decide) (by decide)).bind fun isAbstract => ?_
  refine (hd.qname? _ (by decide)).bind fun head => ?_
  dsimp only [id]
  rw [localNamed]
  exact .pure (ElementDecl.mk _ r occurs isAbstract head)

theorem groupRef_follows (hd : c.Heads a b) : c.Follows (·.redirect c.move) (groupRef a) (groupRef b) := by
  unfold groupRef
  refine (hd.qname (by decide)).bind fun name => hd.readOccurs.bind fun occurs => ?_
  exact .pure (Particle.groupRef name occurs)

theorem particle?_silent (parent : Element) (h : Silent part) : particle? parent part = .ok none := by
  unfold particle?
  dsimp only
  rw [localName_of_silent h]
  rfl

theorem particle?_follows (tag : c.exact → e'.tag = e.tag) (h : c.Pair p q) :
    c.Follows (Option.map (·.redirect c.move)) (particle? e p) (particle? e' q) := by
  obtain ⟨hd, rd⟩ := h
  unfold particle?
  dsimp only
  -- With one local name on both sides, a case of the first reading is the same case of the second.
  rw [hd.localName]
  generalize p.1.localName = n
  split
  · exact (rd.modelGroup _).bind fun g => .pure (some (Particle.group g))
  split
  · refine (hd.qname? "ref" (by decide)).bind fun name => ?_
    cases name with
    | some name => exact hd.readOccurs.bind fun occurs => .pure (some (Particle.elementRef name occurs))
    | none => exact (rd.elementDecl false).bind fun d => .pure (some (Particle.element d))
  · exact (groupRef_follows hd).bind fun g => .pure (some g)
  · exact hd.readOccurs.bind fun occurs => .pure (some (Particle.any occurs))
  · exact .pure none
  · exact .throw fun exact => by rw [hd.tag exact, tag exact]

theorem readModelGroup_follows (hd : c.Heads a b) (h : c.Parts ps qs) (compositor : Compositor) :
    c.Follows (·.redirect c.move) (readModelGroup a ps compositor) (readModelGroup b qs compositor) := by
  have read (e : Element) (parts : Reading.Parts) : readModelGroup e parts compositor =
      (List.filterMap id <$> parts.mapM (particle? e)) >>= fun particles =>
        readOccurs e >>= fun occurs => pure ⟨compositor, occurs, particles⟩ := by
    unfold readModelGroup
    cases parts.mapM (particle? e) <;> rfl
  rw [read, read]
  refine (Follows.collect h (fun _ => particle?_silent a) (fun _ => particle?_silent b)
    fun _ _ => particle?_follows hd.tag).bind fun particles => hd.readOccurs.bind fun occurs => ?_
  rw [← Particle.redirectList_eq_map]
  exact .pure (ModelGroup.mk compositor occurs particles)

theorem attributeUse?_follows (h : c.Pair p q) :
    c.Follows (Option.map (·.redirect c.move)) (attributeUse? p) (attributeUse? q) := by
  obtain ⟨hd, rd⟩ := h
  unfold attributeUse?
  dsimp only
  rw [hd.attr? "use" (by decide) (by decide), hd.localName]
  split
  · exact .pure none
  refine (hd.qname? "ref" (by decide)).bind fun name => ?_
  by_cases here : p.1.localName = "attributeGroup"
  · rw [here]
    cases name with
    | some name => exact .pure (some (AttributeUse.group name))
    | none => exact .throw fun exact => by rw [hd.tag exact]
  · cases name with
    | some name => 
      simp only [Option.map_some]
      exact .pure (some (AttributeUse.reference name))
    | none => 
      simp only [Option.map_none]
      exact rd.attributeDecl.bind fun d => .pure (some (AttributeUse.declared d))

theorem redirect_addAttribute (d : ComplexDef) (use : Option AttributeUse) :
    ComplexDef.redirect c.move { d with attributes := d.attributes ++ use.toList } =
      { d.redirect c.move with
        attributes := (d.redirect c.move).attributes ++ (use.map (·.redirect c.move)).toList } := by
  obtain ⟨derivation, content, attributes, anyAttribute⟩ := d
  cases use <;> simp [ComplexDef.redirect, AttributeUse.redirectList_eq_map]

theorem addAttribute_follows (h : c.Pair p q) (d : ComplexDef) :
    c.Follows (·.redirect c.move) (addAttribute p d) (addAttribute q (d.redirect c.move)) := by
  unfold addAttribute
  refine (attributeUse?_follows h).bind fun use => ?_
  rw [← redirect_addAttribute]
  exact .pure _

theorem addPart_silent (parent : Element) (h : Silent part) (d : ComplexDef) : addPart parent d part = .ok d := by
  unfold addPart
  dsimp only
  rw [localName_of_silent h]
  rfl

theorem addPart_follows (tag : c.exact → e'.tag = e.tag) (h : c.Pair p q) (d : ComplexDef) :
    c.Follows (·.redirect c.move) (addPart e d p) (addPart e' (d.redirect c.move) q) := by
  have ⟨hd, rd⟩ := h
  obtain ⟨derivation, content, attributes, anyAttribute⟩ := d
  unfold addPart
  dsimp only
  rw [hd.localName]
  generalize p.1.localName = n
  split
  · exact (rd.modelGroup _).bind fun g => .pure (ComplexDef.mk derivation (.elements g) attributes anyAttribute)
  split
  · refine (groupRef_follows hd).bind fun g => ?_
    exact .pure (ComplexDef.mk derivation (.elements ⟨.sequence, .once, [g]⟩) attributes anyAttribute)
  · exact addAttribute_follows h _
  · exact addAttribute_follows h _
  · exact .pure (ComplexDef.mk derivation content attributes true)
  · exact .pure (ComplexDef.mk derivation content attributes anyAttribute)
  · exact .throw fun exact => by rw [hd.tag exact, tag exact]

theorem readComplexDerivation_follows (hd : c.Heads a b) (h : c.Parts ps qs) (tag : c.exact → e'.tag = e.tag)
    (d : ComplexDef) : c.Follows (·.redirect c.move) (readComplexDerivation a ps e d)
      (readComplexDerivation b qs e' (d.redirect c.move)) := by
  have parts (d : ComplexDef) : c.Follows (·.redirect c.move) (ps.foldlM (addPart a) d)
      (qs.foldlM (addPart b) (d.redirect c.move)) :=
    Follows.foldlM h (fun _ => addPart_silent a) (fun _ => addPart_silent b) (fun _ _ => addPart_follows hd.tag) d
  obtain ⟨derivation, content, attributes, anyAttribute⟩ := d
  unfold readComplexDerivation
  rw [hd.localName]
  generalize a.localName = n
  split
  · exact (hd.qname (by decide)).bind fun base => parts ⟨.extension base, content, attributes, anyAttribute⟩
  · exact (hd.qname (by decide)).bind fun base => parts ⟨.restriction base, content, attributes, anyAttribute⟩
  · exact .pure (ComplexDef.mk derivation content attributes anyAttribute)
  · exact .throw fun exact => by rw [hd.tag exact, tag exact]

theorem readComplexDerivation_note (note : e.isNote) (parent : Element) (d : ComplexDef) :
    readComplexDerivation e ps parent d = .ok d := by
  unfold readComplexDerivation
  rw [Element.localName_of_isNote note]
  rfl

theorem addFacet_silent (h : Silent part) (acc : List String × ComplexDef) : addFacet acc part = .ok acc := by
  unfold addFacet
  rw [localName_of_silent h]
  rfl

theorem addFacet_follows (h : c.Pair p q) (acc : List String × ComplexDef) :
    c.Follows (Prod.map id (·.redirect c.move)) (addFacet acc p) (addFacet (acc.1, acc.2.redirect c.move) q) := by
  have ⟨hd, rd⟩ := h
  unfold addFacet
  rw [hd.localName]
  generalize p.1.localName = n
  split
  · exact (hd.attr (show Unlabelled "value" by decide) (by decide)).bind fun value => .pure (acc.1 ++ [value], acc.2)
  · exact (addAttribute_follows h acc.2).bind fun d => .pure (acc.1, d)
  · exact (addAttribute_follows h acc.2).bind fun d => .pure (acc.1, d)
  · obtain ⟨literals, derivation, content, attributes, anyAttribute⟩ := acc
    exact .pure (literals, ComplexDef.mk derivation content attributes true)
  · exact .pure acc

theorem readSimpleDerivation_follows (hd : c.Heads a b) (h : c.Parts ps qs) (tag : c.exact → e'.tag = e.tag)
    (d : ComplexDef) : c.Follows (·.redirect c.move) (readSimpleDerivation a ps e d)
      (readSimpleDerivation b qs e' (d.redirect c.move)) := by
  have facets (acc : List String × ComplexDef) : c.Follows (Prod.map id (·.redirect c.move)) (ps.foldlM addFacet acc)
      (qs.foldlM addFacet (acc.1, acc.2.redirect c.move)) :=
    Follows.foldlM h (fun _ => addFacet_silent) (fun _ => addFacet_silent) (fun _ _ => addFacet_follows) acc
  have derived (derivation : Derivation) : c.Follows (·.redirect c.move)
      (ps.foldlM addFacet ([], { d with derivation }) >>= fun acc => pure { acc.2 with content := .simple acc.1 })
      (qs.foldlM addFacet ([], { d.redirect c.move with derivation := derivation.redirect c.move }) >>= fun acc =>
        pure { acc.2 with content := .simple acc.1 }) := by
    obtain ⟨_, content, attributes, anyAttribute⟩ := d
    refine (facets ([], ⟨derivation, content, attributes, anyAttribute⟩)).bind fun acc => ?_
    obtain ⟨literals, derivation, content, attributes, anyAttribute⟩ := acc
    exact .pure (ComplexDef.mk derivation (.simple literals) attributes anyAttribute)
  unfold readSimpleDerivation
  -- The base is looked at before the local name, so that an annotation with one can fail.
  refine (hd.qname? "base" (by decide)).bind fun base => ?_
  dsimp only
  rw [hd.localName]
  generalize a.localName = n
  split
  · cases base with
    | some base => exact derived (.extension base)
    | none => exact .throw fun exact => by rw [hd.tag exact]
  · cases base with
    | some base => exact derived (.restriction base)
    | none => exact .throw fun exact => by rw [hd.tag exact]
  · exact .pure d
  · exact .throw fun exact => by rw [hd.tag exact, tag exact]

theorem readSimpleDerivation_note (note : e.isNote) (parent : Element) (d : ComplexDef) :
    readSimpleDerivation e ps parent d = .ok d := by
  unfold readSimpleDerivation Element.qname?
  rw [Element.base_of_isNote note, Element.localName_of_isNote note]
  rfl

theorem readContent_follows (hd : c.Heads a b) (h : c.Parts ps qs) (d : ComplexDef) :
    c.Follows (·.redirect c.move) (readContent a ps d) (readContent b qs (d.redirect c.move)) := by
  unfold readContent
  rw [hd.localName]
  split
  · exact Follows.foldlM h (fun _ hs => hs.complexDerivation a) (fun _ hs => hs.complexDerivation b)
      (fun _ _ pair => pair.2.complexDerivation a b hd.tag) d
  · exact Follows.foldlM h (fun _ hs => hs.simpleDerivation a) (fun _ hs => hs.simpleDerivation b)
      (fun _ _ pair => pair.2.simpleDerivation a b hd.tag) d

theorem addTypePart_silent (parent : Element) (h : Silent part) (d : ComplexDef) :
    addTypePart parent d part = .ok d := by
  unfold addTypePart
  rw [localName_of_silent h]
  rfl

theorem addTypePart_follows (tag : c.exact → e'.tag = e.tag) (h : c.Pair p q) (d : ComplexDef) :
    c.Follows (·.redirect c.move) (addTypePart e d p) (addTypePart e' (d.redirect c.move) q) := by
  have ⟨hd, rd⟩ := h
  unfold addTypePart
  rw [hd.localName]
  split
  · exact rd.contentOf d
  · exact rd.contentOf d
  · exact .pure d
  · exact addPart_follows tag h d

theorem readComplexType_follows (hd : c.Heads a b) (h : c.Parts ps qs) (name : Option QName) :
    c.Follows (·.redirect c.move) (readComplexType a ps name) (readComplexType b qs name) := by
  have parts : c.Follows (·.redirect c.move) (ps.foldlM (addTypePart a) ComplexDef.empty)
      (qs.foldlM (addTypePart b) ComplexDef.empty) :=
    Follows.foldlM h (fun _ => addTypePart_silent a) (fun _ => addTypePart_silent b)
      (fun _ _ => addTypePart_follows hd.tag) ComplexDef.empty
  unfold readComplexType
  refine parts.bind fun d => (hd.readFlag (by decide) (by decide)).bind fun isAbstract => ?_
  exact .pure (TypeDef.mk name isAbstract (.complex d))

theorem readSimpleBody_follows (hd : c.Heads a b) (h : c.Parts ps qs)
    (children : Beside (·.isNote) (·.isNote) c.Heads a.children b.children) (tag : c.exact → e'.tag = e.tag) :
    c.Follows (Option.map (·.redirect c.move)) (readSimpleBody a ps e) (readSimpleBody b qs e') := by
  have literals : c.Follows id ((a.childrenNamed "enumeration").mapM (·.attr "value"))
      ((b.childrenNamed "enumeration").mapM (·.attr "value")) := by
    have same : List.Forall₂ c.Heads (a.childrenNamed "enumeration") (b.childrenNamed "enumeration") :=
      children.filter (fun _ note => by rw [Element.localName_of_isNote note]; decide)
        (fun _ note => by rw [Element.localName_of_isNote note]; decide) fun _ _ hd => by rw [hd.localName]
    exact .mapM same fun _ _ hd => hd.attr (by decide) (by decide)
  unfold readSimpleBody
  rw [hd.localName]
  generalize a.localName = n
  split
  · refine (typeRef_follows hd h (by decide)).bind fun base => literals.bind fun literals => ?_
    exact .pure (some (TypeBody.restriction base literals))
  · exact (typeRef_follows hd h (by decide)).bind fun item => .pure (some (TypeBody.list item))
  · exact .pure (some TypeBody.union)
  · exact .pure none
  · exact .throw fun exact => by rw [hd.tag exact, tag exact]

theorem readSimpleBody_note (note : e.isNote) (parent : Element) : readSimpleBody e ps parent = .ok none := by
  unfold readSimpleBody
  rw [Element.localName_of_isNote note]
  rfl

theorem readSimpleType_follows (hd : c.Heads a b) (h : c.Parts ps qs) (name : Option QName) :
    c.Follows (·.redirect c.move) (readSimpleType a ps name) (readSimpleType b qs name) := by
  have read (e : Element) (parts : Reading.Parts) : readSimpleType e parts name =
      (List.filterMap id <$> parts.mapM fun part => part.2.simpleBody e) >>= fun bodies =>
        bodies.getLast?.elim (.error (.invalidStructure (.emptySimpleType name))) fun body => .ok ⟨name, false, body⟩ := by
    unfold readSimpleType
    cases parts.mapM fun part => part.2.simpleBody e with
    | error e => rfl
    | ok bodies =>
      dsimp only [bind, Except.bind, Functor.map, Except.map]
      cases (bodies.filterMap id).getLast? <;> rfl
  rw [read, read]
  refine (Follows.collect h (fun _ hs => hs.simpleBody a) (fun _ hs => hs.simpleBody b)
    fun _ _ pair => pair.2.simpleBody a b hd.tag).bind fun bodies => ?_
  rw [List.getLast?_map]
  cases bodies.getLast? with
  | some body => exact .pure (TypeDef.mk name false body)
  | none => exact .throw fun _ => rfl

theorem readAttributeDecl_follows (hd : c.Heads a b) (h : c.Parts ps qs) :
    c.Follows (·.redirect c.move) (readAttributeDecl a ps) (readAttributeDecl b qs) := by
  unfold readAttributeDecl
  refine hd.name.bind fun name => ?_
  exact (typeRef_follows hd h (by decide)).bind fun r => .pure (AttributeDecl.mk name r)

theorem addToAttributeGroup_silent (parent : Element) (h : Silent part) (g : AttributeGroupDef) :
    addToAttributeGroup parent g part = .ok g := by
  unfold addToAttributeGroup
  rw [localName_of_silent h]
  rfl

theorem addToAttributeGroup_follows (tag : c.exact → e'.tag = e.tag) (h : c.Pair p q) (g : AttributeGroupDef) :
    c.Follows (·.redirect c.move) (addToAttributeGroup e g p) (addToAttributeGroup e' (g.redirect c.move) q) := by
  have ⟨hd, rd⟩ := h
  have added (use : Option AttributeUse) : c.Follows (·.redirect c.move)
      (.ok { g with attributes := g.attributes ++ use.toList }) (.ok { g.redirect c.move with
        attributes := (g.redirect c.move).attributes ++ (use.map (·.redirect c.move)).toList }) := by
    have same : AttributeGroupDef.redirect c.move { g with attributes := g.attributes ++ use.toList } =
        { g.redirect c.move with
          attributes := (g.redirect c.move).attributes ++ (use.map (·.redirect c.move)).toList } := by
      cases use <;> simp [AttributeGroupDef.redirect, AttributeUse.redirectList_eq_map]
    rw [← same]
    exact .pure _
  unfold addToAttributeGroup
  rw [hd.localName]
  generalize p.1.localName = n
  split
  · exact (attributeUse?_follows h).bind added
  · exact (attributeUse?_follows h).bind added
  · exact .pure { g with anyAttribute := true }
  · exact .pure g
  · exact .throw fun exact => by rw [hd.tag exact, tag exact]

theorem readAttributeGroup_follows (hd : c.Heads a b) (h : c.Parts ps qs) :
    c.Follows (·.redirect c.move) (readAttributeGroup ctx a ps) (readAttributeGroup ctx b qs) := by
  unfold readAttributeGroup
  refine hd.name.bind fun name => ?_
  exact Follows.foldlM h (fun _ => addToAttributeGroup_silent a) (fun _ => addToAttributeGroup_silent b)
    (fun _ _ => addToAttributeGroup_follows hd.tag) ⟨ctx.globalName name, [], false⟩

theorem readGroupDef_follows (hd : c.Heads a b) (h : c.Parts ps qs) :
    c.Follows (·.redirect c.move) (readGroupDef ctx a ps) (readGroupDef ctx b qs) := by
  have first : Option.Rel (c.Follows (·.redirect c.move))
      (ps.findSome? fun p => (compositor? p.1.localName).map p.2.modelGroup)
      (qs.findSome? fun q => (compositor? q.1.localName).map q.2.modelGroup) := by
    refine h.findSome? (fun _ hs => by rw [localName_of_silent hs]; rfl)
      (fun _ hs => by rw [localName_of_silent hs]; rfl) fun p q pair => ?_
    rw [pair.1.localName]
    cases compositor? p.1.localName with
    | none => exact .none
    | some compositor => exact .some (pair.2.modelGroup compositor)
  unfold readGroupDef
  refine hd.name.bind fun name => ?_
  revert first
  dsimp only
  generalize ps.findSome? _ = found, qs.findSome? _ = found'
  rintro (follows | _)
  · exact follows.bind fun group => .pure (ModelGroupDef.mk (ctx.globalName name) group)
  · exact .throw fun _ => rfl

theorem readings_ofParts (hd : c.Heads a b) (h : c.Parts ps qs)
    (children : Beside (·.isNote) (·.isNote) c.Heads a.children b.children) :
    c.Readings (ofParts ctx a ps) (ofParts ctx b qs) where
  elementDecl := readElementDecl_follows hd h
  complexType := readComplexType_follows hd h
  simpleType := readSimpleType_follows hd h
  simpleBody _ _ := readSimpleBody_follows hd h children
  modelGroup := readModelGroup_follows hd h
  complexDerivation _ _ := readComplexDerivation_follows hd h
  simpleDerivation _ _ := readSimpleDerivation_follows hd h
  contentOf := readContent_follows hd h
  attributeDecl := readAttributeDecl_follows hd h
  attributeGroup := readAttributeGroup_follows hd h
  groupDef := readGroupDef_follows hd h

theorem ofElement_eq (ctx : NameContext) (e : Element) : ofElement ctx e = ofParts ctx e (partsOf ctx e.children) := by
  obtain ⟨label, localName, attributes, scope, children⟩ := e
  rw [ofElement]

theorem silent_ofElement (ctx : NameContext) (note : e.isNote) : Silent (e, ofElement ctx e) := by
  rw [ofElement_eq]
  exact ⟨note, readSimpleBody_note note, readComplexDerivation_note note, readSimpleDerivation_note note⟩

end Parts

def Relates (c : Comparison) (R : Element → Element → Prop) : Prop :=
  ∀ a b, R a b → c.Heads a b ∧ Beside (·.isNote) (·.isNote) R a.children b.children

section Relates

variable {R : Element → Element → Prop} {ctx : NameContext}

theorem parts_partsOf {l l' : List Element} (heads : ∀ a b, R a b → c.Heads a b)
    (readings : ∀ a ∈ l, ∀ b, R a b → c.Readings (Reading.ofElement ctx a) (Reading.ofElement ctx b))
    (h : Beside (·.isNote) (·.isNote) R l l') : c.Parts (Reading.partsOf ctx l) (Reading.partsOf ctx l') := by
  induction h with
  | nil => exact .nil
  | left note _ ih =>
    rw [List.forall_mem_cons] at readings
    exact .left (silent_ofElement ctx note) (ih readings.2)
  | right note _ ih => exact .right (silent_ofElement ctx note) (ih readings)
  | both hR _ ih =>
    rw [List.forall_mem_cons] at readings
    exact .both ⟨heads _ _ hR, readings.1 _ hR⟩ (ih readings.2)

mutual

theorem readings_ofElement (relates : c.Relates R) :
    ∀ a b, R a b → c.Readings (Reading.ofElement ctx a) (Reading.ofElement ctx b)
  | ⟨label, localName, attributes, scope, children⟩, b, hR => by
    -- The recursion is along the first tree; the relation leads to the partners in the second.
    have ⟨heads, below⟩ := relates _ _ hR
    have parts := parts_partsOf (fun a b h => (relates a b h).1) (readings_ofChildren relates children) below
    rw [ofElement_eq, ofElement_eq]
    exact readings_ofParts heads parts (below.mono fun a b h => (relates a b h).1)

theorem readings_ofChildren (relates : c.Relates R) : ∀ l : List Element, ∀ a ∈ l, ∀ b, R a b →
    c.Readings (Reading.ofElement ctx a) (Reading.ofElement ctx b)
  | [] => fun _ h => absurd h List.not_mem_nil
  | e :: rest => List.forall_mem_cons.2 ⟨readings_ofElement relates e, readings_ofChildren relates rest⟩

end

end Relates

section Document

open SchemaDocument

variable {ctx : NameContext} {p q : Element × Reading}

theorem addGlobal_silent (h : Silent p) (doc : SchemaDocument) : addGlobal ctx doc p = .ok doc := by
  unfold addGlobal
  dsimp only
  rw [localName_of_silent h]
  rfl

theorem addGlobal_follows (h : c.Pair p q) (doc : SchemaDocument) :
    c.Follows (·.redirect c.move) (addGlobal ctx doc p) (addGlobal ctx (doc.redirect c.move) q) := by
  obtain ⟨hd, rd⟩ := h
  unfold addGlobal
  dsimp only
  rw [hd.localName]
  generalize p.1.localName = n
  split
  · exact (rd.elementDecl true).bind fun d => .answer (by simp [SchemaDocument.redirect])
  · refine hd.name.bind fun name => ?_
    exact (rd.complexType _).bind fun d => .answer (by simp [SchemaDocument.redirect])
  · refine hd.name.bind fun name => ?_
    exact (rd.simpleType _).bind fun d => .answer (by simp [SchemaDocument.redirect])
  · refine rd.attributeDecl.bind fun d => .answer ?_
    obtain ⟨name, typeRef⟩ := d
    simp [SchemaDocument.redirect, AttributeDecl.redirect]
  · exact rd.attributeGroup.bind fun g => .answer (by simp [SchemaDocument.redirect])
  · exact rd.groupDef.bind fun g => .answer (by simp [SchemaDocument.redirect])
  · exact .pure doc
  · exact .pure doc
  · exact .pure doc
  · exact .pure doc
  · exact .throw fun exact => by rw [hd.tag exact]

theorem ofElement_follows {R : Element → Element → Prop} (relates : c.Relates R) {a b : Element} (h : R a b)
    (uri : b.uri = some QName.xsdUri ↔ a.uri = some QName.xsdUri) :
    c.Follows (·.redirect c.move) (ofElement a) (ofElement b) := by
  have ⟨hd, below⟩ := relates a b h
  unfold ofElement
  rw [hd.localName, hd.attr? "targetNamespace" (by decide) (by decide),
    hd.attr? "elementFormDefault" (by decide) (by decide)]
  have same : (b.uri != some QName.xsdUri) = (a.uri != some QName.xsdUri) := by
    rw [bne, bne, Bool.not_inj_iff, Bool.eq_iff_iff, beq_iff_eq, beq_iff_eq]
    exact uri
  rw [same]
  dsimp only
  split
  · exact .throw fun exact => by rw [hd.tag exact]
  · have parts (ctx : NameContext) : c.Parts (Reading.partsOf ctx a.children) (Reading.partsOf ctx b.children) :=
      parts_partsOf (fun a b h => (relates a b h).1) (fun a _ => readings_ofElement relates a) below
    exact Follows.foldlM (parts _) (fun _ => addGlobal_silent) (fun _ => addGlobal_silent)
      (fun _ _ => addGlobal_follows) { targetNamespace := a.attr? "targetNamespace" }

end Document

end Comparison

end SchemaGraph
