import SchemaGraph.Proofs.Markup.TagTree

/-! Namespace bindings follow the nesting of the tags.  What a label stands for at an element is the last declaration of
the label on the way from the root to the element, and nothing that is declared elsewhere counts. -/
namespace SchemaGraph.Markup

abbrev StartTag := List Char × List Char

def Declares (label : String) (key : List Char) : Prop :=
  key = "xmlns:".toList ++ label.toList ∨ label = "" ∧ key = "xmlns".toList

instance (label : String) (key : List Char) : Decidable (Declares label key) :=
  inferInstanceAs (Decidable (_ ∨ _))

/-- The value of the declaration of a label on a start tag.  Only the empty label can be declared twice, and then the
later declaration counts. -/
def declaredUri? (tag : StartTag) (label : String) : Option String :=
  (attributes [] tag.2).reverse.findSome? fun p =>
    if Declares label p.1 then (unescape p.2).map String.ofList else none

/-- What a label stands for inside start tags, of which the innermost comes first: the nearest declaration, or else
the binding that holds before any declaration. -/
def binding (tags : List StartTag) (label : String) : Option String :=
  (tags.findSome? fun tag => declaredUri? tag label).or
    (if label = "xml" then some "http://www.w3.org/XML/1998/namespace" else none)

/-- The element at a position: each number picks one of the children. -/
def Element.descendant? (e : Element) : List Nat → Option Element
  | [] => some e
  | i :: rest => e.children[i]?.bind fun child => child.descendant? rest

namespace TagTree

def name : TagTree → List Char
  | .leaf name _ => name
  | .pair name _ _ => name

def text : TagTree → List Char
  | .leaf _ text => text
  | .pair _ text _ => text

def content : TagTree → List TagTree
  | .leaf _ _ => []
  | .pair _ _ content => content

def startTags? (t : TagTree) : List Nat → Option (List StartTag)
  | [] => some [(t.name, t.text)]
  | i :: rest => t.content[i]?.bind fun child => (child.startTags? rest).map (· ++ [(t.name, t.text)])

end TagTree

/-- What a value stands for where labels are bound in a certain way. -/
inductive Denotes (bound : String → Option String) (value : String) : Except DocumentError QName → Prop
  | labelled (label localName uri : String) : Text.trim value = label ++ ":" ++ localName → ':' ∉ label.toList →
    bound label = some uri → Denotes bound value (.ok ⟨some uri, localName⟩)
  | unbound (label localName : String) : Text.trim value = label ++ ":" ++ localName → ':' ∉ label.toList →
    bound label = none → Denotes bound value (.error (.unboundLabel label (Text.trim value)))
  /-- Without a colon the default namespace counts, if there is one. -/
  | plain : ':' ∉ (Text.trim value).toList → Denotes bound value (.ok ⟨bound "", Text.trim value⟩)

theorem declaredLabel?_eq_some_iff {key label : List Char} :
    declaredLabel? key = some label ↔ Declares (String.ofList label) key := by
  unfold declaredLabel? Declares
  rw [String.toList_ofList]
  split
  · next plain =>
    subst plain
    constructor
    · intro h
      cases h
      exact .inr ⟨rfl, rfl⟩
    · rintro (h | ⟨h, -⟩)
      · have lengths := congrArg List.length h
        simp at lengths
      · rw [String.ofList_eq_empty_iff.1 h]
  · next other =>
    split
    · next labelled =>
      obtain ⟨rest, rfl⟩ := List.isPrefixOf_iff_prefix.1 labelled
      simp
    · next unlabelled =>
      constructor
      · nofun
      · rintro (rfl | ⟨-, h⟩)
        · simp at unlabelled
        · exact absurd h other

theorem lookup_declared_reverse {name : List Char} {l : List (List Char × List Char)}
    {r : List (List Char × String)} (h : l.mapM (resolvedAttribute name) = .ok r) (label : String) :
    (declared r).reverse.lookup label =
      l.reverse.findSome? fun p => if Declares label p.1 then (unescape p.2).map String.ofList else none := by
  induction l generalizing r with
  | nil =>
    cases h
    rfl
  | cons p l ih =>
    rw [List.mapM_cons] at h
    obtain ⟨q, first, h⟩ := bind_eq_ok_iff.1 h
    obtain ⟨rest, resolved, h⟩ := bind_eq_ok_iff.1 h
    cases h
    have split : declared (q :: rest) = declared [q] ++ declared rest := List.filterMap_append (l := [q])
    rw [split, List.reverse_append, List.lookup_append, ih resolved, List.reverse_cons, List.findSome?_append]
    congr 1
    unfold resolvedAttribute at first
    split at first
    · next value read =>
      cases first
      by_cases declares : Declares label p.1
      · have here : declaredLabel? p.1 = some label.toList := by
          rw [declaredLabel?_eq_some_iff, String.ofList_toList]
          exact declares
        simp [declared, here, declares, read]
      · have elsewhere : declaredLabel? p.1 ≠ some label.toList := by
          rw [ne_eq, declaredLabel?_eq_some_iff, String.ofList_toList]
          exact declares
        cases found : declaredLabel? p.1 with
        | none => simp [declared, found, declares]
        | some other =>
          have differs : (label == String.ofList other) = false := by
            rw [beq_eq_false_iff_ne]
            rintro rfl
            rw [String.toList_ofList] at elsewhere
            exact elsewhere found
          simp [declared, found, declares, List.lookup_cons, differs]
    · cases first

theorem TagTree.element_eq_ok {t : TagTree} {outer : Scope} {e : Element} (h : t.element outer = .ok e) :
    e.tag = String.ofList t.name ∧
      (∀ label, e.scope.lookup label = (declaredUri? (t.name, t.text) label).or (outer.lookup label)) ∧
      elements e.scope t.content = .ok e.children := by
  have scope {e : Element} (start : Element.ofStart outer t.name t.text = .ok e) (label : String) :
      e.scope.lookup label = (declaredUri? (t.name, t.text) label).or (outer.lookup label) := by
    obtain ⟨attributes, read, rfl⟩ := ofStart_eq_ok_iff.1 start
    rw [resolvedAttributes_eq] at read
    rw [List.lookup_append, lookup_declared_reverse read]
    rfl
  cases t with
  | leaf name text =>
    refine ⟨tag_of_ofStart h, scope h, ?_⟩
    rw [children_of_ofStart h]
    rfl
  | pair name text content =>
    rw [element] at h
    obtain ⟨start, opened, h⟩ := bind_eq_ok_iff.1 h
    obtain ⟨children, inside, h⟩ := bind_eq_ok_iff.1 h
    cases h
    have starts : start.tag = String.ofList name := tag_of_ofStart opened
    have scopes := scope opened
    exact ⟨starts, scopes, inside⟩

theorem TagTree.elements_getElem? {outer : Scope} {l : List TagTree} {es : List Element}
    (h : elements outer l = .ok es) {i : Nat} {e : Element} (at_i : es[i]? = some e) :
    ∃ t, l[i]? = some t ∧ t.element outer = .ok e := by
  induction l generalizing es i with
  | nil =>
    cases h
    simp at at_i
  | cons t l ih =>
    rw [elements] at h
    obtain ⟨first, read, h⟩ := bind_eq_ok_iff.1 h
    obtain ⟨rest, reads, h⟩ := bind_eq_ok_iff.1 h
    cases h
    cases i with
    | zero =>
      simp only [List.getElem?_cons_zero, Option.some.injEq] at at_i
      exact ⟨t, rfl, at_i ▸ read⟩
    | succ i => exact ih reads at_i

/-- The scope of an element deep in a tree, by induction on the way down to it. -/
theorem lookup_descendant {t : TagTree} {outer : Scope} {e d : Element} {position : List Nat}
    (h : t.element outer = .ok e) (there : e.descendant? position = some d) :
    ∃ own around, t.startTags? position = some (own :: around) ∧ d.tag = String.ofList own.1 ∧
      ∀ label, d.scope.lookup label =
        ((own :: around).findSome? fun tag => declaredUri? tag label).or (outer.lookup label) := by
  induction position generalizing t outer e with
  | nil =>
    cases there
    obtain ⟨tag, scope, -⟩ := TagTree.element_eq_ok h
    refine ⟨(t.name, t.text), [], rfl, tag, fun label => ?_⟩
    simp [scope label]
  | cons i position ih =>
    obtain ⟨tag, scope, inside⟩ := TagTree.element_eq_ok h
    obtain ⟨child, at_i, below⟩ := Option.bind_eq_some_iff.1 there
    obtain ⟨u, tree_i, read⟩ := TagTree.elements_getElem? inside at_i
    obtain ⟨own, around, tags, deepTag, deepScope⟩ := ih read below
    refine ⟨own, around ++ [(t.name, t.text)], ?_, deepTag, fun label => ?_⟩
    · simp [TagTree.startTags?, tree_i, tags]
    · rw [deepScope label, scope label, ← List.cons_append, List.findSome?_append, Option.or_assoc]
      simp

theorem resolve_denotes (e : Element) (value : String) :
    Denotes (fun label => e.scope.lookup label) value (e.resolve value) := by
  unfold Element.resolve
  dsimp only
  cases found : Text.cutString ':' (Text.trim value) with
  | none => exact .plain (Text.cutString_eq_none_iff.1 found)
  | some p =>
    obtain ⟨label, localName⟩ := p
    obtain ⟨whole, first⟩ := Text.cutString_eq_some_iff.1 found
    have written : Text.trim value = label ++ ":" ++ localName := by
      apply String.toList_inj.1
      simp [whole]
    dsimp only
    cases bound : e.scope.lookup label with
    | some uri => exact .labelled label localName uri written first bound
    | none => exact .unbound label localName written first bound

theorem lookup_initial (label : String) :
    Scope.initial.lookup label = if label = "xml" then some "http://www.w3.org/XML/1998/namespace" else none := by
  by_cases xml : label = "xml"
  · simp [Scope.initial, xml]
  · simp [Scope.initial, List.lookup_cons, beq_eq_false_iff_ne.2 xml, xml]

theorem Denotes.error_iff {bound : String → Option String} {value : String} {read : Except DocumentError QName}
    (h : Denotes bound value read) :
    (∃ err, read = .error err) ↔
      ∃ label localName, Text.trim value = label ++ ":" ++ localName ∧ ':' ∉ label.toList ∧ bound label = none := by
  have cut {label localName : String} (whole : Text.trim value = label ++ ":" ++ localName)
      (first : ':' ∉ label.toList) : Text.cutString ':' (Text.trim value) = some (label, localName) :=
    Text.cutString_eq_some_iff.2 ⟨by simp [whole], first⟩
  cases h with
  | labelled label localName uri whole first bound =>
    constructor
    · rintro ⟨err, ⟨⟩⟩
    · rintro ⟨label', localName', whole', first', unbound⟩
      cases (cut whole first).symm.trans (cut whole' first')
      rw [bound] at unbound
      cases unbound
  | unbound label localName whole first unbound =>
    exact ⟨fun _ => ⟨label, localName, whole, first, unbound⟩, fun _ => ⟨_, rfl⟩⟩
  | plain bare =>
    constructor
    · rintro ⟨err, ⟨⟩⟩
    · rintro ⟨label', localName', whole', -, -⟩
      simp [whole'] at bare

/-- An accepted document is the text of one tree of tags, and every element, wherever it stands, has the bindings of
the start tags from it out to the root: each label stands for its nearest declaration, or else for what it stands for
before any declaration.  These bindings give the namespace of the element's own tag and decide what a value stands
for, and a value stands for nothing exactly if it has a label that is not bound. -/
theorem scoping_lexical {text : String} {root : Element} (h : Element.ofText text = .ok root) :
    ∃ t : TagTree, ((Tags.ofText text.toList).events = t.events ∧
        ∀ u : TagTree, (Tags.ofText text.toList).events = u.events → u = t) ∧
      ∀ position e, root.descendant? position = some e →
        ∃ own around, t.startTags? position = some (own :: around) ∧ e.tag = String.ofList own.1 ∧
          (∀ label, e.scope.lookup label = binding (own :: around) label) ∧
          e.uri = binding (own :: around) (e.label.getD "") ∧
          ∀ value, Denotes (binding (own :: around)) value (e.resolve value) ∧
            ((∃ err, e.resolve value = .error err) ↔ ∃ label localName,
              Text.trim value = label ++ ":" ++ localName ∧ ':' ∉ label.toList ∧
                binding (own :: around) label = none) := by
  obtain ⟨-, t, tags, read⟩ := ofText_eq_ok_iff.1 h
  refine ⟨t, ⟨tags, fun u other => TagTree.events_injective (other.symm.trans tags)⟩, fun position e there => ?_⟩
  obtain ⟨own, around, way, tag, scope⟩ := lookup_descendant read there
  have bindings : (fun label => e.scope.lookup label) = binding (own :: around) := by
    funext label
    rw [scope label, lookup_initial]
    rfl
  refine ⟨own, around, way, tag, congrFun bindings, congrFun bindings _, fun value => ?_⟩
  have denotes : Denotes (binding (own :: around)) value (e.resolve value) := by
    rw [← bindings]
    exact resolve_denotes e value
  exact ⟨denotes, denotes.error_iff⟩

def nestedText : String :=
  "<root xmlns='urn:d' xmlns:a='urn:a'><a:first xmlns='urn:e'/><second><a:third xmlns:a='urn:b'/></second></root>"

theorem nestedText_third :
    ((Element.ofText nestedText).toOption.any fun root => (root.descendant? [1, 0]).any fun e =>
      e.label == some "a" && e.uri == some "urn:b" && e.scope.lookup "" == some "urn:d") = true := by
  unfold nestedText Element.ofText
  rw [String.toList_ofList]
  decide +kernel

theorem nestedText_scopes :
    ∃ root e t own around, Element.ofText nestedText = .ok root ∧ root.descendant? [1, 0] = some e ∧
      (Tags.ofText nestedText.toList).events = TagTree.events t ∧ t.startTags? [1, 0] = some (own :: around) ∧
      binding (own :: around) "a" = some "urn:b" ∧ binding (own :: around) "" = some "urn:d" := by
  obtain ⟨root, accepted, run⟩ := exists_eq_ok_of_any nestedText_third
  obtain ⟨e, there, bound⟩ := (Option.any_eq_true _ _).1 run
  simp only [Bool.and_eq_true, beq_iff_eq] at bound
  obtain ⟨⟨label, uri⟩, plain⟩ := bound
  obtain ⟨t, ⟨tags, -⟩, elements⟩ := scoping_lexical accepted
  obtain ⟨own, around, way, -, scope, ownUri, -⟩ := elements [1, 0] e there
  rw [label] at ownUri
  exact ⟨root, e, t, own, around, accepted, there, tags, way, ownUri.symm.trans uri, (scope "").symm.trans plain⟩

/-- Here the default namespace is declared in two ways at once. -/
def twiceText : String := "<a xmlns='urn:a' xmlns:='urn:b'/>"

theorem twiceText_default :
    ((Element.ofText twiceText).toOption.any fun e =>
      e.tag == "a" && e.label == none && e.uri == some "urn:b") = true := by
  unfold twiceText Element.ofText
  rw [String.toList_ofList]
  decide +kernel

/-- The later way counts, and the value of the attribute without a colon is lost. -/
theorem default_declared_twice :
    ∃ e text, Element.ofText twiceText = .ok e ∧ (Tags.ofText twiceText.toList).events = [.leaf e.tag.toList text] ∧
      (attributes [] text).lookup "xmlns".toList = some "urn:a".toList ∧ e.label = none ∧ e.uri ≠ some "urn:a" := by
  obtain ⟨e, accepted, run⟩ := exists_eq_ok_of_any twiceText_default
  simp only [Bool.and_eq_true, beq_iff_eq] at run
  obtain ⟨⟨tag, label⟩, uri⟩ := run
  refine ⟨e, " xmlns='urn:a' xmlns:='urn:b'".toList, accepted, ?_, ?_, label, by simp [uri]⟩
  · rw [tag, twiceText]
    repeat rw [String.toList_ofList]
    decide +kernel
  · repeat rw [String.toList_ofList]
    decide +kernel

end SchemaGraph.Markup
