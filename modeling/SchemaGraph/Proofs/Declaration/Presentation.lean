import Mathlib.Data.List.DropRight
import Mathlib.Logic.Equiv.Basic
import Mathlib.Logic.Relation
import SchemaGraph.Proofs.Declaration.Alike

/-! The reader depends on what a document means and not on how it is written.  The meaning of an element has no labels
and no annotations, and names stand in it for the values that refer to them.  Renaming the labels of a document
and putting annotations into it leave its meaning alone. -/
namespace SchemaGraph

open Markup (Element Scope)

/-- What an attribute says: a text, or the name that the text stands for in its element, if it stands for one. -/
inductive Sense
  | text (value : String)
  | name (name : Option QName)
deriving DecidableEq

/-- What an element says.  Attributes count by the sense that stands first under their key. -/
inductive Meaning
  | element (localName : String) (sense? : String → Option Sense) (children : List Meaning)

namespace Markup.Element

def sense (e : Element) (key value : String) : Sense :=
  if key ∈ nameKeys then .name (e.resolve value).toOption else .text value

def senses (e : Element) : List (String × Sense) := e.attributes.map fun p => (p.1, e.sense p.1 p.2)

/-- Attributes with a label say nothing to the reader. -/
def sense? (e : Element) (key : String) : Option Sense := if Unlabelled key then e.senses.lookup key else none

mutual

/-- An element without the annotations in it, its own label and the labels in its attributes. -/
def meaning : Element → Meaning
  | ⟨label, localName, attributes, scope, children⟩ =>
    .element localName (sense? ⟨label, localName, attributes, scope, children⟩) (meanings children)

def meanings : List Element → List Meaning
  | [] => []
  | e :: rest => if e.isNote then meanings rest else e.meaning :: meanings rest

end

variable {a b e : Element} {l l' : List Element}

theorem meaning_eq (e : Element) : e.meaning = .element e.localName e.sense? (meanings e.children) := by
  obtain ⟨label, localName, attributes, scope, children⟩ := e
  rw [meaning]

theorem meanings_note (note : e.isNote) : meanings (e :: l) = meanings l := by
  rw [meanings, if_pos note]

theorem meanings_cons (other : ¬ e.isNote) : meanings (e :: l) = e.meaning :: meanings l := by
  rw [meanings, if_neg other]

theorem meaning_eq_iff :
    a.meaning = b.meaning ↔
      a.localName = b.localName ∧ a.sense? = b.sense? ∧ meanings a.children = meanings b.children := by
  rw [meaning_eq, meaning_eq, Meaning.element.injEq]

theorem lookup_senses (e : Element) (key : String) : e.senses.lookup key = (e.attr? key).map (e.sense key) := by
  unfold senses attr?
  induction e.attributes with
  | nil => rfl
  | cons p l ih =>
    rw [List.map_cons, List.lookup_cons, List.lookup_cons]
    cases same : key == p.1 with
    | false => exact ih
    | true => rw [eq_of_beq same]; rfl

theorem sense?_eq {key : String} (unlabelled : Unlabelled key) : e.sense? key = (e.attr? key).map (e.sense key) := by
  unfold sense?
  rw [if_pos unlabelled, lookup_senses]

theorem sense?_congr (attributes : a.attributes = b.attributes) (scope : a.scope = b.scope) : a.sense? = b.sense? := by
  unfold sense? senses sense resolve
  rw [attributes, scope]

theorem sense?_of_senses (h : a.senses = b.senses) : a.sense? = b.sense? := by
  unfold sense?
  rw [h]

theorem beside_of_meanings_eq (h : meanings l = meanings l') :
    Beside (·.isNote) (·.isNote) (fun a b => a.meaning = b.meaning) l l' := by
  induction l generalizing l' with
  | nil =>
    induction l' with
    | nil => exact .nil
    | cons b l' ih =>
      by_cases note : b.isNote
      · exact .right note (ih (h.trans (meanings_note note)))
      · cases h.trans (meanings_cons note)
  | cons a l ih =>
    by_cases note : a.isNote
    · exact .left note (ih ((meanings_note note).symm.trans h))
    · induction l' with
      | nil => cases (meanings_cons note).symm.trans h
      | cons b l' ih' =>
        by_cases note' : b.isNote
        · exact .right note' (ih' (h.trans (meanings_note note')))
        · obtain ⟨first, rest⟩ := List.cons.inj ((meanings_cons note).symm.trans (h.trans (meanings_cons note')))
          exact .both first (ih rest)

end Markup.Element

/-- What is compared is whether there is an answer, and which.  Faults quote tags and values as they are written. -/
def sameAnswers : Comparison := ⟨id, False, fun _ => False⟩

theorem sameAnswers_follows_iff {α : Type} {x y : Except DocumentError α} :
    sameAnswers.Follows id x y ↔ x.toOption = y.toOption := by
  constructor
  · rintro (rfl | _ | ⟨_, ⟨⟩⟩) <;> rfl
  · intro h
    cases x with
    | ok a =>
      cases y with
      | ok b => exact .answer (Option.some.inj h).symm
      | error e => cases h
    | error e =>
      cases y with
      | ok b => cases h
      | error e' => exact .throw False.elim

theorem heads_of_meaning_eq {a b : Element} (h : a.meaning = b.meaning) : sameAnswers.Heads a b := by
  obtain ⟨localName, senses, -⟩ := Element.meaning_eq_iff.1 h
  have same {key : String} (unlabelled : Unlabelled key) :
      (a.attr? key).map (a.sense key) = (b.attr? key).map (b.sense key) := by
    rw [← Element.sense?_eq unlabelled, ← Element.sense?_eq unlabelled, senses]
  refine ⟨localName.symm, fun key unlabelled other => ?_, fun key mem => ?_, False.elim⟩
  · have text (e : Element) : e.sense key = Sense.text := funext fun _ => if_neg other
    have texts := same unlabelled
    rw [text, text] at texts
    exact (Option.map_injective (fun _ _ => Sense.text.inj) texts).symm
  · have unlabelled : ∀ key ∈ nameKeys, Unlabelled key := by decide
    have name (e : Element) : e.sense key = fun value => .name (e.resolve value).toOption := funext fun _ => if_pos mem
    have names := same (unlabelled key mem)
    rw [name, name] at names
    have read (e : Element) : (e.qname? key).toOption =
        (e.attr? key).elim (some none) fun value => (e.resolve value).toOption.map some := by
      unfold Element.qname?
      generalize e.resolve = resolve
      cases e.attr? key with
      | none => rfl
      | some value =>
        change ((resolve value).map some).toOption = (resolve value).toOption.map some
        cases resolve value <;> rfl
    change sameAnswers.Follows (Option.map id) _ _
    rw [Option.map_id, sameAnswers_follows_iff, read, read]
    revert names
    generalize a.attr? key = v, b.attr? key = w, a.resolve = resolve, b.resolve = resolve'
    intro names
    rcases v with _ | v <;> rcases w with _ | w
    · rfl
    · cases names
    · cases names
    · exact congrArg (Option.map some) (Sense.name.inj (Option.some.inj names))

theorem relates_meaning : sameAnswers.Relates fun a b => a.meaning = b.meaning := fun _ _ h =>
  ⟨heads_of_meaning_eq h, Element.beside_of_meanings_eq (Element.meaning_eq_iff.1 h).2.2⟩

theorem toOption_ofElement_of_meaning_eq {a b : Element} (uri : a.uri = b.uri) (h : a.meaning = b.meaning) :
    (SchemaDocument.ofElement a).toOption = (SchemaDocument.ofElement b).toOption := by
  have alone : (fun doc : SchemaDocument => doc.redirect sameAnswers.move) = id :=
    funext fun _ => SchemaDocument.redirect_eq_self_iff.2 fun _ _ _ => rfl
  have follows := Comparison.ofElement_follows relates_meaning h (by rw [uri])
  rw [alone] at follows
  exact sameAnswers_follows_iff.1 follows

namespace Text

variable {s : List Char} {c : Char}

theorem trimmed_eq_rdropWhile (s : List Char) : trimmed s = (s.dropWhile isBlank).rdropWhile isBlank := rfl

theorem isBlank_of_head?_trimmed (h : (trimmed s).head? = some c) : isBlank c = false := by
  obtain ⟨rest, split⟩ := List.rdropWhile_prefix isBlank (s.dropWhile isBlank)
  have first := List.head?_dropWhile_not isBlank s
  rw [← split, ← trimmed_eq_rdropWhile, List.head?_append, h] at first
  exact first

theorem isBlank_of_getLast?_trimmed (h : (trimmed s).getLast? = some c) : isBlank c = false := by
  obtain ⟨nonempty, rfl⟩ := List.mem_getLast?_eq_getLast h
  exact Bool.eq_false_iff.2 (List.rdropWhile_last_not isBlank _ nonempty)

theorem trimmed_eq_self (first : ∀ c, s.head? = some c → isBlank c = false)
    (last : ∀ c, s.getLast? = some c → isBlank c = false) : trimmed s = s := by
  have noneBefore : s.dropWhile isBlank = s := by
    rw [List.dropWhile_eq_self_iff]
    intro nonempty
    rw [first _ (List.head?_eq_getElem?.trans (List.getElem?_eq_getElem nonempty))]
    decide
  rw [trimmed_eq_rdropWhile, noneBefore, List.rdropWhile_eq_self_iff]
  intro nonempty
  rw [last _ (List.getLast?_eq_getLast_of_ne_nil nonempty)]
  decide

theorem trim_eq_self {s : String} (first : ∀ c, s.toList.head? = some c → isBlank c = false)
    (last : ∀ c, s.toList.getLast? = some c → isBlank c = false) : trim s = s := by
  unfold trim
  rw [trimmed_eq_self first last, String.ofList_toList]

theorem toList_trim (s : String) : (trim s).toList = trimmed s.toList := String.toList_ofList

theorem trim_trim (s : String) : trim (trim s) = trim s := by
  refine trim_eq_self (fun c h => ?_) fun c h => ?_
  · rw [toList_trim] at h
    exact isBlank_of_head?_trimmed h
  · rw [toList_trim] at h
    exact isBlank_of_getLast?_trimmed h

end Text

namespace Markup.Element

variable {e : Element} {value label name : String}

theorem resolve_of_cut (h : Text.cutString ':' (Text.trim value) = some (label, name)) :
    (e.resolve value).toOption = (e.scope.lookup label).map fun uri => ⟨some uri, name⟩ := by
  unfold resolve
  dsimp only
  rw [h]
  dsimp only
  cases e.scope.lookup label <;> rfl

theorem resolve_of_uncut (h : Text.cutString ':' (Text.trim value) = none) :
    (e.resolve value).toOption = some ⟨e.scope.lookup "", Text.trim value⟩ := by
  unfold resolve
  dsimp only
  rw [h]
  rfl

end Markup.Element

def IsLabel (s : String) : Prop := ':' ∉ s.toList ∧ s.toList.head?.any Text.isBlank = false

instance (s : String) : Decidable (IsLabel s) := inferInstanceAs (Decidable (_ ∧ _))

/-- Other labels for the labels of a document, different ones for different ones and none for none. -/
structure Relabelling where
  rename : String → String
  injective : Function.Injective rename
  rename_empty : rename "" = ""
  isLabel : ∀ s, IsLabel s → IsLabel (rename s)

namespace Relabelling

def name (ρ : Relabelling) (s : String) : String :=
  match Text.cutString ':' s with
  | some (label, rest) => ρ.rename label ++ ":" ++ rest
  | none => s

def value (ρ : Relabelling) (key value : String) : String :=
  if key ∈ nameKeys then ρ.name (Text.trim value) else value

mutual

/-- Renames the labels of tags, of attributes, in values that are names and where they are bound. -/
def element (ρ : Relabelling) : Element → Element
  | ⟨label, localName, attributes, scope, children⟩ =>
    ⟨label.map ρ.rename, localName, attributes.map fun p => (ρ.name p.1, ρ.value p.1 p.2),
      scope.map fun p => (ρ.rename p.1, p.2), ρ.elements children⟩

def elements (ρ : Relabelling) : List Element → List Element
  | [] => []
  | e :: rest => ρ.element e :: ρ.elements rest

end

def swap (a b : String) (isLabel : IsLabel a ∧ IsLabel b) (nonempty : "" ≠ a ∧ "" ≠ b) : Relabelling where
  rename := Equiv.swap a b
  injective := (Equiv.swap a b).injective
  rename_empty := Equiv.swap_apply_of_ne_of_ne nonempty.1 nonempty.2
  isLabel s h := by
    rw [Equiv.swap_apply_def]
    split
    · exact isLabel.2
    split
    · exact isLabel.1
    · exact h

variable (ρ : Relabelling)

theorem name_eq_iff {s key : String} (unlabelled : Unlabelled key) : ρ.name s = key ↔ s = key := by
  unfold name
  cases split : Text.cutString ':' s with
  | none => exact Iff.rfl
  | some p =>
    have ⟨colon, _⟩ := Text.cutString_eq_some_iff.1 split
    have labelled {t u : String} {l : List Char} (h : t.toList = l ++ ':' :: u.toList) : t ≠ key := by
      rintro rfl
      exact unlabelled (h ▸ List.mem_append_right l List.mem_cons_self)
    refine iff_of_false (labelled (u := p.2) (l := (ρ.rename p.1).toList) ?_) (labelled colon)
    simp

theorem lookup_scope (scope : Scope) (label : String) :
    (scope.map fun p => (ρ.rename p.1, p.2)).lookup (ρ.rename label) = scope.lookup label := by
  induction scope with
  | nil => rfl
  | cons p scope ih =>
    rw [List.map_cons, List.lookup_cons, List.lookup_cons, ih]
    have same : (ρ.rename label == ρ.rename p.1) = (label == p.1) := by
      rw [Bool.eq_iff_iff, beq_iff_eq, beq_iff_eq, ρ.injective.eq_iff]
    rw [same]

theorem attr?_element (e : Element) {key : String} (unlabelled : Unlabelled key) :
    (ρ.element e).attr? key = (e.attr? key).map (ρ.value key) := by
  obtain ⟨label, localName, attributes, scope, children⟩ := e
  rw [element]
  unfold Element.attr?
  dsimp only
  induction attributes with
  | nil => rfl
  | cons p l ih =>
    rw [List.map_cons, List.lookup_cons, List.lookup_cons]
    have same : (key == ρ.name p.1) = (key == p.1) := by
      rw [Bool.eq_iff_iff, beq_iff_eq, beq_iff_eq, eq_comm, ρ.name_eq_iff unlabelled, eq_comm]
    rw [same]
    cases here : key == p.1 with
    | false => exact ih
    | true => rw [eq_of_beq here]; rfl

theorem uri_element (e : Element) : (ρ.element e).uri = e.uri := by
  obtain ⟨label, localName, attributes, scope, children⟩ := e
  have same : (label.map ρ.rename).getD "" = ρ.rename (label.getD "") := by
    cases label with
    | none => exact ρ.rename_empty.symm
    | some label => rfl
  rw [element]
  unfold Element.uri
  dsimp only
  rw [same, lookup_scope]

theorem name_of_cut {s label rest : String} (h : Text.cutString ':' s = some (label, rest)) :
    ρ.name s = ρ.rename label ++ ":" ++ rest := by
  unfold name
  rw [h]

theorem name_of_uncut {s : String} (h : Text.cutString ':' s = none) : ρ.name s = s := by
  unfold name
  rw [h]

theorem name_trim {value label rest : String} (h : Text.cutString ':' (Text.trim value) = some (label, rest)) :
    Text.trim (ρ.name (Text.trim value)) = ρ.name (Text.trim value) ∧
      Text.cutString ':' (ρ.name (Text.trim value)) = some (ρ.rename label, rest) := by
  have ⟨split, plain⟩ := Text.cutString_eq_some_iff.1 h
  have colon : Text.isBlank ':' = false := by decide
  have isLabel : IsLabel label := by
    refine ⟨plain, (Option.any_eq_false _ _).2 fun c first => Text.isBlank_of_head?_trimmed (s := value.toList) ?_⟩
    rw [← Text.toList_trim, split, List.head?_append, first]
    rfl
  have ⟨plain', first'⟩ := ρ.isLabel label isLabel
  have written : (ρ.name (Text.trim value)).toList = (ρ.rename label).toList ++ ':' :: rest.toList := by
    rw [ρ.name_of_cut h]
    simp
  refine ⟨Text.trim_eq_self (fun c first => ?_) fun c last => ?_, Text.cutString_eq_some_iff.2 ⟨written, plain'⟩⟩
  · rw [written, List.head?_append] at first
    cases start : (ρ.rename label).toList.head? with
    | none =>
      rw [start] at first
      cases first
      exact colon
    | some c' =>
      rw [start] at first
      cases first
      exact (Option.any_eq_false _ _).1 first' c start
  · refine Text.isBlank_of_getLast?_trimmed (s := value.toList) ?_
    rw [written, List.getLast?_append_of_ne_nil _ (List.cons_ne_nil _ _)] at last
    rw [← Text.toList_trim, split, List.getLast?_append_of_ne_nil _ (List.cons_ne_nil _ _)]
    exact last

theorem scope_element (e : Element) : (ρ.element e).scope = e.scope.map fun p => (ρ.rename p.1, p.2) := by
  obtain ⟨label, localName, attributes, scope, children⟩ := e
  rw [element]

theorem resolve_element (e : Element) (value : String) :
    ((ρ.element e).resolve (ρ.name (Text.trim value))).toOption = (e.resolve value).toOption := by
  cases split : Text.cutString ':' (Text.trim value) with
  | none =>
    have default : (ρ.element e).scope.lookup "" = e.scope.lookup "" := by
      rw [scope_element, ← ρ.lookup_scope e.scope "", ρ.rename_empty]
    rw [ρ.name_of_uncut split, Element.resolve_of_uncut split, Element.resolve_of_uncut (by rw [Text.trim_trim, split]),
      Text.trim_trim, default]
  | some p =>
    obtain ⟨label, rest⟩ := p
    have ⟨trimmed, cut⟩ := ρ.name_trim split
    rw [Element.resolve_of_cut split, Element.resolve_of_cut (by rw [trimmed, cut]), scope_element, lookup_scope]

theorem sense?_element (e : Element) : (ρ.element e).sense? = e.sense? := by
  funext key
  by_cases unlabelled : Unlabelled key
  · rw [Element.sense?_eq unlabelled, Element.sense?_eq unlabelled, ρ.attr?_element e unlabelled, Option.map_map]
    congr 1
    funext v
    unfold Element.sense value
    rw [Function.comp_apply]
    split
    · rw [resolve_element]
    · rfl
  · unfold Element.sense?
    rw [if_neg unlabelled, if_neg unlabelled]

theorem isNote_element (e : Element) : (ρ.element e).isNote = e.isNote := by
  have localName : (ρ.element e).localName = e.localName := by
    obtain ⟨label, localName, attributes, scope, children⟩ := e
    rw [element]
  unfold Element.isNote
  rw [localName, ρ.attr?_element e (by decide), Option.isNone_map]

mutual

theorem meaning_element : ∀ e : Element, (ρ.element e).meaning = e.meaning
  | ⟨label, localName, attributes, scope, children⟩ => by
    rw [Element.meaning_eq, sense?_element, Element.meaning_eq]
    rw [element]
    dsimp only
    rw [meanings_elements children]

theorem meanings_elements : ∀ l : List Element, Element.meanings (ρ.elements l) = Element.meanings l
  | [] => rfl
  | e :: rest => by
    rw [elements, Element.meanings, Element.meanings, isNote_element, meaning_element e, meanings_elements rest]

end

end Relabelling

inductive Annotated : Element → Element → Prop
  | insert {label : Option String} {localName : String} {attributes : List (String × String)} {scope : Scope}
    {before after : List Element} {note : Element} : note.isNote →
    Annotated ⟨label, localName, attributes, scope, before ++ after⟩
      ⟨label, localName, attributes, scope, before ++ note :: after⟩
  | inside {label : Option String} {localName : String} {attributes : List (String × String)} {scope : Scope}
    {before after : List Element} {e e' : Element} : Annotated e e' →
    Annotated ⟨label, localName, attributes, scope, before ++ e :: after⟩
      ⟨label, localName, attributes, scope, before ++ e' :: after⟩

theorem Markup.Element.meanings_append (l l' : List Element) : meanings (l ++ l') = meanings l ++ meanings l' := by
  induction l with
  | nil => rfl
  | cons e l ih =>
    rw [List.cons_append, meanings, meanings, ih]
    split
    · rfl
    · rw [List.cons_append]

namespace Annotated

variable {a b : Element}

theorem uri_eq (h : Annotated a b) : a.uri = b.uri := by
  cases h <;> rfl

theorem isNote_eq (h : Annotated a b) : a.isNote = b.isNote := by
  cases h <;> rfl

theorem meaning_eq (h : Annotated a b) : a.meaning = b.meaning := by
  induction h with
  | insert note =>
    refine Element.meaning_eq_iff.2 ⟨rfl, Element.sense?_congr rfl rfl, ?_⟩
    rw [Element.meanings_append, Element.meanings_append, Element.meanings_note note]
  | inside inner ih =>
    refine Element.meaning_eq_iff.2 ⟨rfl, Element.sense?_congr rfl rfl, ?_⟩
    rw [Element.meanings_append, Element.meanings_append, Element.meanings, Element.meanings, inner.isNote_eq, ih]

end Annotated

/-- Trees with the same meaning, and the same namespace at their roots, are read as the same declarations or not at all.
So are trees that differ in their labels only, and trees that differ in their annotations only. -/
theorem read_by_meaning :
    (∀ a b : Element, a.uri = b.uri → a.meaning = b.meaning →
      (SchemaDocument.ofElement a).toOption = (SchemaDocument.ofElement b).toOption) ∧
    (∀ (ρ : Relabelling) (e : Element),
      (SchemaDocument.ofElement (ρ.element e)).toOption = (SchemaDocument.ofElement e).toOption) ∧
    ∀ a b : Element, Relation.ReflTransGen Annotated a b →
      (SchemaDocument.ofElement a).toOption = (SchemaDocument.ofElement b).toOption := by
  refine ⟨fun a b => toOption_ofElement_of_meaning_eq, fun ρ e => ?_, fun a b steps => ?_⟩
  · exact toOption_ofElement_of_meaning_eq (ρ.uri_element e) (ρ.meaning_element e)
  · induction steps with
    | refl => rfl
    | tail _ step ih => exact ih.trans (toOption_ofElement_of_meaning_eq step.uri_eq step.meaning_eq)

def itemElement (label : Option String) (type : String) (scope : Scope) (children : List Element) : Element :=
  ⟨label, "element", [("name", "item"), ("type", type)], scope, children⟩

def itemNote : Element := ⟨none, "annotation", [], [], []⟩

def itemSchema (label : Option String) (scope : Scope) (children : List Element) : Element :=
  ⟨label, "schema", [], scope, children⟩

def otherLabel : Relabelling := .swap "xs" "xsd" (by decide) (by decide)

theorem item_read_by_meaning :
    let labelled := itemSchema (some "xs") [("xs", QName.xsdUri)]
      [itemElement (some "xs") "xs:string" [("xs", QName.xsdUri)] []]
    let bare := itemSchema none [("", QName.xsdUri)]
      [itemNote, itemElement none "string" [("", QName.xsdUri)] []]
    let annotated := itemSchema none [("", QName.xsdUri)]
      [itemNote, itemElement none "string" [("", QName.xsdUri)] [itemNote]]
    let read := fun e => (SchemaDocument.ofElement e).toOption
    labelled.uri = bare.uri ∧ labelled.meaning = bare.meaning ∧ read labelled = read bare ∧
      (otherLabel.element labelled).tag = "xsd:schema" ∧ read (otherLabel.element labelled) = read labelled ∧
      Annotated bare annotated ∧ read bare = read annotated ∧
      (read labelled).map (fun doc => doc.elements.map (·.name)) = some [⟨none, "item"⟩] := by
  intro labelled bare annotated read
  have uri : labelled.uri = bare.uri := by decide +kernel
  have item : (itemElement (some "xs") "xs:string" [("xs", QName.xsdUri)] []).meaning =
      (itemElement none "string" [("", QName.xsdUri)] []).meaning :=
    Element.meaning_eq_iff.2 ⟨rfl, Element.sense?_of_senses (by decide +kernel), rfl⟩
  have meaning : labelled.meaning = bare.meaning := by
    refine Element.meaning_eq_iff.2 ⟨rfl, Element.sense?_of_senses (by decide +kernel), ?_⟩
    change Element.meanings [itemElement (some "xs") "xs:string" [("xs", QName.xsdUri)] []] =
      Element.meanings [itemNote, itemElement none "string" [("", QName.xsdUri)] []]
    rw [Element.meanings_cons (by decide), Element.meanings_note (by decide), Element.meanings_cons (by decide), item]
  have step : Annotated bare annotated :=
    @Annotated.inside _ _ _ _ [itemNote] [] _ _ (@Annotated.insert _ _ _ _ [] [] itemNote (by decide))
  exact ⟨uri, meaning, read_by_meaning.1 _ _ uri meaning, by decide +kernel, read_by_meaning.2.1 otherLabel labelled,
    step, read_by_meaning.2.2 _ _ (.single step), by decide +kernel⟩

end SchemaGraph
