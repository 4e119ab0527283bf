import Mathlib.Data.List.Forall2
import SchemaGraph.Proofs.Markup.Spelling
import SchemaGraph.Proofs.Markup.TagTree

/-! Writing a tree and reading it.  A tree can be written in many ways, with values quoted and blanks, comments and
text put in as one likes, and each of them is read as the tree.  A text without a root, with more than one root or with
an element that is not closed is no tree, and it is rejected. -/
namespace SchemaGraph.Markup

def TagName.DeclaresLabel (n : TagName) : Prop :=
  n.chars = "xmlns".toList ∨ n.label.map (·.chars) = some "xmlns".toList

instance (n : TagName) : Decidable n.DeclaresLabel := inferInstanceAs (Decidable (_ ∨ _))

theorem TagName.declaredLabel?_chars (n : TagName) : (declaredLabel? n.chars).isSome = true ↔ n.DeclaresLabel := by
  unfold declaredLabel? DeclaresLabel
  split
  · next plain => simp [plain]
  · next other =>
    have labelled : "xmlns:".toList.isPrefixOf n.chars = true ↔ n.label.map (·.chars) = some "xmlns".toList := by
      rw [List.isPrefixOf_iff_prefix]
      constructor
      · rintro ⟨rest, whole⟩
        have cut : Text.cut ':' n.chars = some ("xmlns".toList, rest) := by
          rw [← whole]
          exact Text.cut_append (a := "xmlns".toList) (by simp) rest
        rw [n.splitTag_chars, Option.map_eq_some_iff] at cut
        obtain ⟨label, found, parts⟩ := cut
        rw [found, Option.map_some, (Prod.mk.inj parts).1]
      · intro found
        obtain ⟨label, found, xmlns⟩ := Option.map_eq_some_iff.1 found
        refine ⟨n.localName.chars, ?_⟩
        simp [chars, found, xmlns]
    rw [← labelled, or_iff_right other]
    split
    · next here => exact iff_of_true rfl here
    · next elsewhere => exact iff_of_false Bool.false_ne_true elsewhere

structure NodeAttributes where
  entries : List (TagName × List Char)
  distinct : (entries.map Prod.fst).Nodup

def NodeAttributes.plain (a : NodeAttributes) : List (String × String) :=
  a.entries.filterMap fun p =>
    if p.1.DeclaresLabel then none else some (String.ofList p.1.chars, String.ofList p.2)

inductive Node
  | intro (name : TagName) (attributes : NodeAttributes) (children : List Node)

/-- The tags of a tree: a start tag and an end tag around the children, or for a tree without children perhaps a single
tag. -/
inductive Node.Tagged : Node → TagTree → Prop
  | leaf {name : TagName} {attributes : NodeAttributes} {text : List Char} :
    AttributesText attributes.entries text → Tagged (.intro name attributes []) (.leaf name.chars text)
  | pair {name : TagName} {attributes : NodeAttributes} {text : List Char} {children : List Node}
    {content : List TagTree} : AttributesText attributes.entries text → List.Forall₂ Tagged children content →
    Tagged (.intro name attributes children) (.pair name.chars text content)

/-- The text is a way to write the tree. -/
def Node.Written (n : Node) (s : List Char) : Prop := ∃ t, n.Tagged t ∧ Spells t.events s

/-- The element is the tree: label and local name, the attributes in order without declarations, and the children in
order. -/
inductive Node.Reads : Node → Element → Prop
  | intro {name : TagName} {attributes : NodeAttributes} {children : List Node} {elements : List Element}
    (scope : Scope) : List.Forall₂ Reads children elements →
    Reads (.intro name attributes children)
      ⟨name.label.map (String.ofList ·.chars), String.ofList name.localName.chars, attributes.plain, scope, elements⟩

section Reading

variable {entries : List (TagName × List Char)} {text : List Char}

theorem resolved_attributesText (h : AttributesText entries text) (tag : List Char) :
    ∀ seen : List (List Char), (entries.map Prod.fst).Nodup → (∀ p ∈ entries, p.1.chars ∉ seen) →
      (attributes seen text).mapM (resolvedAttribute tag) =
        .ok (entries.map fun p => (p.1.chars, String.ofList p.2)) := by
  induction h with
  | nil spaces =>
    intro seen _ _
    rw [attributes_spaces spaces]
    rfl
  | @cons gap before after value raw s quote rest name spaces _ spacesBefore spacesAfter isQuote quoted _ ih =>
    intro seen distinct new
    rw [List.map_cons, List.nodup_cons] at distinct
    have later : ∀ p ∈ rest, p.1.chars ∉ name.chars :: seen := by
      intro p h
      rw [List.mem_cons, not_or]
      refine ⟨fun same => distinct.1 ?_, new p (List.mem_cons_of_mem _ h)⟩
      have named := List.mem_map_of_mem (f := Prod.fst) h
      rwa [TagName.chars_injective same] at named
    have first : resolvedAttribute tag (name.chars, raw) = .ok (name.chars, String.ofList value) := by
      simp [resolvedAttribute, unescape_of_quoted quoted]
    rw [attributes_cons name (new _ List.mem_cons_self) spaces spacesBefore spacesAfter isQuote
      (quote_not_mem isQuote quoted), List.mapM_cons, first, ih _ distinct.2 later]
    rfl

theorem ofStart_attributesText (name : TagName) (a : NodeAttributes) (h : AttributesText a.entries text)
    (outer : Scope) :
    ∃ scope, Element.ofStart outer name.chars text =
      .ok ⟨name.label.map (String.ofList ·.chars), String.ofList name.localName.chars, a.plain, scope, []⟩ := by
  have read := resolved_attributesText h name.chars [] a.distinct fun _ _ => List.not_mem_nil
  have label : splitTag name.chars =
      (name.label.map (String.ofList ·.chars), String.ofList name.localName.chars) := by
    unfold splitTag
    rw [name.splitTag_chars]
    cases found : name.label with
    | none => simp [TagName.chars, found]
    | some label => rfl
  have plain : undeclared (a.entries.map fun p => (p.1.chars, String.ofList p.2)) = a.plain := by
    unfold undeclared NodeAttributes.plain
    rw [List.filterMap_map]
    congr 1
    funext p
    simp only [Function.comp_apply, p.1.declaredLabel?_chars]
  rw [ofStart_eq, resolvedAttributes_eq, read, label, ← plain]
  exact ⟨_, rfl⟩

mutual

theorem Node.reads_of_tagged : ∀ (n : Node) {t : TagTree}, n.Tagged t → ∀ outer,
    ∃ e, t.element outer = .ok e ∧ n.Reads e
  | .intro name a children, t, h, outer => by
    cases h with
    | leaf written =>
      obtain ⟨scope, start⟩ := ofStart_attributesText name a written outer
      exact ⟨_, start, .intro scope .nil⟩
    | pair written inside =>
      obtain ⟨scope, start⟩ := ofStart_attributesText name a written outer
      obtain ⟨elements, read, reads⟩ := Node.reads_of_tagged_list children inside scope
      refine ⟨_, ?_, .intro scope reads⟩
      rw [TagTree.element, start]
      change (TagTree.elements scope _ >>= _) = _
      rw [read]
      rfl

theorem Node.reads_of_tagged_list : ∀ (l : List Node) {ts : List TagTree}, List.Forall₂ Node.Tagged l ts → ∀ outer,
    ∃ es, TagTree.elements outer ts = .ok es ∧ List.Forall₂ Node.Reads l es
  | [], ts, h, outer => by
    cases h
    exact ⟨[], rfl, .nil⟩
  | n :: l, ts, h, outer => by
    cases h with
    | cons first rest =>
      obtain ⟨e, read, reads⟩ := n.reads_of_tagged first outer
      obtain ⟨es, readRest, readsRest⟩ := Node.reads_of_tagged_list l rest outer
      refine ⟨e :: es, ?_, .cons reads readsRest⟩
      rw [TagTree.elements, read, readRest]
      rfl

end

end Reading

section Writing

theorem exists_attributesText : ∀ entries : List (TagName × List Char), ∃ text, AttributesText entries text
  | [] => ⟨[], .nil nofun⟩
  | (name, value) :: rest => by
    obtain ⟨text, written⟩ := exists_attributesText rest
    exact ⟨_, .cons name spaces_blank (by simp) spaces_nil spaces_nil (.inl rfl) (quoted_escape (.inl rfl) value)
      written⟩

mutual

theorem Node.exists_tagged : ∀ n : Node, ∃ t, n.Tagged t ∧
    ∀ {rest : List Event} {s : List Char}, Spells rest s → ∃ s', Spells (t.events ++ rest) s'
  | .intro name a children => by
    obtain ⟨text, written⟩ := exists_attributesText a.entries
    obtain ⟨content, tagged, spelled⟩ := Node.exists_tagged_list children
    refine ⟨.pair name.chars text content, .pair written tagged, fun {rest s} behind => ?_⟩
    obtain ⟨inside, spells⟩ := spelled (.closing name spaces_nil behind)
    rw [TagTree.events, List.cons_append, List.append_assoc]
    exact ⟨_, .opening name written spells⟩

theorem Node.exists_tagged_list : ∀ l : List Node, ∃ ts, List.Forall₂ Node.Tagged l ts ∧
    ∀ {rest : List Event} {s : List Char}, Spells rest s → ∃ s', Spells (TagTree.eventsOf ts ++ rest) s'
  | [] => ⟨[], .nil, fun {_ s} h => ⟨s, h⟩⟩
  | n :: l => by
    obtain ⟨t, tagged, spelled⟩ := n.exists_tagged
    obtain ⟨ts, taggedRest, spelledRest⟩ := Node.exists_tagged_list l
    refine ⟨t :: ts, .cons tagged taggedRest, fun {rest s} behind => ?_⟩
    obtain ⟨s', spells⟩ := spelledRest behind
    rw [TagTree.eventsOf, List.append_assoc]
    exact spelled spells

end

theorem Node.exists_written (n : Node) : ∃ s, n.Written s := by
  obtain ⟨t, tagged, spelled⟩ := n.exists_tagged
  obtain ⟨s, spells⟩ := spelled .nil
  rw [List.append_nil] at spells
  exact ⟨s, t, tagged, spells⟩

end Writing

section Rejection

def Rootless (events : List Event) : Prop := ∀ event ∈ events, ∃ name, event = .closing name

/-- A second complete element stands behind the first one, whatever follows. -/
def ManyRoots (events : List Event) : Prop :=
  ∃ first second : TagTree, first.events ++ second.events <+: events

/-- Some start tag has no end tag behind the elements that follow it. -/
def Unclosed (events : List Event) : Prop :=
  ∃ before name text tail, events = before ++ .opening name text :: tail ∧
    ∀ content rest, tail ≠ TagTree.eventsOf content ++ .closing name :: rest

variable {t : TagTree}

theorem not_rootless_events : ¬ Rootless t.events := by
  intro rootless
  obtain ⟨event, tail, whole, other⟩ := t.exists_events_eq_cons
  obtain ⟨name, closing⟩ := rootless event (whole ▸ List.mem_cons_self)
  exact other name closing

theorem not_manyRoots_events : ¬ ManyRoots t.events := by
  rintro ⟨first, second, rest, whole⟩
  rw [List.append_assoc] at whole
  obtain ⟨-, nothing⟩ := TagTree.eq_of_events_append first t (whole.trans (List.append_nil _).symm)
  obtain ⟨event, tail, begins, -⟩ := second.exists_events_eq_cons
  simp [begins] at nothing

theorem not_unclosed_events : ¬ Unclosed t.events := by
  rintro ⟨before, name, text, tail, whole, never⟩
  obtain ⟨content, rest, closed⟩ := t.exists_closing whole
  exact never content rest closed

theorem ofText_error_of_events {text : String} (h : ∀ t : TagTree, (Tags.ofText text.toList).events ≠ t.events) :
    ∃ err, Element.ofText text = .error err := by
  cases found : Element.ofText text with
  | error err => exact ⟨err, rfl⟩
  | ok e =>
    obtain ⟨-, t, tags, -⟩ := ofText_eq_ok_iff.1 found
    exact absurd tags (h t)

end Rejection

/-- Every tree can be written, every way to write it is read as the tree, and a text is rejected in which no element
begins, or a second root does, or an element is not closed. -/
theorem round_trip :
    (∀ n : Node, ∃ s, n.Written s) ∧
      (∀ (n : Node) (text : String), n.Written text.toList → ∃ e, Element.ofText text = .ok e ∧ n.Reads e) ∧
      ∀ text : String, (Rootless (Tags.ofText text.toList).events ∨ ManyRoots (Tags.ofText text.toList).events ∨
        Unclosed (Tags.ofText text.toList).events) → ∃ err, Element.ofText text = .error err := by
  refine ⟨Node.exists_written, fun n text written => ?_, fun text faulty => ?_⟩
  · obtain ⟨t, tagged, spells⟩ := written
    obtain ⟨e, read, reads⟩ := n.reads_of_tagged tagged .initial
    have tags := ofText_spells spells
    exact ⟨e, ofText_eq_ok_iff.2 ⟨congrArg Tags.complete tags, t, congrArg Tags.events tags, read⟩, reads⟩
  · apply ofText_error_of_events
    intro t tags
    rw [tags] at faulty
    rcases faulty with faulty | faulty | faulty
    · exact not_rootless_events faulty
    · exact not_manyRoots_events faulty
    · exact not_unclosed_events faulty

def listNode : Node :=
  .intro ⟨some ⟨['l'], by decide, by decide⟩, ⟨['a', 'l', 'l'], by decide, by decide⟩⟩
    ⟨[(⟨none, ⟨['n'], by decide, by decide⟩⟩, ['1', '<', '2'])], by simp⟩
    [.intro ⟨none, ⟨['i', 't'], by decide, by decide⟩⟩ ⟨[], .nil⟩ []]

def listText : String := "<!-- list --><l:all n='1&lt;2'><it/>and</l:all >"

theorem listNode_written : listNode.Written listText.toList := by
  have value : Quoted '\'' ['1', '<', '2'] ['1', '&', 'l', 't', ';', '2'] :=
    .plain (by decide) (by decide) (by decide) (.named (by decide : ('<', ['l', 't']) ∈ namedCharacters)
      (.plain (by decide) (by decide) (by decide) .nil))
  have attributes := AttributesText.cons ⟨none, ⟨['n'], by decide, by decide⟩⟩ spaces_blank (by decide) spaces_nil
    spaces_nil (.inr rfl) value (.nil spaces_nil)
  have comment : ¬ ['-', '-', '>'] <:+: [' ', 'l', 'i', 's', 't', ' '] := by decide
  refine ⟨_, .pair attributes (.cons (.leaf (.nil spaces_nil)) .nil), ?_⟩
  unfold listText
  rw [String.toList_ofList]
  have closing : Spells [.closing ['l', ':', 'a', 'l', 'l']] "</l:all >".toList :=
    .closing ⟨some ⟨['l'], by decide, by decide⟩, ⟨['a', 'l', 'l'], by decide, by decide⟩⟩ spaces_blank .nil
  have item := Spells.leaf ⟨none, ⟨['i', 't'], by decide, by decide⟩⟩ (.nil spaces_nil)
    (.text (c := 'a') (by decide) (by decide) (.text (c := 'n') (by decide) (by decide)
      (.text (c := 'd') (by decide) (by decide) closing)))
  exact .comment comment (.opening _ attributes item)

theorem listText_round_trip :
    (∃ e, Element.ofText listText = .ok e ∧ listNode.Reads e) ∧
      (∃ err, Element.ofText "text" = .error err) ∧ (∃ err, Element.ofText "<a/><b/>" = .error err) ∧
      ∃ err, Element.ofText "<a><b/>" = .error err := by
  obtain ⟨-, reads, rejects⟩ := round_trip
  have text : (Tags.ofText "text".toList).events = [] := by
    rw [String.toList_ofList]
    decide +kernel
  have two : (Tags.ofText "<a/><b/>".toList).events =
      (TagTree.leaf ['a'] []).events ++ (TagTree.leaf ['b'] []).events := by
    rw [String.toList_ofList]
    decide +kernel
  have unclosed : (Tags.ofText "<a><b/>".toList).events = [.opening ['a'] [], .leaf ['b'] []] := by
    rw [String.toList_ofList]
    decide +kernel
  refine ⟨reads listNode listText listNode_written, rejects _ (.inl ?_), rejects _ (.inr (.inl ?_)),
    rejects _ (.inr (.inr ?_))⟩
  · rw [text]
    exact nofun
  · rw [two]
    exact ⟨_, _, List.prefix_rfl⟩
  · rw [unclosed]
    refine ⟨[], _, _, _, rfl, fun content rest h => ?_⟩
    have closed : Event.closing ['a'] ∈ [Event.leaf ['b'] []] := h ▸ by simp
    simp at closed

end SchemaGraph.Markup
