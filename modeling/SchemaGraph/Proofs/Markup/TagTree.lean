import SchemaGraph.Proofs.Markup.StartTag

/-! The tags of a text as a tree, of which there is at most one (`events_injective`).  To read the tags of a tree one by
one is to read the tree and to put the element into its place (`foldlM_events`).  A text is accepted exactly when its
tags are those of one tree that can be read (`ofText_eq_ok_iff`). -/
namespace SchemaGraph.Markup

/-- Nested tags.  The text of a tag is all that follows its name. -/
inductive TagTree
  | leaf (name text : List Char)
  | pair (name text : List Char) (content : List TagTree)

namespace TagTree

mutual

def events : TagTree → List Event
  | .leaf name text => [.leaf name text]
  | .pair name text content => .opening name text :: (eventsOf content ++ [.closing name])

def eventsOf : List TagTree → List Event
  | [] => []
  | t :: rest => t.events ++ eventsOf rest

end

mutual

/-- The element of a tree.  The content is read in the scope of its element. -/
def element (outer : Scope) : TagTree → Except DocumentError Element
  | .leaf name text => Element.ofStart outer name text
  | .pair name text content => do
    let e ← Element.ofStart outer name text
    let children ← elements e.scope content
    return { e with children }

def elements (outer : Scope) : List TagTree → Except DocumentError (List Element)
  | [] => return []
  | t :: rest => do
    let e ← t.element outer
    let children ← elements outer rest
    return e :: children

end

theorem eventsOf_append (l l' : List TagTree) : eventsOf (l ++ l') = eventsOf l ++ eventsOf l' := by
  induction l with
  | nil => simp [eventsOf]
  | cons t l ih => simp [eventsOf, ih]

theorem eventsOf_singleton (t : TagTree) : eventsOf [t] = t.events := by
  simp [eventsOf]

theorem elements_append (outer : Scope) (l l' : List TagTree) :
    elements outer (l ++ l') = do
      let first ← elements outer l
      let rest ← elements outer l'
      return first ++ rest := by
  induction l with
  | nil => simp [elements]
  | cons t l ih => simp [elements, ih]

def Ends (rest : List Event) : Prop := ∀ event tail, rest = event :: tail → ∃ name, event = .closing name

theorem Ends.closing (name : List Char) (rest : List Event) : Ends (.closing name :: rest) := by
  rintro event tail ⟨⟩
  exact ⟨name, rfl⟩

theorem exists_events_eq_cons : ∀ t : TagTree, ∃ event tail, t.events = event :: tail ∧ ∀ name, event ≠ .closing name
  | .leaf name text => ⟨.leaf name text, [], by simp [events], nofun⟩
  | .pair name text content => ⟨.opening name text, eventsOf content ++ [.closing name], by simp [events], nofun⟩

mutual

theorem eq_of_events_append : ∀ (t t' : TagTree) {rest rest' : List Event},
    t.events ++ rest = t'.events ++ rest' → t = t' ∧ rest = rest'
  | .leaf name text, .leaf name' text', rest, rest', h => by
    simp only [events, List.cons_append, List.nil_append, List.cons.injEq, Event.leaf.injEq] at h
    obtain ⟨⟨rfl, rfl⟩, rfl⟩ := h
    exact ⟨rfl, rfl⟩
  | .leaf name text, .pair name' text' content', rest, rest', h => by
    simp [events] at h
  | .pair name text content, .leaf name' text', rest, rest', h => by
    simp [events] at h
  | .pair name text content, .pair name' text' content', rest, rest', h => by
    simp only [events, List.cons_append, List.append_assoc, List.nil_append, List.cons.injEq,
      Event.opening.injEq] at h
    obtain ⟨⟨rfl, rfl⟩, h⟩ := h
    obtain ⟨rfl, tails⟩ := eq_of_eventsOf_append content content' (.closing name rest) (.closing name rest') h
    exact ⟨rfl, (List.cons.inj tails).2⟩

theorem eq_of_eventsOf_append : ∀ (l l' : List TagTree) {rest rest' : List Event}, Ends rest → Ends rest' →
    eventsOf l ++ rest = eventsOf l' ++ rest' → l = l' ∧ rest = rest'
  | [], [], rest, rest', _, _, h => by
    simpa [eventsOf] using h
  | [], t :: l', rest, rest', ends, _, h => by
    obtain ⟨event, tail, first, other⟩ := t.exists_events_eq_cons
    simp only [eventsOf, List.nil_append, List.append_assoc, first, List.cons_append] at h
    obtain ⟨name, closing⟩ := ends event _ h
    exact absurd closing (other name)
  | t :: l, [], rest, rest', _, ends, h => by
    obtain ⟨event, tail, first, other⟩ := t.exists_events_eq_cons
    simp only [eventsOf, List.nil_append, List.append_assoc, first, List.cons_append] at h
    obtain ⟨name, closing⟩ := ends event _ h.symm
    exact absurd closing (other name)
  | t :: l, t' :: l', rest, rest', ends, ends', h => by
    simp only [eventsOf, List.append_assoc] at h
    obtain ⟨rfl, more⟩ := eq_of_events_append t t' h
    obtain ⟨rfl, tails⟩ := eq_of_eventsOf_append l l' ends ends' more
    exact ⟨rfl, tails⟩

end

theorem events_injective {t t' : TagTree} (h : t.events = t'.events) : t = t' := by
  have h' : t.events ++ [] = t'.events ++ [] := by rw [h]
  exact (eq_of_events_append t t' h').1

mutual

theorem exists_closing : ∀ (t : TagTree) {before tail : List Event} {name text : List Char},
    t.events = before ++ .opening name text :: tail → ∃ content rest, tail = eventsOf content ++ .closing name :: rest
  | .leaf name' text', before, tail, name, text, h => by
    cases before <;> simp [events] at h
  | .pair name' text' content', before, tail, name, text, h => by
    rw [events] at h
    cases before with
    | nil =>
      obtain ⟨⟨rfl, rfl⟩, rfl⟩ : (name' = name ∧ text' = text) ∧ eventsOf content' ++ [.closing name'] = tail := by
        simpa using h
      exact ⟨content', [], rfl⟩
    | cons first before =>
      have inside := (List.cons.inj h).2
      rcases List.append_eq_append_iff.1 inside with ⟨more, -, last⟩ | ⟨more, whole, behind⟩
      · cases more <;> simp at last
      · cases more with
        | nil => simp at behind
        | cons event more =>
          obtain ⟨rfl, rfl⟩ := List.cons.inj behind
          obtain ⟨content, rest, rfl⟩ := exists_closing_list content' whole
          exact ⟨content, rest ++ [.closing name'], by simp⟩

theorem exists_closing_list : ∀ (l : List TagTree) {before tail : List Event} {name text : List Char},
    eventsOf l = before ++ .opening name text :: tail → ∃ content rest, tail = eventsOf content ++ .closing name :: rest
  | [], before, tail, name, text, h => by
    simp [eventsOf] at h
  | t :: l, before, tail, name, text, h => by
    rw [eventsOf] at h
    rcases List.append_eq_append_iff.1 h with ⟨more, -, later⟩ | ⟨more, whole, behind⟩
    · exact exists_closing_list l later
    · cases more with
      | nil =>
        have later : eventsOf l = [] ++ .opening name text :: tail := behind.symm
        exact exists_closing_list l later
      | cons event more =>
        obtain ⟨rfl, rfl⟩ := List.cons.inj behind
        obtain ⟨content, rest, rfl⟩ := exists_closing t whole
        exact ⟨content, rest ++ eventsOf l, by simp⟩

end

theorem attach_cons (parent : Element) (outer : List Element) (root : Option Element) (e : Element) :
    Growth.attach ⟨parent :: outer, root⟩ e = .ok ⟨{ parent with children := e :: parent.children } :: outer, root⟩ :=
  rfl

theorem step_opening (g : Growth) (name text : List Char) :
    g.step (.opening name text) =
      Element.ofStart g.scope name text >>= fun e => .ok { g with openElements := e :: g.openElements } := rfl

theorem step_leaf (g : Growth) (name text : List Char) :
    g.step (.leaf name text) = Element.ofStart g.scope name text >>= g.attach := rfl

theorem step_closing {e : Element} {name : List Char} (tag : e.tag = String.ofList name) (outer : List Element)
    (root : Option Element) :
    Growth.step ⟨e :: outer, root⟩ (.closing name) =
      Growth.attach ⟨outer, root⟩ { e with children := e.children.reverse } := by
  simp [Growth.step, tag]

theorem step_closing_of_ne {e : Element} {name : List Char} (tag : e.tag ≠ String.ofList name) (outer : List Element)
    (root : Option Element) : Growth.step ⟨e :: outer, root⟩ (.closing name) = .error .malformed := by
  simp [Growth.step, tag]

mutual

theorem foldlM_events (g : Growth) : ∀ t : TagTree, t.events.foldlM Growth.step g = t.element g.scope >>= g.attach
  | .leaf name text => by
    simp only [events, element, List.foldlM_cons, List.foldlM_nil, step_leaf, bind_pure]
  | .pair name text content => by
    rw [events, element, List.foldlM_cons, step_opening, bind_assoc, bind_assoc]
    cases start : Element.ofStart g.scope name text with
    | error e => rfl
    | ok e =>
      have tag (children : List Element) : Element.tag { e with children } = String.ofList name :=
        (tag_withChildren e children).trans (tag_of_ofStart start)
      have inside := foldlM_eventsOf e g.openElements g.root content
      simp only [children_of_ofStart start, List.append_nil] at inside
      change (eventsOf content ++ [Event.closing name]).foldlM Growth.step ⟨e :: g.openElements, g.root⟩ =
        ((elements e.scope content >>= fun children => pure { e with children }) >>= g.attach)
      rw [List.foldlM_append, inside, bind_assoc, bind_assoc]
      congr 1
      funext children
      change [Event.closing name].foldlM Growth.step _ = g.attach { e with children }
      simp [step_closing (tag _)]

theorem foldlM_eventsOf (parent : Element) (outer : List Element) (root : Option Element) :
    ∀ l : List TagTree, (eventsOf l).foldlM Growth.step ⟨parent :: outer, root⟩ =
      elements parent.scope l >>= fun es =>
        .ok ⟨{ parent with children := es.reverse ++ parent.children } :: outer, root⟩
  | [] => by
    obtain ⟨label, localName, attributes, scope, children⟩ := parent
    simp [eventsOf, elements, pure, Except.pure, bind, Except.bind]
  | t :: l => by
    rw [eventsOf, elements, List.foldlM_append, foldlM_events _ t, bind_assoc, bind_assoc]
    congr 1
    funext e
    rw [attach_cons, bind_assoc]
    refine (foldlM_eventsOf _ outer root l).trans ?_
    congr 1
    funext es
    simp

end

end TagTree

structure Frame where
  name : List Char
  text : List Char
  content : List TagTree

def openTags : List Frame → List Event
  | [] => []
  | f :: outer => openTags outer ++ .opening f.name f.text :: TagTree.eventsOf f.content

/-- Open elements as they are kept, with their children in reverse. -/
inductive Opens : List Frame → List Element → Prop
  | nil : Opens [] []
  | cons {f : Frame} {frames : List Frame} {outer : List Element} {e : Element} {children : List Element} :
    Opens frames outer → Element.ofStart (Growth.mk outer none).scope f.name f.text = .ok e →
    TagTree.elements e.scope f.content = .ok children →
    Opens (f :: frames) ({ e with children := children.reverse } :: outer)

inductive Closes : List TagTree → Option Element → Prop
  | none : Closes [] none
  | root {t : TagTree} {e : Element} : t.element .initial = .ok e → Closes [t] (some e)

/-- What the tags so far have come to: perhaps a closed root, and the open elements. -/
inductive Reached : List Event → Growth → Prop
  | intro {closed : List TagTree} {root : Option Element} {frames : List Frame} {openElements : List Element} :
    Closes closed root → Opens frames openElements →
    Reached (TagTree.eventsOf closed ++ openTags frames) ⟨openElements, root⟩

namespace Reached

variable {events : List Event} {g g' : Growth} {e : Element} {t : TagTree} {event : Event}

theorem start : Reached [] Growth.start := by
  change Reached [] ⟨[], none⟩
  simpa [TagTree.eventsOf, openTags] using Reached.intro .none .nil

theorem attach (h : Reached events g) (read : t.element g.scope = .ok e) (placed : g.attach e = .ok g') :
    Reached (events ++ t.events) g' := by
  obtain ⟨closes, opens⟩ := h
  cases opens with
  | nil =>
    cases closes with
    | root => cases placed
    | none =>
      cases placed
      simpa [TagTree.eventsOf, openTags] using Reached.intro (.root read) .nil
  | @cons f frames outer parent children opens start inside =>
    cases placed
    have longer : TagTree.elements parent.scope (f.content ++ [t]) = .ok (children ++ [e]) := by
      change t.element parent.scope = .ok e at read
      rw [TagTree.elements_append, inside]
      simp [TagTree.elements, read, bind, Except.bind, pure, Except.pure]
    have grown := Reached.intro closes (.cons (f := { f with content := f.content ++ [t] }) opens start longer)
    simpa [openTags, TagTree.eventsOf_append, TagTree.eventsOf_singleton] using grown

theorem step (h : Reached events g) (stepped : g.step event = .ok g') : Reached (events ++ [event]) g' := by
  cases event with
  | opening name text =>
    rw [TagTree.step_opening] at stepped
    obtain ⟨e, start, opened⟩ := bind_eq_ok_iff.1 stepped
    cases opened
    obtain ⟨closes, opens⟩ := h
    have grown := Reached.intro closes (.cons (f := ⟨name, text, []⟩) opens start rfl)
    rw [List.reverse_nil, withChildren_eq (children_of_ofStart start)] at grown
    simpa [openTags, TagTree.eventsOf] using grown
  | leaf name text =>
    rw [TagTree.step_leaf] at stepped
    obtain ⟨e, start, placed⟩ := bind_eq_ok_iff.1 stepped
    exact h.attach (t := .leaf name text) start placed
  | closing name =>
    obtain ⟨closes, opens⟩ := h
    cases opens with
    | nil => cases stepped
    | @cons f frames outer e children opens start inside =>
      by_cases tag : e.tag = String.ofList name
      · have named : f.name = name := String.ofList_inj.1 ((tag_of_ofStart start).symm.trans tag)
        rw [TagTree.step_closing (e := { e with children := children.reverse }) tag] at stepped
        have read : (TagTree.pair f.name f.text f.content).element (Growth.mk outer none).scope =
            .ok { e with children := children.reverse.reverse } := by
          rw [List.reverse_reverse, TagTree.element, start]
          change (TagTree.elements e.scope f.content >>= fun children => pure { e with children }) = _
          rw [inside]
          rfl
        have grown := (Reached.intro closes opens).attach read stepped
        simpa [openTags, TagTree.events, named] using grown
      · rw [TagTree.step_closing_of_ne (e := { e with children := children.reverse }) tag] at stepped
        cases stepped

theorem run {rest : List Event} (h : Reached events g) (ran : rest.foldlM Growth.step g = .ok g') :
    Reached (events ++ rest) g' := by
  induction rest generalizing events g with
  | nil =>
    cases ran
    simpa using h
  | cons event rest ih =>
    rw [List.foldlM_cons] at ran
    obtain ⟨next, stepped, ran⟩ := bind_eq_ok_iff.1 ran
    simpa using ih (h.step stepped) ran

end Reached

/-- A text is accepted if its tags are those of one tree, and then the root is the element of the tree. -/
theorem ofText_eq_ok_iff {text : String} {e : Element} :
    Element.ofText text = .ok e ↔ (Tags.ofText text.toList).complete = true ∧
      ∃ t : TagTree, (Tags.ofText text.toList).events = t.events ∧ t.element .initial = .ok e := by
  unfold Element.ofText
  dsimp only
  rw [bind_eq_ok_iff]
  constructor
  · rintro ⟨g, ran, ended⟩
    split at ended
    · next complete =>
      refine ⟨complete, ?_⟩
      have reached := Reached.start.run ran
      rw [List.nil_append] at reached
      generalize (Tags.ofText text.toList).events = events at reached
      obtain ⟨closes, opens⟩ := reached
      cases opens with
      | cons => cases ended
      | nil =>
        cases closes with
        | none => cases ended
        | @root t e' read =>
          cases ended
          exact ⟨t, by simp [openTags, TagTree.eventsOf], read⟩
    · cases ended
  · rintro ⟨complete, t, tags, read⟩
    refine ⟨⟨[], some e⟩, ?_, ?_⟩
    · rw [tags, TagTree.foldlM_events]
      change (t.element .initial >>= Growth.attach ⟨[], none⟩) = _
      rw [read]
      rfl
    · rw [if_pos complete]
      rfl

end SchemaGraph.Markup
