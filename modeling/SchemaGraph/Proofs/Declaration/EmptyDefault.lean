import SchemaGraph.Proofs.Declaration.Alike
import SchemaGraph.Proofs.Markup.StartTag

/-! What the empty default namespace does to a schema document.  The reader binds it like any other, so that names
without a label come into a namespace with the empty name instead of none.  Two texts that only differ in such
a declaration at the root are followed through the tags, through the tree and through the reading. -/
namespace SchemaGraph

open Markup (Element Scope Event Growth Tags)

def QName.emptied (q : QName) : QName := ⟨some (q.uri.getD ""), q.localName⟩

theorem QName.emptied_eq_self_iff {q : QName} : q.emptied = q ↔ q.uri ≠ none := by
  obtain ⟨uri, localName⟩ := q
  cases uri <;> simp [emptied]

theorem fixes_emptied_iff {refs : List Mention} :
    Fixes QName.emptied refs ↔ ∀ kind name, .named kind name ∈ refs → name.uri ≠ none :=
  forall₃_congr fun _ _ _ => QName.emptied_eq_self_iff

/-- The second computation ends as the first does: with an answer that is related, or with the same fault. -/
inductive Likewise {ε α β : Type} (R : α → β → Prop) : Except ε α → Except ε β → Prop
  | pure {a : α} {b : β} : R a b → Likewise R (.ok a) (.ok b)
  | throw (e : ε) : Likewise R (.error e) (.error e)

namespace Likewise

variable {ε α β γ δ : Type} {R : α → β → Prop} {S : γ → δ → Prop} {x : Except ε α} {y : Except ε β}

theorem refl (x : Except ε α) : Likewise Eq x x := by
  cases x with
  | ok a => exact .pure rfl
  | error e => exact .throw e

theorem bind {f : α → Except ε γ} {g : β → Except ε δ} (h : Likewise R x y)
    (rest : ∀ a b, R a b → Likewise S (f a) (g b)) : Likewise S (x >>= f) (y >>= g) := by
  cases h with
  | pure hR => exact rest _ _ hR
  | throw e => exact .throw e

theorem foldlM {step : α → γ → Except ε α} {step' : β → γ → Except ε β}
    (each : ∀ a b c, R a b → Likewise R (step a c) (step' b c)) :
    ∀ {l : List γ} {a : α} {b : β}, R a b → Likewise R (l.foldlM step a) (l.foldlM step' b)
  | [], _, _, h => pure h
  | c :: l, a, b, h => by
    rw [List.foldlM_cons, List.foldlM_cons]
    exact (each a b c h).bind fun _ _ h => foldlM each h

end Likewise

/-- The second scope binds what the first one binds, and the empty label to the empty namespace if the first one
does not bind it. -/
def Underlaid (s t : Scope) : Prop := ∀ label, t.lookup label = (s ++ [("", "")]).lookup label

namespace Underlaid

variable {s t : Scope}

theorem lookup_empty (h : Underlaid s t) : t.lookup "" = some ((s.lookup "").getD "") := by
  rw [h "", List.lookup_append]
  cases s.lookup "" <;> rfl

theorem lookup_of_ne (h : Underlaid s t) {label : String} (nonempty : label ≠ "") :
    t.lookup label = s.lookup label := by
  rw [h label, List.lookup_append, List.lookup_cons, beq_eq_false_iff_ne.2 nonempty]
  exact Option.or_none

theorem append (h : Underlaid s t) (declared : Scope) : Underlaid (declared ++ s) (declared ++ t) := by
  intro label
  rw [List.append_assoc, List.lookup_append, List.lookup_append, h label]

end Underlaid

inductive Shifted : Element → Element → Prop
  | intro (label : Option String) (localName : String) (attributes : List (String × String)) {s t : Scope}
    {children children' : List Element} : Underlaid s t → List.Forall₂ Shifted children children' →
    Shifted ⟨label, localName, attributes, s, children⟩ ⟨label, localName, attributes, t, children'⟩

/-- Names move out of no namespace.  A label that is written but empty may be bound on one side only. -/
def intoEmpty : Comparison := ⟨QName.emptied, True, fun e => ∃ value, e = .unboundLabel "" value⟩

namespace Shifted

variable {a b : Element}

theorem scope (h : Shifted a b) : Underlaid a.scope b.scope := by
  obtain ⟨_, _, _, scopes, -⟩ := h
  exact scopes

theorem tag_eq (h : Shifted a b) : b.tag = a.tag := by
  cases h
  rfl

theorem resolve (h : Shifted a b) (value : String) :
    intoEmpty.Follows QName.emptied (a.resolve value) (b.resolve value) := by
  unfold Element.resolve
  dsimp only
  split
  · next label name _ =>
    by_cases empty : label = ""
    · subst empty
      rw [h.scope.lookup_empty]
      cases a.scope.lookup "" with
      | some uri => exact .pure (⟨some uri, name⟩ : QName)
      | none => exact .excuse _ ⟨_, rfl⟩
    · rw [h.scope.lookup_of_ne empty]
      cases a.scope.lookup label with
      | some uri => exact .pure (⟨some uri, name⟩ : QName)
      | none => exact .throw fun _ => rfl
  · rw [h.scope.lookup_empty]
    exact .pure (⟨a.scope.lookup "", Text.trim value⟩ : QName)

theorem heads (h : Shifted a b) : intoEmpty.Heads a b := by
  have attr? (key : String) : b.attr? key = a.attr? key := by
    cases h
    rfl
  refine ⟨by cases h; rfl, fun key _ _ => attr? key, fun key _ => ?_, fun _ => h.tag_eq⟩
  unfold Element.qname?
  rw [attr? key]
  split
  · next value _ =>
    have resolved := h.resolve value
    revert resolved
    generalize a.resolve value = x, b.resolve value = y
    exact fun resolved => resolved.map fun _ => rfl
  · exact .pure none

theorem children (h : Shifted a b) : List.Forall₂ Shifted a.children b.children := by
  cases h with
  | intro _ _ _ _ children => exact children

theorem reverse (h : Shifted a b) :
    Shifted { a with children := a.children.reverse } { b with children := b.children.reverse } := by
  obtain ⟨label, localName, attributes, scopes, children⟩ := h
  exact .intro _ _ _ scopes (List.rel_reverse children)

theorem uri_iff (h : Shifted a b) : b.uri = some QName.xsdUri ↔ a.uri = some QName.xsdUri := by
  have label : b.label = a.label := by
    cases h
    rfl
  unfold Element.uri
  rw [label]
  by_cases empty : a.label.getD "" = ""
  · rw [empty, h.scope.lookup_empty]
    cases a.scope.lookup "" with
    | some uri => exact Iff.rfl
    | none => decide
  · rw [h.scope.lookup_of_ne empty]

end Shifted

theorem relates_shifted : intoEmpty.Relates Shifted := fun _ _ h => ⟨h.heads, .of_forall₂ h.children⟩

def AddsEmpty (text text' : List Char) : Prop :=
  ∃ before after, Markup.attributes [] text = before ++ after ∧
    Markup.attributes [] text' = before ++ ("xmlns".toList, []) :: after ∧
    ∀ p ∈ before ++ after, Markup.declaredLabel? p.1 ≠ some []

/-- Two start tags of one element, the second of which also declares the empty default namespace. -/
inductive DeclaresEmpty : Event → Event → Prop
  | opening (name : List Char) {text text' : List Char} : AddsEmpty text text' →
    DeclaresEmpty (.opening name text) (.opening name text')
  | leaf (name : List Char) {text text' : List Char} : AddsEmpty text text' →
    DeclaresEmpty (.leaf name text) (.leaf name text')

def WithEmptyDefault (text text' : String) : Prop :=
  ∃ e e' rest, (Tags.ofText text.toList).events = e :: rest ∧ (Tags.ofText text'.toList).events = e' :: rest ∧
    (Tags.ofText text'.toList).complete = (Tags.ofText text.toList).complete ∧ DeclaresEmpty e e'

namespace Markup

variable {s t : Scope} {name : List Char}

theorem ofStart_shifted (h : Underlaid s t) (name text : List Char) :
    Likewise Shifted (Element.ofStart s name text) (Element.ofStart t name text) := by
  rw [ofStart_eq, ofStart_eq]
  refine (Likewise.refl (resolvedAttributes name text)).bind ?_
  rintro attributes _ rfl
  exact .pure (.intro _ _ _ (h.append _) .nil)

theorem key_of_mem_resolved {l : List (List Char × List Char)} {r : List (List Char × String)}
    (h : l.mapM (resolvedAttribute name) = .ok r) {p : List Char × String} (hp : p ∈ r) : ∃ q ∈ l, q.1 = p.1 := by
  induction l generalizing r with
  | nil =>
    cases h
    cases hp
  | cons q l ih =>
    rw [List.mapM_cons] at h
    obtain ⟨p', first, h⟩ := bind_eq_ok_iff.1 h
    obtain ⟨rest, hrest, h⟩ := bind_eq_ok_iff.1 h
    cases h
    rcases List.mem_cons.1 hp with rfl | hp
    · refine ⟨q, List.mem_cons_self, ?_⟩
      unfold resolvedAttribute at first
      split at first
      · cases first
        rfl
      · cases first
    · obtain ⟨q', hq', same⟩ := ih hrest hp
      exact ⟨q', List.mem_cons_of_mem _ hq', same⟩

theorem lookup_declared {attributes : List (List Char × String)}
    (plain : ∀ p ∈ attributes, declaredLabel? p.1 ≠ some []) : (declared attributes).reverse.lookup "" = none := by
  rw [List.lookup_eq_none_iff]
  intro p hp
  obtain ⟨q, hq, bound⟩ := List.mem_filterMap.1 (List.mem_reverse.1 hp)
  obtain ⟨label, here, rfl⟩ := Option.map_eq_some_iff.1 bound
  have nonempty : label ≠ [] := by
    rintro rfl
    exact plain q hq here
  rw [bne_iff_ne]
  intro empty
  exact nonempty (String.ofList_inj.1 empty.symm)

theorem underlaid_root {before after : Scope} (hb : before.reverse.lookup "" = none)
    (ha : after.reverse.lookup "" = none) :
    Underlaid ((before ++ after).reverse ++ .initial) ((before ++ ("", "") :: after).reverse ++ .initial) := by
  intro label
  have split (l : Scope) : (before ++ l).reverse = l.reverse ++ before.reverse := List.reverse_append
  rw [split, split, List.reverse_cons]
  simp only [List.append_assoc, List.lookup_append]
  by_cases empty : label = ""
  · subst empty
    rw [hb, ha]
    rfl
  · have other : List.lookup label [("", "")] = none := by
      rw [List.lookup_cons, beq_eq_false_iff_ne.2 empty]
      rfl
    rw [other, Option.none_or, Option.or_none]

def Inserted (r r' : List (List Char × String)) : Prop :=
  ∃ before after, r = before ++ after ∧ r' = before ++ ("xmlns".toList, "") :: after ∧
    ∀ p ∈ before ++ after, declaredLabel? p.1 ≠ some []

theorem resolvedAttributes_inserted {text text' : List Char} (h : AddsEmpty text text') :
    Likewise Inserted (resolvedAttributes name text) (resolvedAttributes name text') := by
  obtain ⟨before, after, attrs, attrs', plain⟩ := h
  have empty : resolvedAttribute name ("xmlns".toList, []) = .ok ("xmlns".toList, "") := by
    unfold resolvedAttribute
    dsimp only
    rw [unescape]
  rw [resolvedAttributes_eq, resolvedAttributes_eq, attrs, attrs', List.mapM_append, List.mapM_append, List.mapM_cons,
    empty]
  cases hb : before.mapM (resolvedAttribute name) with
  | error e => exact .throw e
  | ok r₁ =>
    cases ha : after.mapM (resolvedAttribute name) with
    | error e => exact .throw e
    | ok r₂ =>
      refine .pure ⟨r₁, r₂, rfl, rfl, fun p hp => ?_⟩
      obtain ⟨q, hq, same⟩ : ∃ q ∈ before ++ after, q.1 = p.1 := by
        rcases List.mem_append.1 hp with hp | hp
        · obtain ⟨q, hq, same⟩ := key_of_mem_resolved hb hp
          exact ⟨q, List.mem_append_left _ hq, same⟩
        · obtain ⟨q, hq, same⟩ := key_of_mem_resolved ha hp
          exact ⟨q, List.mem_append_right _ hq, same⟩
      exact same ▸ plain q hq

theorem ofStart_root {text text' : List Char} (h : AddsEmpty text text') :
    Likewise Shifted (Element.ofStart .initial name text) (Element.ofStart .initial name text') := by
  rw [ofStart_eq, ofStart_eq]
  refine (resolvedAttributes_inserted h).bind ?_
  rintro _ _ ⟨before, after, rfl, rfl, plain⟩
  have ⟨hb, ha⟩ := List.forall_mem_append.1 plain
  have kept : undeclared (before ++ ("xmlns".toList, "") :: after) = undeclared (before ++ after) := by
    unfold undeclared
    rw [List.filterMap_append, List.filterMap_append]
    rfl
  have added : declared (before ++ ("xmlns".toList, "") :: after) = declared before ++ ("", "") :: declared after :=
    List.filterMap_append
  have unchanged : declared (before ++ after) = declared before ++ declared after := List.filterMap_append
  rw [kept, added, unchanged]
  exact .pure (.intro _ _ _ (underlaid_root (lookup_declared hb) (lookup_declared ha)) .nil)

end Markup

inductive GrowthShifted : Growth → Growth → Prop
  | inside {l l' : List Element} : l ≠ [] → List.Forall₂ Shifted l l' → GrowthShifted ⟨l, none⟩ ⟨l', none⟩
  | behind (l : List Element) {r r' : Element} : Shifted r r' → GrowthShifted ⟨l, some r⟩ ⟨l, some r'⟩

namespace GrowthShifted

variable {g g' : Growth} {e e' : Element} {l l' : List Element} {r r' : Element}

theorem attach_inside (h : List.Forall₂ Shifted l l') (he : Shifted e e') :
    Likewise GrowthShifted (Growth.attach ⟨l, none⟩ e) (Growth.attach ⟨l', none⟩ e') := by
  cases h with
  | nil => exact .pure (.behind [] he)
  | cons parent outer =>
    obtain ⟨label, localName, attributes, scopes, children⟩ := parent
    exact .pure (.inside (List.cons_ne_nil _ _) (.cons (.intro _ _ _ scopes (.cons he children)) outer))

theorem attach_behind (h : Shifted r r') (e : Element) (l : List Element) :
    Likewise GrowthShifted (Growth.attach ⟨l, some r⟩ e) (Growth.attach ⟨l, some r'⟩ e) := by
  cases l with
  | nil => exact .throw _
  | cons parent outer => exact .pure (.behind _ h)

theorem step (h : GrowthShifted g g') (event : Event) : Likewise GrowthShifted (g.step event) (g'.step event) := by
  cases h with
  | inside nonempty h =>
    cases h with
    | nil => exact absurd rfl nonempty
    | @cons top top' outer outer' first rest =>
      cases event with
      | opening name text =>
        exact (Markup.ofStart_shifted first.scope name text).bind fun e e' he =>
          .pure (.inside (List.cons_ne_nil _ _) (.cons he (.cons first rest)))
      | leaf name text =>
        exact (Markup.ofStart_shifted first.scope name text).bind fun e e' he => attach_inside (.cons first rest) he
      | closing name =>
        unfold Growth.step
        dsimp only
        rw [first.tag_eq]
        split
        · exact attach_inside rest first.reverse
        · exact .throw _
  | @behind l r r' h =>
    -- What is opened behind the root has the same scope on both sides, and is refused once it is closed.
    have scope : (Growth.mk l (some r)).scope = (Growth.mk l (some r')).scope := by cases l <;> rfl
    unfold Growth.step
    dsimp only
    rw [scope]
    cases event with
    | opening name text =>
      refine (Likewise.refl _).bind ?_
      rintro e _ rfl
      exact .pure (.behind _ h)
    | leaf name text =>
      refine (Likewise.refl _).bind ?_
      rintro e _ rfl
      exact attach_behind h e l
    | closing name =>
      cases l with
      | nil => exact .throw _
      | cons e outer =>
        dsimp only
        split
        · exact attach_behind h _ outer
        · exact .throw _

theorem finish (h : GrowthShifted g g') : Likewise Shifted g.finish g'.finish := by
  cases h with
  | inside nonempty h =>
    cases h with
    | nil => exact absurd rfl nonempty
    | cons first _ =>
      unfold Growth.finish
      dsimp only
      rw [first.tag_eq]
      exact .throw _
  | behind l h =>
    cases l with
    | nil => exact .pure h
    | cons e l => exact .throw _

end GrowthShifted

theorem ofText_shifted {text text' : String} (h : WithEmptyDefault text text') :
    Likewise Shifted (Element.ofText text) (Element.ofText text') := by
  obtain ⟨e, e', rest, events, events', complete, root⟩ := h
  have first : Likewise GrowthShifted (Growth.start.step e) (Growth.start.step e') := by
    cases root with
    | opening name added =>
      exact (Markup.ofStart_root added).bind fun a b hab =>
        .pure (.inside (List.cons_ne_nil _ _) (.cons hab .nil))
    | leaf name added =>
      exact (Markup.ofStart_root added).bind fun a b hab => GrowthShifted.attach_inside .nil hab
  unfold Element.ofText
  dsimp only
  rw [events, events', complete, List.foldlM_cons, List.foldlM_cons]
  refine (first.bind fun g g' h => Likewise.foldlM (fun g g' event h => h.step event) h).bind fun g g' h => ?_
  split
  · exact h.finish
  · exact .throw _

namespace SchemaDocument

/-- The empty default namespace at the root of a document that declares no default puts every reference without a
namespace into the empty one and changes nothing else.  A fault stays, unless a reference has a colon and no
label before it. -/
theorem ofText_with_empty_default {text text' : String} (h : WithEmptyDefault text text') :
    (∀ doc, ofText text = .ok doc → ofText text' = .ok (doc.redirect QName.emptied) ∧
      (ofText text' = .ok doc ↔ ∀ kind name, .named kind name ∈ doc.mentions → name.uri ≠ none)) ∧
    ∀ e, ofText text = .error e → ofText text' = .error e ∨ ∃ value, e = .unboundLabel "" value := by
  have follows : intoEmpty.Follows (·.redirect QName.emptied) (ofText text) (ofText text') := by
    have roots := ofText_shifted h
    unfold ofText
    revert roots
    generalize Element.ofText text = x, Element.ofText text' = y
    rintro (roots | e)
    · exact Comparison.ofElement_follows relates_shifted roots roots.uri_iff
    · exact .throw fun _ => rfl
  revert follows
  generalize ofText text = x, ofText text' = y
  rintro (same | same | ⟨_, colon⟩)
  · subst same
    refine ⟨?_, fun _ => nofun⟩
    rintro doc ⟨⟩
    refine ⟨rfl, ?_⟩
    rw [Except.ok.injEq]
    exact redirect_eq_self_iff.trans fixes_emptied_iff
  · refine ⟨fun _ => nofun, ?_⟩
    rintro e ⟨⟩
    exact .inl (congrArg Except.error (same trivial))
  · refine ⟨fun _ => nofun, ?_⟩
    rintro e ⟨⟩
    exact .inr colon

def itemText (declaration : String) : String :=
  "<xs:schema xmlns:xs='http://www.w3.org/2001/XMLSchema'" ++ declaration ++
    "><xs:complexType name='Item'/><xs:element name='item' type='Item'/></xs:schema>"

def itemTags : List Event :=
  [.leaf "xs:complexType".toList " name='Item'".toList, .leaf "xs:element".toList " name='item' type='Item'".toList,
    .closing "xs:schema".toList]

theorem itemText_tags :
    (Tags.ofText (itemText "").toList).events =
      .opening "xs:schema".toList " xmlns:xs='http://www.w3.org/2001/XMLSchema'".toList :: itemTags ∧
    (Tags.ofText (itemText " xmlns=''").toList).events =
      .opening "xs:schema".toList " xmlns:xs='http://www.w3.org/2001/XMLSchema' xmlns=''".toList :: itemTags ∧
    (Tags.ofText (itemText " xmlns=''").toList).complete = (Tags.ofText (itemText "").toList).complete := by
  unfold itemText itemTags
  simp only [String.toList_append]
  repeat rw [String.toList_ofList]
  decide +kernel

theorem itemText_withEmptyDefault : WithEmptyDefault (itemText "") (itemText " xmlns=''") := by
  have ⟨events, events', complete⟩ := itemText_tags
  refine ⟨_, _, _, events, events', complete, .opening _ ?_⟩
  refine ⟨[("xmlns:xs".toList, "http://www.w3.org/2001/XMLSchema".toList)], [], ?_, ?_, ?_⟩
  · decide +kernel
  · decide +kernel
  · decide +kernel

theorem itemText_mentions :
    ((ofText (itemText "")).toOption.any fun doc => doc.mentions.any fun mention =>
      match mention with
      | .named .type name => name == ⟨none, "Item"⟩
      | _ => false) = true := by
  unfold ofText Element.ofText itemText
  simp only [String.toList_append]
  repeat rw [String.toList_ofList]
  decide +kernel

theorem item_with_empty_default :
    WithEmptyDefault (itemText "") (itemText " xmlns=''") ∧
      ∃ doc, ofText (itemText "") = .ok doc ∧ .named .type ⟨none, "Item"⟩ ∈ doc.mentions ∧
        ofText (itemText " xmlns=''") = .ok (doc.redirect QName.emptied) ∧ ofText (itemText " xmlns=''") ≠ .ok doc := by
  obtain ⟨doc, read, mentioned⟩ := exists_eq_ok_of_any itemText_mentions
  obtain ⟨mention, mem, isItem⟩ := List.any_eq_true.1 mentioned
  have item : .named .type ⟨none, "Item"⟩ ∈ doc.mentions := by
    split at isItem
    · exact eq_of_beq isItem ▸ mem
    · cases isItem
  have ⟨read', unchanged⟩ := (ofText_with_empty_default itemText_withEmptyDefault).1 doc read
  exact ⟨itemText_withEmptyDefault, doc, read, item, read', fun same => unchanged.1 same _ _ item rfl⟩

end SchemaDocument

end SchemaGraph
