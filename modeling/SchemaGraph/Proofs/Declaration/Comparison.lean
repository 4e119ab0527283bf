import Mathlib.Data.List.Forall2
import SchemaGraph.Declaration.Reading
import SchemaGraph.Proofs.Declaration.Redirect

/-! What two readings are compared by.  A comparison says what becomes of a name that is referred to, whether faults are
the same, and after which faults nothing is said.  `Follows` compares two outcomes and `Heads` two elements, in the
tags, which show in faults only, in the attributes and in the names that these stand for.  Annotations say nothing,
so that they may stand on one side only: `Beside` compares lists without them. -/
namespace SchemaGraph

open Markup (Element)

def nameKeys : List String := ["type", "ref", "base", "itemType", "substitutionGroup"]

def Unlabelled (key : String) : Prop := ':' ∉ key.toList

instance (key : String) : Decidable (Unlabelled key) := inferInstanceAs (Decidable (_ ∉ _))

def Markup.Element.isNote (e : Element) : Bool := e.localName == "annotation" && (e.attr? "base").isNone

theorem Markup.Element.localName_of_isNote {e : Element} (note : e.isNote) : e.localName = "annotation" := by
  unfold isNote at note
  rw [Bool.and_eq_true, beq_iff_eq] at note
  exact note.1

theorem Markup.Element.base_of_isNote {e : Element} (note : e.isNote) : e.attr? "base" = none := by
  unfold isNote at note
  rw [Bool.and_eq_true, Option.isNone_iff_eq_none] at note
  exact note.2

def readMinOccurs (e : Element) : Except DocumentError Nat :=
  match e.attr? "minOccurs" with
  | none => .ok 1
  | some s =>
    match readCount s with
    | some n => .ok n
    | none => .error (.invalidAttribute e.tag "minOccurs" s)

def readMaxOccurs (e : Element) : Except DocumentError MaxOccurs :=
  match e.attr? "maxOccurs" with
  | none => .ok (.bounded 1)
  | some s =>
    if s = "unbounded" then .ok .unbounded
    else
      match readCount s with
      | some n => .ok (.bounded n)
      | none => .error (.invalidAttribute e.tag "maxOccurs" s)

theorem readOccurs_eq (e : Element) :
    readOccurs e = readMinOccurs e >>= fun min => readMaxOccurs e >>= fun max => pure ⟨min, max⟩ := by
  unfold readOccurs readMinOccurs readMaxOccurs
  generalize e.attr? "minOccurs" = min?, e.attr? "maxOccurs" = max?
  rcases min? with _ | s
  · rcases max? with _ | t
    · rfl
    · dsimp only
      split
      · rfl
      · cases readCount t <;> rfl
  · dsimp only
    cases readCount s with
    | none => rfl
    | some n =>
      rcases max? with _ | t
      · rfl
      · dsimp only
        split
        · rfl
        · cases readCount t <;> rfl

/-- Two lists that correspond item by item once the notes in both are left out. -/
inductive Beside {α β : Type} (note : α → Prop) (note' : β → Prop) (R : α → β → Prop) : List α → List β → Prop
  | nil : Beside note note' R [] []
  | left {a : α} {l : List α} {l' : List β} : note a → Beside note note' R l l' → Beside note note' R (a :: l) l'
  | right {b : β} {l : List α} {l' : List β} : note' b → Beside note note' R l l' → Beside note note' R l (b :: l')
  | both {a : α} {b : β} {l : List α} {l' : List β} :
    R a b → Beside note note' R l l' → Beside note note' R (a :: l) (b :: l')

namespace Beside

variable {α β γ δ : Type} {note : α → Prop} {note' : β → Prop} {R : α → β → Prop} {l : List α} {l' : List β}

theorem of_forall₂ (h : List.Forall₂ R l l') : Beside note note' R l l' := by
  induction h with
  | nil => exact .nil
  | cons h _ ih => exact .both h ih

theorem mono {S : α → β → Prop} (h : Beside note note' R l l') (le : ∀ a b, R a b → S a b) :
    Beside note note' S l l' := by
  induction h with
  | nil => exact .nil
  | left hn _ ih => exact .left hn ih
  | right hn _ ih => exact .right hn ih
  | both hR _ ih => exact .both (le _ _ hR) ih

theorem filter {p : α → Bool} {p' : β → Bool} (h : Beside note note' R l l') (left : ∀ a, note a → p a = false)
    (right : ∀ b, note' b → p' b = false) (both : ∀ a b, R a b → p' b = p a) :
    List.Forall₂ R (l.filter p) (l'.filter p') := by
  induction h with
  | nil => exact .nil
  | left hn _ ih =>
    rw [List.filter_cons_of_neg (by rw [left _ hn]; decide)]
    exact ih
  | right hn _ ih =>
    rw [List.filter_cons_of_neg (by rw [right _ hn]; decide)]
    exact ih
  | @both a b l l' hR _ ih =>
    rw [List.filter_cons, List.filter_cons, both a b hR]
    split
    · exact .cons hR ih
    · exact ih

theorem findSome? {S : γ → δ → Prop} {g : α → Option γ} {g' : β → Option δ} (h : Beside note note' R l l')
    (left : ∀ a, note a → g a = none) (right : ∀ b, note' b → g' b = none)
    (both : ∀ a b, R a b → Option.Rel S (g a) (g' b)) : Option.Rel S (l.findSome? g) (l'.findSome? g') := by
  induction h with
  | nil => exact .none
  | left hn _ ih =>
    rw [List.findSome?_cons, left _ hn]
    exact ih
  | right hn _ ih =>
    rw [List.findSome?_cons, right _ hn]
    exact ih
  | both hR _ ih =>
    rw [List.findSome?_cons, List.findSome?_cons]
    have first := both _ _ hR
    revert first
    generalize g _ = x, g' _ = y
    rintro (hS | _)
    · exact .some hS
    · exact ih

theorem find? {p : α → Bool} {p' : β → Bool} (h : Beside note note' R l l') (left : ∀ a, note a → p a = false)
    (right : ∀ b, note' b → p' b = false) (both : ∀ a b, R a b → p' b = p a) :
    Option.Rel R (l.find? p) (l'.find? p') := by
  rw [← List.head?_filter, ← List.head?_filter]
  have all := h.filter left right both
  revert all
  generalize l.filter p = l, l'.filter p' = l'
  rintro (_ | ⟨hR, _⟩)
  · exact .none
  · exact .some hR

end Beside

structure Comparison where
  /-- What becomes of a name that is referred to. -/
  move : QName → QName
  /-- Whether the second reading has the same faults as the first. -/
  exact : Prop
  /-- Faults of the first reading after which nothing is said about the second. -/
  excused : DocumentError → Prop

namespace Comparison

variable {c : Comparison} {α β α' β' : Type}

/-- The second outcome is what becomes of the first by `f`. -/
inductive Follows (c : Comparison) (f : α → α') : Except DocumentError α → Except DocumentError α' → Prop
  | answer {a : α} {b : α'} : b = f a → Follows c f (.ok a) (.ok b)
  | throw {e e' : DocumentError} : (c.exact → e' = e) → Follows c f (.error e) (.error e')
  | excuse {e : DocumentError} (y : Except DocumentError α') : c.excused e → Follows c f (.error e) y

namespace Follows

variable {f : α → α'} {g : β → β'} {x : Except DocumentError α} {y : Except DocumentError α'}

theorem pure (a : α) : c.Follows f (.ok a) (.ok (f a)) := .answer rfl

theorem bind {k : α → Except DocumentError β} {k' : α' → Except DocumentError β'} (h : c.Follows f x y)
    (rest : ∀ a, c.Follows g (k a) (k' (f a))) : c.Follows g (x >>= k) (y >>= k') := by
  cases h with
  | answer same =>
    subst same
    exact rest _
  | throw same => exact .throw same
  | excuse y h => exact .excuse _ h

theorem map {k : α → β} {k' : α' → β'} (h : c.Follows f x y) (same : ∀ a, k' (f a) = g (k a)) :
    c.Follows g (k <$> x) (k' <$> y) := by
  rw [map_eq_pure_bind, map_eq_pure_bind]
  exact h.bind fun a => same a ▸ pure (k a)

theorem foldlM {R : α → β → Prop} {note : α → Prop} {note' : β → Prop} {step : α' → α → Except DocumentError α'}
    {step' : β' → β → Except DocumentError β'} {f : α' → β'} {l : List α} {l' : List β}
    (h : Beside note note' R l l') (silent : ∀ a, note a → ∀ s, step s a = .ok s)
    (silent' : ∀ b, note' b → ∀ s, step' s b = .ok s)
    (both : ∀ a b, R a b → ∀ s, c.Follows f (step s a) (step' (f s) b)) :
    ∀ s, c.Follows f (l.foldlM step s) (l'.foldlM step' (f s)) := by
  induction h with
  | nil => exact fun s => pure s
  | left hn _ ih =>
    intro s
    rw [List.foldlM_cons, silent _ hn]
    exact ih s
  | right hn _ ih =>
    intro s
    rw [List.foldlM_cons, silent' _ hn]
    exact ih s
  | both hR _ ih =>
    intro s
    rw [List.foldlM_cons, List.foldlM_cons]
    exact (both _ _ hR s).bind ih

theorem mapM {R : α → β → Prop} {g : α → Except DocumentError α'} {g' : β → Except DocumentError α'} {l : List α}
    {l' : List β} (h : List.Forall₂ R l l') (both : ∀ a b, R a b → c.Follows id (g a) (g' b)) :
    c.Follows id (l.mapM g) (l'.mapM g') := by
  induction h with
  | nil => exact pure []
  | cons hR _ ih =>
    rw [List.mapM_cons, List.mapM_cons]
    exact (both _ _ hR).bind fun a => ih.bind fun as => pure (a :: as)

theorem collect_cons {step : α → Except DocumentError (Option β)} {a : α} {l : List α} :
    List.filterMap id <$> (a :: l).mapM step =
      step a >>= fun b => (List.filterMap id <$> l.mapM step) >>= fun bs => Pure.pure (b.toList ++ bs) := by
  rw [List.mapM_cons]
  cases step a with
  | error e => rfl
  | ok b =>
    cases l.mapM step with
    | error e => rfl
    | ok bs => cases b <;> rfl

theorem collect {R : α → β → Prop} {note : α → Prop} {note' : β → Prop} {step : α → Except DocumentError (Option α')}
    {step' : β → Except DocumentError (Option β')} {f : α' → β'} {l : List α} {l' : List β}
    (h : Beside note note' R l l') (silent : ∀ a, note a → step a = .ok none)
    (silent' : ∀ b, note' b → step' b = .ok none)
    (both : ∀ a b, R a b → c.Follows (Option.map f) (step a) (step' b)) :
    c.Follows (List.map f) (List.filterMap id <$> l.mapM step) (List.filterMap id <$> l'.mapM step') := by
  induction h with
  | nil => exact pure []
  | @left a l l' hn _ ih =>
    rw [collect_cons, silent a hn]
    change c.Follows _ ((List.filterMap id <$> l.mapM step) >>= Pure.pure) _
    rw [bind_pure]
    exact ih
  | @right b l l' hn _ ih =>
    rw [collect_cons, silent' b hn]
    change c.Follows _ _ ((List.filterMap id <$> l'.mapM step') >>= Pure.pure)
    rw [bind_pure]
    exact ih
  | both hR _ ih =>
    rw [collect_cons, collect_cons]
    refine (both _ _ hR).bind fun o => ih.bind fun os => ?_
    have same : (o.map f).toList ++ os.map f = (o.toList ++ os).map f := by cases o <;> rfl
    rw [same]
    exact pure _

end Follows

structure Heads (c : Comparison) (a b : Element) : Prop where
  localName : b.localName = a.localName
  attr? : ∀ key, Unlabelled key → key ∉ nameKeys → b.attr? key = a.attr? key
  qname? : ∀ key ∈ nameKeys, c.Follows (Option.map c.move) (a.qname? key) (b.qname? key)
  tag : c.exact → b.tag = a.tag

namespace Heads

variable {a b : Element} {key : String}

theorem attr (h : c.Heads a b) (unlabelled : Unlabelled key) (other : key ∉ nameKeys) :
    c.Follows id (a.attr key) (b.attr key) := by
  unfold Element.attr
  rw [h.attr? key unlabelled other]
  cases a.attr? key with
  | some value => exact .pure value
  | none => exact .throw fun exact => by rw [h.tag exact]

theorem name (h : c.Heads a b) : c.Follows id (a.attr "name") (b.attr "name") := h.attr (by decide) (by decide)

theorem qname (h : c.Heads a b) (mem : key ∈ nameKeys) : c.Follows c.move (a.qname key) (b.qname key) := by
  unfold Element.qname
  refine (h.qname? key mem).bind fun name => ?_
  cases name with
  | some name => exact .pure name
  | none => exact .throw fun exact => by rw [h.tag exact]

theorem readOccurs (h : c.Heads a b) : c.Follows id (readOccurs a) (readOccurs b) := by
  have lower : c.Follows id (readMinOccurs a) (readMinOccurs b) := by
    unfold readMinOccurs
    rw [h.attr? "minOccurs" (by decide) (by decide)]
    split
    · exact .pure _
    split
    · exact .pure _
    · exact .throw fun exact => by rw [h.tag exact]
  have upper : c.Follows id (readMaxOccurs a) (readMaxOccurs b) := by
    unfold readMaxOccurs
    rw [h.attr? "maxOccurs" (by decide) (by decide)]
    split
    · exact .pure _
    split
    · exact .pure _
    split
    · exact .pure _
    · exact .throw fun exact => by rw [h.tag exact]
  rw [readOccurs_eq, readOccurs_eq]
  exact lower.bind fun min => upper.bind fun max => .pure _

theorem readFlag (h : c.Heads a b) (unlabelled : Unlabelled key) (other : key ∉ nameKeys) :
    c.Follows id (readFlag a key) (readFlag b key) := by
  unfold SchemaGraph.readFlag
  rw [h.attr? key unlabelled other]
  split
  · exact .pure _
  · exact .pure _
  · exact .pure _
  · exact .pure _
  · exact .pure _
  · exact .throw fun exact => by rw [h.tag exact]

end Heads

end Comparison

end SchemaGraph
