import SchemaGraph.Proofs.Resolution.Handles
import SchemaGraph.Proofs.Resolution.Leaves
import SchemaGraph.Proofs.Resolution.Views

/-! One walk through resolution for all that holds of every state on the way.  A scope is a range of
mentions that resolution does not leave.  Whatever is asked for within it keeps the state sound, changes
no entry that was there before, meets no faults but those that the scope allows and enters no keys but
those of the scope, so that the bound on open types is never reached. -/
namespace SchemaGraph

open Stateful

/-- From `s`, `x` comes to a sound state that keeps the first `n` entries, with an answer in `Q` or a
fault in `F`. -/
def Proceeds (c : ResolveContext) (F : ResolveError → Prop) (n : Nat) {α : Type} (x : Resolve α)
    (s : ResolveState) (Q : α → ResolveState → Prop) : Prop :=
  Ends x s (fun a t => s.Grows n t ∧ t.Sound c ∧ Q a t) fun e t => s.Grows n t ∧ t.Sound c ∧ F e

namespace Proceeds

variable {c : ResolveContext} {F : ResolveError → Prop} {n : Nat} {α β : Type} {s : ResolveState}
  {x : Resolve α} {f : α → Resolve β} {Q Q' : α → ResolveState → Prop}

theorem pure {a : α} (hs : s.Sound c) (hq : Q a s) : Proceeds c F n (pure a) s Q :=
  ⟨.refl n s, hs, hq⟩

theorem throw {e : ResolveError} (hs : s.Sound c) (he : F e) : Proceeds c F n (throw e) s Q :=
  ⟨.refl n s, hs, he⟩

theorem throw_bind {e : ResolveError} {Q' : β → ResolveState → Prop} (hs : s.Sound c) (he : F e) :
    Proceeds c F n (MonadExcept.throw e >>= f) s Q' :=
  ⟨.refl n s, hs, he⟩

theorem bind {Q' : β → ResolveState → Prop} (hx : Proceeds c F n x s Q)
    (hf : ∀ a t, s.Grows n t → t.Sound c → Q a t → Proceeds c F n (f a) t Q') :
    Proceeds c F n (x >>= f) s Q' := by
  unfold Proceeds
  rw [ends_bind]
  refine Ends.mono hx ?_ fun _ _ h => h
  rintro a t ⟨hg, ht, hq⟩
  exact (hf a t hg ht hq).mono (fun _ _ h => ⟨hg.trans h.1, h.2⟩) fun _ _ h => ⟨hg.trans h.1, h.2⟩

theorem weaken (hx : Proceeds c F n x s Q)
    (h : ∀ a t, s.Grows n t → t.Sound c → Q a t → Q' a t) : Proceeds c F n x s Q' :=
  Ends.mono hx (fun a t ⟨hg, ht, hq⟩ => ⟨hg, ht, h a t hg ht hq⟩) fun _ _ h => h

theorem map {g : α → β} {Q' : β → ResolveState → Prop}
    (hx : Proceeds c F n x s fun a => Q' (g a)) : Proceeds c F n (g <$> x) s Q' := by
  unfold Proceeds
  rw [ends_map]
  exact hx

theorem ofExcept {r : Except ResolveError α} (hs : s.Sound c) (hr : Settles r (Q · s) F) :
    Proceeds c F n (ofExcept r) s Q := by
  unfold Proceeds
  rw [ends_ofExcept]
  exact hr.mono (fun _ ha => ⟨.refl n s, hs, ha⟩) fun _ he => ⟨.refl n s, hs, he⟩

theorem bind_get {f : ResolveState → Resolve β} {Q' : β → ResolveState → Prop}
    (hf : Proceeds c F n (f s) s Q') : Proceeds c F n (get >>= f) s Q' := by
  unfold Proceeds
  rw [ends_bind]
  exact hf

theorem modify {g : ResolveState → ResolveState} (hg : s.Grows n (g s)) (ht : (g s).Sound c)
    {Q : Unit → ResolveState → Prop} (hq : Q () (g s)) : Proceeds c F n (modify g) s Q :=
  ⟨hg, ht, hq⟩

theorem foldlM {g : β → α → Resolve β} {I : β → ResolveState → Prop} {l : List α} {b : β}
    (hs : s.Sound c) (hb : I b s)
    (step : ∀ a ∈ l, ∀ b t, s.Grows n t → t.Sound c → I b t → Proceeds c F n (g b a) t I) :
    Proceeds c F n (l.foldlM g b) s I := by
  refine Ends.foldlM (I := fun b t => s.Grows n t ∧ t.Sound c ∧ I b t) l b s ⟨.refl n s, hs, hb⟩ ?_
  rintro a ha b t ⟨hg, ht, hi⟩
  exact (step a ha b t hg ht hi).mono (fun _ _ h => ⟨hg.trans h.1, h.2⟩)
    fun _ _ h => ⟨hg.trans h.1, h.2⟩

theorem forM {g : α → Resolve Unit} {I : ResolveState → Prop} {l : List α} (hs : s.Sound c)
    (hi : I s) (step : ∀ a ∈ l, ∀ t, s.Grows n t → t.Sound c → I t →
      Proceeds c F n (g a) t fun _ => I) :
    Proceeds c F n (l.forM g) s fun _ => I := by
  refine Ends.forM (I := fun t => s.Grows n t ∧ t.Sound c ∧ I t) l s ⟨.refl n s, hs, hi⟩ ?_
  rintro a ha t ⟨hg, ht, hi⟩
  exact (step a ha t hg ht hi).mono (fun _ _ h => ⟨hg.trans h.1, h.2⟩)
    fun _ _ h => ⟨hg.trans h.1, h.2⟩

end Proceeds

def ResolveError.OfContent : ResolveError → Prop
  | .unresolvedType _ _ | .missingAnonymousContext | .missingChoiceGroup _ _
  | .mixedChoiceContent _ | .expansionCollision _ _ _ | .anonymousTypeCollision _ _ => True
  | .set _ | .foreignType _ | .duplicateType _ | .unknownHeader _ _ | .unbounded | .unknownHandle _ => False

/-- The key of the entry that an inline definition gets if it gets one. -/
def Mention.key? : Mention → Option String
  | .named _ _ => none
  | .inline d context =>
    match d.name, context with
    | some name, _ => some name.clark
    | none, some element => some (element.localName ++ "AnonType")
    | none, none => none

def ResolveError.OfInput : ResolveError → Prop
  | .duplicateType _ | .unknownHeader _ _ | .unbounded | .unknownHandle _ => False
  | .set _ | .unresolvedType _ _ | .foreignType _ | .missingAnonymousContext
  | .missingChoiceGroup _ _ | .mixedChoiceContent _ | .expansionCollision _ _ _
  | .anonymousTypeCollision _ _ => True

/-- A range of mentions that resolution does not leave. -/
structure Scope (c : ResolveContext) where
  refs : List Mention
  declared : c.set.mentions ⊆ refs
  inward : ClosedInward refs

namespace Scope

variable {c : ResolveContext}

def around (c : ResolveContext) (refs : List Mention) (h : ClosedInward refs) : Scope c where
  refs := refs ++ c.set.mentions
  declared := List.subset_append_right _ _
  inward := h.append c.set.closedInward

variable (S : Scope c)

def Holds (d : TypeDef) (context : Option QName) : Prop :=
  ((∃ name, c.set.type? name = some d) ∧ context = none) ∨ Mention.inline d context ∈ S.refs

/-- The keys that can be entered. -/
def keys : List String :=
  builtinNames.map (fun name => (QName.xsd name).clark) ++
    c.set.types.values.filterMap (fun d => d.name.map QName.clark) ++ S.refs.filterMap Mention.key?

def left (s : ResolveState) : Nat := unvisited S.keys (s.types.entries.map TypeEntry.key)

/-- What a fault in the range can be.  Members of substitution groups and subtypes come from tables of
names that an arbitrary context can fill with anything. -/
structure Allows (F : ResolveError → Prop) : Prop where
  content : ∀ e, e.OfContent → F e
  foreign : ∀ d context name, S.Holds d context → d.name = some name → c.isKnown name = false → d.isSimple = false →
    F (.foreignType name)
  lost : ∀ e, c.set.Lost S.refs e → F e
  member : ∀ head name owner, name ∈ c.set.substitutes head → c.set.element? name = none →
    F (.dangling .element name owner)
  subtype : ∀ base name owner, name ∈ c.hierarchy.descendants base → c.set.type? name = none →
    F (.dangling .type name owner)

theorem allows_ofInput (S : Scope c) : S.Allows ResolveError.OfInput where
  content := by
    intro e he
    cases e <;> trivial
  foreign := fun _ _ _ _ _ _ _ => trivial
  lost := by
    rintro e (⟨path, rfl⟩ | ⟨kind, name, context, rfl, -⟩) <;> trivial
  member := fun _ _ _ _ _ => trivial
  subtype := fun _ _ _ _ _ => trivial

theorem Allows.mono {S S' : Scope c} {F : ResolveError → Prop} (h : S.Allows F)
    (hr : ∀ kind name, Mention.named kind name ∈ S'.refs → Mention.named kind name ∈ S.refs)
    (hd : ∀ d context, S'.Holds d context → S.Holds d context) : S'.Allows F :=
  { h with
    foreign := fun d context name holds => h.foreign d context name (hd d context holds)
    lost := fun e he => h.lost e (he.mono hr) }

variable {S}

theorem Holds.mentions {d : TypeDef} {context : Option QName} (h : S.Holds d context) :
    d.mentions ⊆ S.refs := by
  rcases h with ⟨⟨name, h⟩, -⟩ | h
  · exact List.Subset.trans (DeclarationSet.mentions_of_type? h) S.declared
  · exact S.inward d context h

theorem holds_of_type? {name : QName} {d : TypeDef} (h : c.set.type? name = some d) :
    S.Holds d none := .inl ⟨⟨name, h⟩, rfl⟩

theorem mem_keys_builtin {name : String} (h : name ∈ builtinNames) :
    (QName.xsd name).clark ∈ S.keys :=
  List.mem_append_left _ (List.mem_append_left _ (List.mem_map_of_mem h))

theorem mem_keys_inline {m : Mention} {key : String} (h : m ∈ S.refs) (hk : m.key? = some key) :
    key ∈ S.keys :=
  List.mem_append_right _ (List.mem_filterMap.2 ⟨m, h, hk⟩)

theorem Holds.mem_keys {d : TypeDef} {context : Option QName} {name : QName} (h : S.Holds d context)
    (hname : d.name = some name) : name.clark ∈ S.keys := by
  rcases h with ⟨⟨source, h⟩, -⟩ | h
  · unfold DeclarationSet.type? at h
    cases ht : c.set.types.get? source with
    | some d' =>
      rw [ht] at h
      cases h
      have hd : d ∈ c.set.types.values := (OrderedMap.mem_values_iff _ _).2 ⟨source, ht⟩
      refine List.mem_append_left _ (List.mem_append_right _ ?_)
      exact List.mem_filterMap.2 ⟨d, hd, by simp [hname]⟩
    | none =>
      rw [ht] at h
      have own : d.name = some source := name_builtinType? h
      obtain ⟨localName, hl, hx⟩ := List.mem_map.1 (DeclarationSet.mem_builtinNames_of_builtinType? h)
      obtain rfl : source = name := Option.some.inj (own.symm.trans hname)
      rw [← hx]
      exact mem_keys_builtin hl
  · exact mem_keys_inline h (by simp [Mention.key?, hname])

theorem Holds.mem_keys_inline {d : TypeDef} {element : QName} (h : S.Holds d (some element))
    (hname : d.name = none) : element.localName ++ "AnonType" ∈ S.keys := by
  rcases h with ⟨-, h⟩ | h
  · cases h
  · exact Scope.mem_keys_inline h (by simp [Mention.key?, hname])

theorem left_le_length (S : Scope c) (s : ResolveState) : S.left s ≤ S.keys.length :=
  unvisited_le_length _ _

theorem left_mono {n : Nat} {s t : ResolveState} (h : s.Grows n t) : S.left t ≤ S.left s :=
  unvisitedSize_le _ _ h.keys_subset

theorem left_lt {n : Nat} {s t : ResolveState} {key : String} (h : s.Grows n t) (hk : key ∈ S.keys)
    (hs : s.types.lookup key = none) (ht : (t.types.lookup key).isSome) : S.left t < S.left s := by
  have gone : key ∉ s.types.entries.map TypeEntry.key := Registry.lookup_eq_none_iff.1 hs
  exact unvisited_lt h.keys_subset hk gone (Registry.isSome_lookup_iff.1 ht)

end Scope

end SchemaGraph
