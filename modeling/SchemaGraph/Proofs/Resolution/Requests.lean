import SchemaGraph.Proofs.Resolution.Walk

/-! Anything can be asked of a resolver in any order, also after a fault.  Every request keeps the state
sound, leaves all entries and all global elements as they were and ends with the handle of an entry or
with a fault of the declarations or the tables. -/
namespace SchemaGraph

open Stateful

inductive Request
  | all
  | named (name : QName)
  /-- A definition at a site, declared inline in the element `context` if any.  It need not be one of the
  set's own. -/
  | definition (d : TypeDef) (site : Site) (context : Option QName)

inductive Load
  | element (name : QName)
  | type (name : QName)

def DocumentIndex.loads (doc : DocumentIndex) : List Load :=
  doc.elements.map .element ++ doc.types.map .type

def DeclarationSet.loads (s : DeclarationSet) : List Load := s.documents.flatMap (·.loads)

def ResolveContext.load (c : ResolveContext) : Load → Resolve Unit
  | .element name => c.resolveGlobal name
  | .type name => discard (c.resolveName name)

theorem resolveAll_eq_forM (c : ResolveContext) : c.resolveAll = c.set.loads.forM c.load := by
  have document (doc : DocumentIndex) : (do
      doc.elements.forM c.resolveGlobal
      doc.types.forM fun name => discard (c.resolveName name)) = doc.loads.forM c.load := by
    simp only [List.forM_eq_forM, DocumentIndex.loads, List.forM_append, List.forM_map]
    rfl
  unfold ResolveContext.resolveAll DeclarationSet.loads
  simp only [document]
  induction c.set.documents with
  | nil => rfl
  | cons doc rest ih =>
    simp only [List.forM_eq_forM] at ih ⊢
    rw [List.flatMap_cons, List.forM_cons, List.forM_append, ih]

namespace ResolveContext

def answer (c : ResolveContext) : Request → Resolve (Option TypeId)
  | .all => do
    c.resolveAll
    return none
  | .named name => some <$> c.resolveName name
  | .definition d site context => some <$> c.resolve d site context

/-- The state that a request leaves, whatever comes of it. -/
def next (c : ResolveContext) (s : ResolveState) (r : Request) : ResolveState :=
  (exec (c.answer r) s).2

def fresh (c : ResolveContext) : ResolveState := (exec c.resolvePlaceholders .empty).2

def stateAfter (c : ResolveContext) (requests : List Request) : ResolveState :=
  requests.foldl c.next c.fresh

def mentions (c : ResolveContext) : Request → List Mention
  | .all => c.set.documents.flatMap fun doc =>
      doc.elements.map (.named .element) ++ doc.types.map (.named .type)
  | .named name => [.named .type name]
  | .definition d _ context => (TypeRef.inline d).mentions context

theorem closedInward_mentions (c : ResolveContext) (r : Request) : ClosedInward (c.mentions r) := by
  cases r with
  | all =>
    exact closedInward_flatMap fun doc _ =>
      (closedInward_named _ _).append (closedInward_named _ _)
  | named name => exact TypeRef.closedInward none (.named name)
  | definition d _ context => exact TypeRef.closedInward context (.inline d)

def scope (c : ResolveContext) (r : Request) : Scope c :=
  .around c (c.mentions r) (c.closedInward_mentions r)

theorem named_mem_scope (c : ResolveContext) (name : QName) :
    Mention.named .type name ∈ (c.scope (.named name)).refs :=
  List.mem_append_left _ (List.mem_singleton.2 rfl)

end ResolveContext

structure ResolveState.Advances (s s' : ResolveState) : Prop where
  entries : s.types.entries <+: s'.types.entries
  anonymous : s.anonymous <:+ s'.anonymous
  elements : s.elements.entries <+: s'.elements.entries
  skippedHeaders : s.skippedHeaders <+: s'.skippedHeaders
  diagnostics : s.diagnostics <+: s'.diagnostics

namespace ResolveState.Advances

variable {s s' s'' : ResolveState}

theorem refl (s : ResolveState) : s.Advances s :=
  ⟨List.prefix_rfl, List.suffix_rfl, List.prefix_rfl, List.prefix_rfl, List.prefix_rfl⟩

theorem trans (h : s.Advances s') (h' : s'.Advances s'') : s.Advances s'' where
  entries := h.entries.trans h'.entries
  anonymous := h.anonymous.trans h'.anonymous
  elements := h.elements.trans h'.elements
  skippedHeaders := h.skippedHeaders.trans h'.skippedHeaders
  diagnostics := h.diagnostics.trans h'.diagnostics

theorem of_grows (h : s.Grows s.types.size s') : s.Advances s' where
  entries := by
    have kept := h.kept
    simp only [Registry.size, List.take_length] at kept
    rw [← kept]
    exact List.take_prefix _ _
  anonymous := h.anonymous
  elements := h.elements ▸ List.prefix_rfl
  skippedHeaders := h.skippedHeaders
  diagnostics := h.diagnostics

end ResolveState.Advances

/-- From `s`, `x` comes to a sound state that keeps everything in `s`, with an answer in `Q` or a fault
in `F`. -/
def Serves (c : ResolveContext) (F : ResolveError → Prop) {α : Type} (x : Resolve α)
    (s : ResolveState) (Q : α → ResolveState → Prop) : Prop :=
  Ends x s (fun a t => s.Advances t ∧ t.Sound c ∧ Q a t) fun e t => s.Advances t ∧ t.Sound c ∧ F e

section

variable {c : ResolveContext} {F : ResolveError → Prop} {α β : Type} {s : ResolveState}

theorem Serves.of_proceeds {x : Resolve α} {Q : α → ResolveState → Prop}
    (h : Proceeds c F s.types.size x s Q) : Serves c F x s Q :=
  Ends.mono h (fun _ _ ⟨hg, h⟩ => ⟨.of_grows hg, h⟩) fun _ _ ⟨hg, h⟩ => ⟨.of_grows hg, h⟩

theorem Serves.state {x : Resolve α} {Q : α → ResolveState → Prop} (h : Serves c F x s Q) :
    s.Advances (exec x s).2 ∧ (exec x s).2.Sound c :=
  Ends.left (I := fun t => s.Advances t ∧ t.Sound c)
    (Ends.mono h (fun _ _ h => ⟨h.1, h.2.1⟩) fun _ _ h => ⟨h.1, h.2.1⟩)

theorem Serves.bind {x : Resolve α} {f : α → Resolve β} {Q : α → ResolveState → Prop}
    {Q' : β → ResolveState → Prop} (hx : Serves c F x s Q)
    (hf : ∀ a t, t.Sound c → Q a t → Serves c F (f a) t Q') : Serves c F (x >>= f) s Q' := by
  unfold Serves
  rw [ends_bind]
  refine Ends.mono hx ?_ fun _ _ h => h
  rintro a t ⟨ha, ht, hq⟩
  exact Ends.mono (hf a t ht hq) (fun _ _ h => ⟨ha.trans h.1, h.2⟩)
    fun _ _ h => ⟨ha.trans h.1, h.2⟩

theorem Serves.mono {x : Resolve α} {Q Q' : α → ResolveState → Prop} (hx : Serves c F x s Q)
    (h : ∀ a t, Q a t → Q' a t) : Serves c F x s Q' :=
  Ends.mono hx (fun a t ⟨ha, ht, hq⟩ => ⟨ha, ht, h a t hq⟩) fun _ _ h => h

theorem Serves.map {x : Resolve α} {g : α → β} {Q' : β → ResolveState → Prop}
    (hx : Serves c F x s fun a => Q' (g a)) : Serves c F (g <$> x) s Q' := by
  unfold Serves
  rw [ends_map]
  exact hx

theorem Serves.forM {g : α → Resolve Unit} {l : List α} (hs : s.Sound c)
    (step : ∀ a ∈ l, ∀ t, t.Sound c → Serves c F (g a) t fun _ _ => True) :
    Serves c F (l.forM g) s fun _ _ => True := by
  refine Ends.forM (I := fun t => s.Advances t ∧ t.Sound c ∧ True) l s ⟨.refl s, hs, trivial⟩ ?_
  rintro a ha t ⟨hg, ht, -⟩
  exact Ends.mono (step a ha t ht) (fun _ _ h => ⟨hg.trans h.1, h.2⟩)
    fun _ _ h => ⟨hg.trans h.1, h.2⟩

variable {S : Scope c} (hF : S.Allows F)
include hF

theorem resolveName_serves {name : QName} (hs : s.Sound c)
    (hm : Mention.named .type name ∈ S.refs) :
    Serves c F (c.resolveName name) s fun id t => t.types.Has id :=
  .of_proceeds (S.resolveNamed_proceeds hF (S.resolve_answers hF _) ⟨Nat.le_refl _, hs, Nat.le_refl _⟩ hm)

theorem resolveGlobal_serves {name : QName} (hs : s.Sound c)
    (hm : Mention.named .element name ∈ S.refs) :
    Serves c F (c.resolveGlobal name) s fun _ _ => True := by
  unfold ResolveContext.resolveGlobal
  refine Serves.bind (Q := fun d t => t = s ∧ c.set.element? name = some d) (.of_proceeds ?_) ?_
  · exact Proceeds.ofExcept hs
      ((DeclarationSet.element_settles hm).mono (fun _ h => ⟨rfl, h⟩) hF.lost)
  rintro decl s - ⟨rfl, hd⟩
  have ready : S.Ready (S.left s) s.types.size s := ⟨Nat.le_refl _, hs, Nat.le_refl _⟩
  have added : Proceeds c F s.types.size
      (addElement c c.resolve s.elements decl ⟨.element name, []⟩ decl.occurs "(global)") s _ :=
    S.addElement_proceeds hF (S.resolve_answers hF _) ready hs.covers
      (List.Subset.trans (DeclarationSet.mentions_of_element? hd) S.declared)
  unfold Serves
  rw [ends_bind, ends_get, ends_bind]
  refine added.mono ?_ fun _ _ ⟨hg, h⟩ => ⟨.of_grows hg, h⟩
  rintro ⟨elements, key⟩ t ⟨hg, ht, hc, hp⟩
  rw [ends_modify]
  refine ⟨{ ResolveState.Advances.of_grows hg with elements := hp }, ?_, trivial⟩
  exact ⟨ht.closed, hc, ht.named, ht.anonymous, ht.sites⟩

end

namespace ResolveContext

variable {c : ResolveContext} {F : ResolveError → Prop} {s : ResolveState}

theorem load_serves {a : Load} (hF : (c.scope .all).Allows F) (listed : a ∈ c.set.loads) (hs : s.Sound c) :
    Serves c F (c.load a) s fun _ _ => True := by
  obtain ⟨doc, hdoc, ha⟩ := List.mem_flatMap.1 listed
  have mentioned {m : Mention} (hm : m ∈ doc.elements.map (.named .element) ++ doc.types.map (.named .type)) :
      m ∈ (c.scope .all).refs := List.mem_append_left _ (List.mem_flatMap.2 ⟨doc, hdoc, hm⟩)
  unfold DocumentIndex.loads at ha
  cases a with
  | element name => exact resolveGlobal_serves hF hs (mentioned (by simpa using ha))
  | type name =>
    exact Serves.map ((resolveName_serves hF hs (mentioned (by simpa using ha))).mono fun _ _ _ => trivial)

theorem resolveAll_serves (hF : (c.scope .all).Allows F) (hs : s.Sound c) :
    Serves c F c.resolveAll s fun _ _ => True := by
  rw [resolveAll_eq_forM]
  exact Serves.forM hs fun a listed t ht => load_serves hF listed ht

theorem answer_serves (r : Request) (hF : (c.scope r).Allows F) (hs : s.Sound c) :
    Serves c F (c.answer r) s fun answer t => ∀ id, answer = some id → t.types.Has id := by
  cases r with
  | all =>
    refine Serves.bind (resolveAll_serves hF hs) fun _ t ht _ => .of_proceeds (Proceeds.pure ht ?_)
    rintro _ ⟨⟩
  | named name =>
    refine Serves.map ((resolveName_serves hF hs (c.named_mem_scope name)).mono ?_)
    rintro id t hid _ ⟨⟩
    exact hid
  | definition d site context =>
    have hd : (c.scope (.definition d site context)).Holds d context :=
      .inr (List.mem_append_left _ (List.mem_cons_self ..))
    refine Serves.map ((Serves.of_proceeds (Scope.resolve_answers hF _ d site context
      ⟨Nat.le_refl _, hs, Nat.le_refl _⟩ hd)).mono ?_)
    rintro id t hid _ ⟨⟩
    exact hid

theorem next_keeps (c : ResolveContext) (r : Request) (hs : s.Sound c) :
    s.Advances (c.next s r) ∧ (c.next s r).Sound c :=
  (answer_serves r (Scope.allows_ofInput _) hs).state

theorem keeps_of_exec {r : Request} {answer : Except ResolveError (Option TypeId)} {t : ResolveState}
    (h : exec (c.answer r) s = (answer, t)) (hs : s.Sound c) : s.Advances t ∧ t.Sound c := by
  have keeps := c.next_keeps r hs
  rwa [next, h] at keeps

theorem resolvePlaceholders_serves (hs : s.Sound c) :
    Serves c ResolveError.OfInput c.resolvePlaceholders s fun _ _ => True := by
  refine Serves.forM hs fun p _ t ht => Serves.map ?_
  exact (resolveName_serves (Scope.allows_ofInput _) ht (c.named_mem_scope _)).mono
    fun _ _ _ => trivial

theorem sound_fresh (c : ResolveContext) : c.fresh.Sound c :=
  (resolvePlaceholders_serves (.empty c)).state.2

theorem foldl_next_keeps (requests : List Request) (hs : s.Sound c) :
    s.Advances (requests.foldl c.next s) ∧ (requests.foldl c.next s).Sound c := by
  induction requests generalizing s with
  | nil => exact ⟨.refl s, hs⟩
  | cons r rest ih =>
    have first := c.next_keeps r hs
    have later := ih first.2
    exact ⟨first.1.trans later.1, later.2⟩

theorem sound_stateAfter (c : ResolveContext) (requests : List Request) :
    (c.stateAfter requests).Sound c :=
  (foldl_next_keeps requests c.sound_fresh).2

theorem advances_stateAfter {before later : List Request} {r : Request} {answer : Except ResolveError (Option TypeId)}
    {t : ResolveState} (h : exec (c.answer r) (c.stateAfter before) = (answer, t)) :
    t.Advances (c.stateAfter (before ++ r :: later)) := by
  have last : c.next (c.stateAfter before) r = t := congrArg Prod.snd h
  rw [stateAfter, List.foldl_append, List.foldl_cons, ← stateAfter, last]
  exact (foldl_next_keeps later (keeps_of_exec h (sound_stateAfter c before)).2).1

end ResolveContext

end SchemaGraph
