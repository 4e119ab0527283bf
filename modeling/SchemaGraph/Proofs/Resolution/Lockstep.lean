import Mathlib.Logic.Relation
import SchemaGraph.Proofs.Resolution.Likeness

/-! Two fillings of one definition side by side.  They ask for the same types in the same order, and as long as
like handles are answered they leave like entries. -/
namespace SchemaGraph

open Stateful ResolveState

namespace DeclarationSet

def simpleParts (s : DeclarationSet) (d : TypeDef) : List TypeDef :=
  let definition : TypeRef → Option TypeDef
    | .named name => s.type? name
    | .inline d => some d
    | .unspecified => none
  (match s.inheritedAttributes [] d with
    | .ok l => l.attributes.filterMap fun a => definition a.2
    | .error _ => []) ++
  match s.classify [] d with
  | .ok x => (x.listItem.bind s.type?).toList
  | .error _ => []

theorem mem_simpleParts_of_attribute {s : DeclarationSet} {d d' : TypeDef} {list : AttributeList}
    {entry : String × TypeRef} (hlist : s.inheritedAttributes [] d = .ok list) (hentry : entry ∈ list.attributes)
    (h : (match entry.2 with
      | .named name => s.type? name
      | .inline d => some d
      | .unspecified => none) = some d') : d' ∈ s.simpleParts d := by
  unfold simpleParts
  rw [hlist]
  exact List.mem_append_left _ (List.mem_filterMap.2 ⟨_, hentry, h⟩)

/-- Filling the type opens simple types only. -/
def LeadsToSimple (s : DeclarationSet) (d : TypeDef) : Prop :=
  ∀ d', Relation.ReflTransGen (fun a b => b ∈ s.simpleParts a) d d' → d'.isSimple = true

variable {s : DeclarationSet} {d d' : TypeDef}

theorem LeadsToSimple.isSimple (h : s.LeadsToSimple d) : d.isSimple = true := h d .refl

theorem LeadsToSimple.part (h : s.LeadsToSimple d) (part : d' ∈ s.simpleParts d) : s.LeadsToSimple d' :=
  fun e he => h e (.head part he)

/-- The element is one of the set's own and stands at the site. -/
def StandsElement (s : DeclarationSet) (decl : ElementDecl) (site : Site) : Prop :=
  decl.mentions ⊆ s.mentions ∧ s.particleAt site = some (.element decl)

theorem StandsElement.stands {decl : ElementDecl} {site : Site} (h : s.StandsElement decl site)
    (inline : decl.typeRef = .inline d) : s.Stands d site (some decl.name) := by
  obtain ⟨name, typeRef, occurs, isAbstract, head⟩ := decl
  obtain rfl : typeRef = .inline d := inline
  refine .inline (h.1 ?_) ?_
  · simp [ElementDecl.mentions, TypeRef.mentions]
  · rw [inlineAt, h.2]
    rfl

theorem stands_of_attribute {site : Site} {list : AttributeList} {name : String} {e : TypeDef}
    (mentioned : d.mentions ⊆ s.mentions) (hlist : s.inheritedAttributes [] d = .ok list)
    (listed : (name, .inline e) ∈ list.attributes) : s.Stands e site none :=
  .bare ((inheritedAttributes_settles (List.Subset.refl _) [] d mentioned).answer hlist _ listed
    (by simp [TypeRef.mentions]))

theorem standsElement_of_layout {site : Site} {x : ComplexDef} {key : String} {layout : Layout} {decl : ElementDecl}
    {place : Site} {occurs : Occurs} (mentioned : d.mentions ⊆ s.mentions)
    (there : s.groupAt site.owner site.path = d.group?) (hx : d.complex? = some x)
    (hlayout : s.layout key [] site x = .ok layout) (leaf : Leaf.element decl place occurs ∈ layout.leaves) :
    s.StandsElement decl place := by
  have within := (layout_settles (.of_mentions (List.Subset.refl _)) key [] site x
    (by rwa [← TypeDef.mentions_of_complex? hx])).answer hlayout
  have placed := (s.layout_placed key [] site d x hx there).answer hlayout
  exact ⟨within decl place occurs leaf, placed decl place occurs leaf⟩

theorem standsElement_of_element? {decl : ElementDecl} {name : QName} (h : s.element? name = some decl) :
    s.StandsElement decl ⟨.element name, []⟩ :=
  ⟨mentions_of_element? h, by rw [particleAt, h]; rfl⟩

end DeclarationSet

namespace ResolveState

/-- The definition can be resolved from here: it will not be asked of an abstract type that is still being
filled whether it is simple. -/
structure ReadyFor (c : ResolveContext) (s : ResolveState) (d : TypeDef) : Prop where
  traced : s.Traced c
  telling : s.Definite c ∨ c.set.LeadsToSimple d

variable {c : ResolveContext} {s t : ResolveState} {id : TypeId} {d : TypeDef} {site : Site}

theorem ReadyFor.definite (h : s.ReadyFor c d) (complex : d.isSimple = false) : s.Definite c :=
  h.telling.resolve_right fun h => by cases complex.symm.trans h.isSimple

theorem Owned.mentions (h : s.Owned c id d site) : d.mentions ⊆ c.set.mentions := by
  cases h with
  | named declared _ _ => exact DeclarationSet.mentions_of_type? declared
  | inline mentioned _ _ _ _ => exact c.set.closedInward d _ mentioned

theorem Owned.groupAt (h : s.Owned c id d site) : c.set.groupAt site.owner site.path = d.group? := by
  cases h with
  | named declared _ _ =>
    change (c.set.type? _).bind TypeDef.group? = _
    rw [declared, Option.bind_some]
  | inline _ placed _ _ _ => exact DeclarationSet.groupAt_of_inlineAt placed

theorem Owned.standsElement {x : ComplexDef} {key : String} {layout : Layout} {decl : ElementDecl} {place : Site}
    {occurs : Occurs} (h : s.Owned c id d site) (hx : d.complex? = some x)
    (hlayout : c.set.layout key [] site x = .ok layout) (leaf : Leaf.element decl place occurs ∈ layout.leaves) :
    c.set.StandsElement decl place :=
  DeclarationSet.standsElement_of_layout h.mentions h.groupAt hx hlayout leaf

theorem Owned.type?_of_isSimple {type : TypeEntry} (h : s.Owned c id d site) (simple : d.isSimple = true)
    (found : s.types.get? id = some type) : c.set.type? type.name = some d := by
  cases h with
  | named declared _ entry =>
    rw [found] at entry
    have own : type.name = _ := congrArg Prod.fst (Option.some.inj entry)
    rw [own, declared]
  | inline _ _ complex _ _ => cases complex.symm.trans simple

theorem Traced.of_size_eq (h : s.Traced c) (hg : s.Grows 0 t) (size : t.types.size = s.types.size)
    (anonymous : t.anonymous = s.anonymous)
    (simple : ∀ id type, t.types.get? id = some type → type.isSimple = true →
      ∃ d, c.set.type? type.name = some d ∧ d.isSimple = true) : t.Traced c where
  owned id hid := by
    rw [Registry.Has, size] at hid
    obtain ⟨d, site, owned⟩ := h.owned id hid
    exact ⟨d, site, owned.later hg⟩
  sites := anonymous ▸ h.sites
  inside p hp := hg.has (h.inside p (anonymous ▸ hp))
  simple := simple

end ResolveState

/-- A resolver that changes nothing that is there and answers with the entry of the owner. -/
def Faithful (c : ResolveContext) (resolve : ResolveType) : Prop :=
  ∀ ⦃d site context s id t⦄, c.set.Stands d site context → s.ReadyFor c d →
    Yields (resolve d site context) s id t →
    s.Grows s.types.size t ∧ t.Traced c ∧ (s.Definite c → t.Definite c) ∧
      ∃ d' site', c.owner d site = .ok (d', site') ∧ t.Owned c id d' site'

inductive Move
  | still
  | ask (d : TypeDef) (site : Site) (context : Option QName)

/-- A step of filling `id`: a type is asked for, or no other entry is touched. -/
def Moved (c : ResolveContext) (resolve : ResolveType) (id : TypeId) : Move → ResolveState → ResolveState → Prop
  | .still, s, t =>
    s.Grows 0 t ∧ t.types.size = s.types.size ∧ ∀ i, i ≠ id → t.types.get? i = s.types.get? i
  | .ask d site context, s, t =>
    c.set.Stands d site context ∧ s.ReadyFor c d ∧ ∃ i, Yields (resolve d site context) s i t

/-- Two resolvers, and the entries `i` and `j` into which they fill one definition. -/
structure Twins (c : ResolveContext) where
  d : TypeDef
  site : Site
  left : ResolveType
  right : ResolveType
  i : TypeId
  j : TypeId

namespace Twins

variable {c : ResolveContext}

/-- Both states are ready, and the two entries are alike so far. -/
structure Paired (W : Twins c) (s t : ResolveState) : Prop where
  left : s.ReadyFor c W.d
  right : t.ReadyFor c W.d
  owned_left : s.Owned c W.i W.d W.site
  owned_right : t.Owned c W.j W.d W.site
  entries : ∃ e f, s.types.get? W.i = some e ∧ t.types.get? W.j = some f ∧ EntriesAlike c s t e f

structure InStep (W : Twins c) (s t s' t' : ResolveState) : Prop where
  moves : ∃ l, Through (Moved c W.left W.i) l s s' ∧ Through (Moved c W.right W.j) l t t'
  paired : W.Paired s' t'
  grows_left : s.Grows 0 s'
  grows_right : t.Grows 0 t'

/-- If `x` and `y` come to answers, they have kept in step and the answers are related. -/
def Lockstep (W : Twins c) {α β : Type} (x : Resolve α) (y : Resolve β) (s t : ResolveState)
    (Q : α → β → ResolveState → ResolveState → Prop) : Prop :=
  W.Paired s t → ∀ a s' b t', Yields x s a s' → Yields y t b t' → W.InStep s t s' t' ∧ Q a b s' t'

variable {W : Twins c} {s t s' t' s'' t'' : ResolveState} {α β γ δ : Type}

theorem InStep.refl (h : W.Paired s t) : W.InStep s t s t :=
  ⟨⟨[], .nil s, .nil t⟩, h, .refl 0 s, .refl 0 t⟩

theorem InStep.trans (h : W.InStep s t s' t') (h' : W.InStep s' t' s'' t'') : W.InStep s t s'' t'' := by
  obtain ⟨l, left, right⟩ := h.moves
  obtain ⟨l', left', right'⟩ := h'.moves
  exact ⟨⟨l ++ l', left.append left', right.append right'⟩, h'.paired, h.grows_left.trans h'.grows_left,
    h.grows_right.trans h'.grows_right⟩

namespace Lockstep

variable {x : Resolve α} {y : Resolve β} {f : α → Resolve γ} {g : β → Resolve δ}
  {Q Q' : α → β → ResolveState → ResolveState → Prop}
  {R : γ → δ → ResolveState → ResolveState → Prop}

theorem of_paired (h : W.Paired s t → W.Lockstep x y s t Q) : W.Lockstep x y s t Q := fun paired => h paired paired

theorem pure {a : α} {b : β} (h : Q a b s t) : W.Lockstep (pure a) (pure b) s t Q := by
  intro paired a' s' b' t' hx hy
  obtain ⟨rfl, rfl⟩ := yields_pure.1 hx
  obtain ⟨rfl, rfl⟩ := yields_pure.1 hy
  exact ⟨.refl paired, h⟩

theorem throw {e : ResolveError} : W.Lockstep (throw e) y s t Q :=
  fun _ _ _ _ _ hx => absurd hx not_yields_throw

theorem throw_bind {e : ResolveError} {y : Resolve δ} : W.Lockstep (MonadExcept.throw e >>= f) y s t R :=
  fun _ _ _ _ _ hx => absurd hx not_yields_throw_bind

theorem bind (hxy : W.Lockstep x y s t Q)
    (hfg : ∀ a b s' t', W.InStep s t s' t' → Q a b s' t' → W.Lockstep (f a) (g b) s' t' R) :
    W.Lockstep (x >>= f) (y >>= g) s t R := by
  intro paired a' s'' b' t'' hx hy
  obtain ⟨a, s', hx, hf⟩ := yields_bind.1 hx
  obtain ⟨b, t', hy, hg⟩ := yields_bind.1 hy
  obtain ⟨first, hq⟩ := hxy paired a s' b t' hx hy
  obtain ⟨second, hr⟩ := hfg a b s' t' first hq first.paired a' s'' b' t'' hf hg
  exact ⟨first.trans second, hr⟩

theorem map {h : α → γ} {k : β → δ} (hxy : W.Lockstep x y s t fun a b => R (h a) (k b)) :
    W.Lockstep (h <$> x) (k <$> y) s t R := by
  intro paired a' s' b' t' hx hy
  obtain ⟨a, ha, rfl⟩ := yields_map.1 hx
  obtain ⟨b, hb, rfl⟩ := yields_map.1 hy
  exact hxy paired a s' b t' ha hb

theorem weaken (hxy : W.Lockstep x y s t Q) (h : ∀ a b s' t', Q a b s' t' → Q' a b s' t') :
    W.Lockstep x y s t Q' := by
  intro paired a s' b t' hx hy
  exact (hxy paired a s' b t' hx hy).imp id (h a b s' t')

theorem ofExcept_bind {f : α → Resolve γ} {g : α → Resolve δ} {r : Except ResolveError α}
    (h : ∀ a, r = .ok a → W.Lockstep (f a) (g a) s t R) :
    W.Lockstep (ofExcept r >>= f) (ofExcept r >>= g) s t R := by
  intro paired a' s' b' t' hx hy
  obtain ⟨a, ha, hf⟩ := yields_ofExcept_bind.1 hx
  obtain ⟨b, hb, hg⟩ := yields_ofExcept_bind.1 hy
  cases ha.symm.trans hb
  exact h a ha paired a' s' b' t' hf hg

theorem foldlM {α : Type} {g : β → α → Resolve β} {h : γ → α → Resolve γ} {l : List α}
    {I : β → γ → ResolveState → ResolveState → Prop} {b : β} {b' : γ} (hb : I b b' s t)
    (step : ∀ a ∈ l, ∀ b b' s t, I b b' s t → W.Lockstep (g b a) (h b' a) s t I) :
    W.Lockstep (l.foldlM g b) (l.foldlM h b') s t I := by
  induction l generalizing b b' s t with
  | nil => exact .pure hb
  | cons a l ih =>
    rw [List.foldlM_cons, List.foldlM_cons]
    refine .bind (step a (by simp) b b' s t hb) fun b b' s t _ hb => ih hb fun a ha => step a (by simp [ha])

theorem forM {α : Type} {g h : α → Resolve Unit} {l : List α}
    (step : ∀ a ∈ l, ∀ s t, W.Lockstep (g a) (h a) s t fun _ _ _ _ => True) :
    W.Lockstep (l.forM g) (l.forM h) s t fun _ _ _ _ => True := by
  induction l generalizing s t with
  | nil => exact .pure trivial
  | cons a l ih =>
    change W.Lockstep (g a >>= fun _ => l.forM g) (h a >>= fun _ => l.forM h) s t _
    exact .bind (step a (by simp) s t) fun _ _ _ _ _ _ => ih fun a ha => step a (by simp [ha])

end Lockstep

section Steps

theorem ask (hL : Faithful c W.left) (hR : Faithful c W.right) {d : TypeDef} {site : Site}
    {context : Option QName} (hd : c.set.Stands d site context)
    (simple : c.set.LeadsToSimple W.d → c.set.LeadsToSimple d) :
    W.Lockstep (W.left d site context) (W.right d site context) s t fun a b s' t' => SameOwner c s' t' a b := by
  intro paired a s' b t' hx hy
  have left : s.ReadyFor c d := ⟨paired.left.traced, paired.left.telling.imp id simple⟩
  have right : t.ReadyFor c d := ⟨paired.right.traced, paired.right.telling.imp id simple⟩
  obtain ⟨gs, tracedL, definiteL, o, osite, ownerL, ownedL⟩ := hL hd left hx
  obtain ⟨gt, tracedR, definiteR, o', osite', ownerR, ownedR⟩ := hR hd right hy
  cases ownerL.symm.trans ownerR
  have gs₀ := gs.of_le (Nat.zero_le _)
  have gt₀ := gt.of_le (Nat.zero_le _)
  obtain ⟨e, f, he, hf, alike⟩ := paired.entries
  refine ⟨⟨⟨[.ask d site context], .singleton ⟨hd, left, a, hx⟩, .singleton ⟨hd, right, b, hy⟩⟩, ?_, gs₀, gt₀⟩,
    o, osite, ownedL, ownedR⟩
  refine ⟨⟨tracedL, paired.left.telling.imp definiteL id⟩, ⟨tracedR, paired.right.telling.imp definiteR id⟩,
    paired.owned_left.later gs, paired.owned_right.later gt, e, f, ?_, ?_, alike.later gs gt⟩
  · exact (gs.get?_eq paired.owned_left.has).trans he
  · exact (gt.get?_eq paired.owned_right.has).trans hf

theorem quiet {g h : ResolveState → ResolveState} (hg : ∀ s, s.Grows 0 (g s) ∧ (g s).types = s.types ∧
      (g s).anonymous = s.anonymous) (hh : ∀ s, s.Grows 0 (h s) ∧ (h s).types = s.types ∧
      (h s).anonymous = s.anonymous) :
    W.Lockstep (modify g) (modify h) s t fun _ _ s' t' => s' = g s ∧ t' = h t := by
  intro paired _ s' _ t' hx hy
  obtain rfl := yields_modify.1 hx
  obtain rfl := yields_modify.1 hy
  obtain ⟨gs, typesL, anonymousL⟩ := hg s
  obtain ⟨gt, typesR, anonymousR⟩ := hh t
  have ready : ∀ {u v : ResolveState}, u.ReadyFor c W.d → u.Grows 0 v → v.types = u.types →
      v.anonymous = u.anonymous → v.ReadyFor c W.d := by
    intro u v hu hg types anonymous
    refine ⟨hu.traced.of_size_eq hg (congrArg Registry.size types) anonymous ?_, hu.telling.imp ?_ id⟩
    · rw [types]
      exact hu.traced.simple
    · unfold Definite
      rw [types]
      exact id
  obtain ⟨e, f, he, hf, alike⟩ := paired.entries
  refine ⟨⟨⟨[.still], .singleton ⟨gs, by rw [typesL], fun i _ => by rw [typesL]⟩,
    .singleton ⟨gt, by rw [typesR], fun i _ => by rw [typesR]⟩⟩, ?_, gs, gt⟩, rfl, rfl⟩
  exact ⟨ready paired.left gs typesL anonymousL, ready paired.right gt typesR anonymousR,
    paired.owned_left.later gs, paired.owned_right.later gt, e, f, typesL ▸ he, typesR ▸ hf, alike.later gs gt⟩

theorem diagnose {kind kind' : DiagnosticKind} {subject subject' message message' : String} :
    W.Lockstep (Resolve.diagnose kind subject message) (Resolve.diagnose kind' subject' message') s t
      fun _ _ _ _ => True :=
  (quiet (fun s => ⟨.diagnose 0 s _, rfl, rfl⟩) fun s => ⟨.diagnose 0 s _, rfl, rfl⟩).weaken
    fun _ _ _ _ _ => trivial

/-- A change that keeps the name of the entry, and makes it simple only if it is that of a simple type. -/
def Fits (W : Twins c) (f : TypeEntry → TypeEntry) : Prop :=
  ∀ e, (f e).head = e.head ∧
    ((f e).isSimple = e.isSimple ∨ (f e).isSimple = true ∧ W.d.isSimple = true)

theorem Fits.exists_of_get? {i k : TypeId} {e : TypeEntry} {f : TypeEntry → TypeEntry}
    (keeps : ∀ t, (f t).key = t.key) (hf : W.Fits f) (owned : s.Owned c i W.d W.site)
    (found : (s.types.modify i f keeps).get? k = some e) :
    ∃ e₀, s.types.get? k = some e₀ ∧ e.name = e₀.name ∧ e.isAbstract = e₀.isAbstract ∧
      (e.isSimple = e₀.isSimple ∨
        e.isSimple = true ∧ c.set.type? e.name = some W.d ∧ W.d.isSimple = true) := by
  by_cases same : k = i
  · subst same
    obtain ⟨e₀, found₀⟩ := Registry.has_iff.1 owned.has
    cases found.symm.trans (Registry.get?_modify_self keeps found₀)
    have name : (f e₀).name = e₀.name := congrArg Prod.fst (hf e₀).1
    refine ⟨e₀, found₀, name, congrArg Prod.snd (hf e₀).1, (hf e₀).2.imp id fun h => ⟨h.1, ?_, h.2⟩⟩
    rw [name]
    exact owned.type?_of_isSimple h.2 found₀
  · rw [Registry.get?_modify_of_ne keeps same] at found
    exact ⟨e, found, rfl, rfl, .inl rfl⟩

theorem Fits.readyFor {i : TypeId} {f : TypeEntry → TypeEntry} {keeps : ∀ t, (f t).key = t.key} (hf : W.Fits f)
    (h : s.ReadyFor c W.d) (owned : s.Owned c i W.d W.site) :
    ReadyFor c { s with types := s.types.modify i f keeps } W.d := by
  have grows : s.Grows 0 { s with types := s.types.modify i f keeps } :=
    .modify keeps (Nat.zero_le _) fun e => (hf e).1
  refine ⟨h.traced.of_size_eq grows (Registry.size_modify _ _ _ keeps) rfl ?_, h.telling.imp ?_ id⟩
  · intro k e found simple
    obtain ⟨e₀, found₀, name, -, same | ⟨-, declared, simple⟩⟩ := hf.exists_of_get? keeps owned found
    · rw [name]
      exact h.traced.simple k e₀ found₀ (same.symm.trans simple)
    · exact ⟨_, declared, simple⟩
  · intro definite k e d found isAbstract declared simple
    obtain ⟨e₀, found₀, name, abstract, same | ⟨simple, -⟩⟩ := hf.exists_of_get? keeps owned found
    · rw [same]
      exact definite k e₀ d found₀ (abstract.symm.trans isAbstract) (name ▸ declared) simple
    · exact simple

/-- Both entries are changed alike. -/
theorem fill {f g : TypeEntry → TypeEntry} {keepsL : ∀ t, (f t).key = t.key} {keepsR : ∀ t, (g t).key = t.key}
    (hf : W.Fits f) (hg : W.Fits g)
    (alike : ∀ e e', EntriesAlike c s t e e' → EntriesAlike c s t (f e) (g e')) :
    W.Lockstep (Resolve.modifyType W.i f keepsL) (Resolve.modifyType W.j g keepsR) s t fun _ _ _ _ => True := by
  intro paired _ s' _ t' hx hy
  obtain ⟨-, rfl⟩ := yields_modifyType.1 hx
  obtain ⟨-, rfl⟩ := yields_modifyType.1 hy
  obtain ⟨e, e', he, he', same⟩ := paired.entries
  have gs : s.Grows 0 _ := .modify keepsL (Nat.zero_le W.i.index) fun e => (hf e).1
  have gt : t.Grows 0 _ := .modify keepsR (Nat.zero_le W.j.index) fun e => (hg e).1
  have left : Moved c W.left W.i .still s _ :=
    ⟨gs, Registry.size_modify _ _ _ keepsL, fun i => Registry.get?_modify_of_ne keepsL⟩
  have right : Moved c W.right W.j .still t _ :=
    ⟨gt, Registry.size_modify _ _ _ keepsR, fun i => Registry.get?_modify_of_ne keepsR⟩
  refine ⟨⟨⟨[.still], .singleton left, .singleton right⟩, ?_, gs, gt⟩, trivial⟩
  exact ⟨hf.readyFor paired.left paired.owned_left, hg.readyFor paired.right paired.owned_right,
    paired.owned_left.later gs, paired.owned_right.later gt, f e, g e', Registry.get?_modify_self keepsL he,
    Registry.get?_modify_self keepsR he', (alike e e' same).later gs gt⟩

theorem entryAt_bind {id id' : TypeId} {f g : TypeEntry → Resolve α}
    {Q : α → α → ResolveState → ResolveState → Prop} (hi : c.set.Indexed) (same : SameOwner c s t id id')
    (h : ∀ e e', e.name = e'.name → (W.d.isSimple = false →
      (e.isAbstract && !e.isSimple) = (e'.isAbstract && !e'.isSimple)) → W.Lockstep (f e) (g e') s t Q) :
    W.Lockstep (Resolve.entryAt id >>= f) (Resolve.entryAt id' >>= g) s t Q := by
  intro paired a s' b t' hx hy
  obtain ⟨e, u, readL, hf⟩ := yields_bind.1 hx
  obtain ⟨e', v, readR, hg⟩ := yields_bind.1 hy
  obtain ⟨he, rfl⟩ := yields_entryAt.1 readL
  obtain ⟨he', rfl⟩ := yields_entryAt.1 readR
  obtain ⟨d, site, left, right⟩ := same
  have head := left.head_eq hi right
  rw [he, he', Option.map_some, Option.map_some, Option.some_inj] at head
  have name : e.name = e'.name := congrArg Prod.fst head
  have abstract : e.isAbstract = e'.isAbstract := congrArg Prod.snd head
  refine h e e' name (fun complex => ?_) paired a s' b t' hf hg
  rw [abstract]
  cases isAbstract : e'.isAbstract with
  | false => rfl
  | true =>
    -- Abstract entries are simple exactly if their names are those of simple types.
    have simple : e.isSimple = true ↔ e'.isSimple = true := by
      constructor
      · intro simple
        obtain ⟨d, declared, hd⟩ := paired.left.traced.simple id e he simple
        exact paired.right.definite complex id' e' d he' isAbstract (name ▸ declared) hd
      · intro simple
        obtain ⟨d, declared, hd⟩ := paired.right.traced.simple id' e' he' simple
        exact paired.left.definite complex id e d he (abstract.trans isAbstract) (name ▸ declared) hd
    rw [Bool.eq_iff_iff.2 simple]

end Steps

end Twins

end SchemaGraph
