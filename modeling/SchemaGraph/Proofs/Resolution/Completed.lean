import SchemaGraph.Proofs.Resolution.SideBySide

/-! Resolution leaves nothing half done.  By the time of an answer whatever was entered on the way has been
filled, and nothing else has been touched. -/
namespace SchemaGraph

open Stateful

namespace DeclarationSet

/-- Abstract types of simple values lead to simple types only. -/
def PlainAbstracts (s : DeclarationSet) : Prop :=
  ∀ name d, s.type? name = some d → d.isAbstract = true → d.isSimple = true → s.LeadsToSimple d

variable {s : DeclarationSet} {d : TypeDef}

theorem isAbstract_builtinType? {name : QName} (h : builtinType? name = some d) : d.isAbstract = false := by
  unfold builtinType? at h
  split at h
  · split at h
    · cases h
      rfl
    · obtain ⟨p, -, rfl⟩ := Option.map_eq_some_iff.1 h
      rfl
  · cases h

theorem leadsToSimple_of_parts (simple : d.isSimple = true) (parts : ∀ p ∈ s.simpleParts d, s.LeadsToSimple p) :
    s.LeadsToSimple d := by
  intro d' way
  rcases way.cases_head with rfl | ⟨p, part, rest⟩
  · exact simple
  · exact parts p part d' rest

theorem leadsToSimple_builtin (s : DeclarationSet) (own : Option QName) (p : Primitive) :
    s.LeadsToSimple ⟨own, false, .builtin p⟩ := by
  have none : s.simpleParts ⟨own, false, .builtin p⟩ = [] := by
    unfold simpleParts
    rw [inheritedAttributes, classify]
    rfl
  refine leadsToSimple_of_parts rfl fun p part => ?_
  rw [none] at part
  cases part

/-- It is enough that abstract types of simple values have no attributes and items but of builtin types. -/
theorem PlainAbstracts.of_builtin
    (parts : ∀ d ∈ s.types.values, d.isAbstract = true → d.isSimple = true →
      ∀ p ∈ s.simpleParts d, ∃ own primitive, p = ⟨own, false, .builtin primitive⟩) : s.PlainAbstracts := by
  intro name d declared isAbstract simple
  have here : d ∈ s.types.values := by
    unfold type? at declared
    rw [OrderedMap.mem_values_iff]
    cases found : s.types.get? name with
    | some _ =>
      rw [found] at declared
      cases declared
      exact ⟨name, found⟩
    | none =>
      rw [found] at declared
      cases (isAbstract_builtinType? declared).symm.trans isAbstract
  refine leadsToSimple_of_parts simple fun p part => ?_
  obtain ⟨own, primitive, rfl⟩ := parts d here isAbstract simple p part
  exact s.leadsToSimple_builtin own primitive

end DeclarationSet

namespace ResolveContext

variable {c : ResolveContext} {d d' : TypeDef} {site site' : Site}

theorem leadsToSimple_of_standIn (hi : c.set.Indexed) (h : c.standIn d = .ok (d', site')) :
    c.set.LeadsToSimple d' := by
  obtain ⟨p, -, h⟩ := bind_eq_ok_iff.1 h
  obtain ⟨b, declared, h⟩ := bind_eq_ok_iff.1 h
  cases h
  cases (DeclarationSet.type_eq_ok_iff.1 declared).symm.trans (hi.type?_primitive p)
  exact c.set.leadsToSimple_builtin _ p

theorem leadsToSimple_of_owner (hi : c.set.Indexed) (hd : c.set.LeadsToSimple d)
    (h : c.owner d site = .ok (d', site')) : c.set.LeadsToSimple d' := by
  unfold owner at h
  simp only [hd.isSimple, if_true] at h
  split at h
  · split at h
    · cases h
      exact hd
    · exact leadsToSimple_of_standIn hi h
  · exact leadsToSimple_of_standIn hi h

end ResolveContext

namespace ResolveState

variable {c : ResolveContext} {s t u : ResolveState} {id : TypeId} {d : TypeDef} {site : Site}

/-- The entry is there and has yet to be filled with `d`. -/
structure Awaits (c : ResolveContext) (s : ResolveState) (id : TypeId) (d : TypeDef) (site : Site) : Prop where
  ready : s.ReadyFor c d
  owned : s.Owned c id d site
  blank : ∃ name, s.types.get? id = some { name, isAbstract := d.isAbstract }

theorem Enters.awaits (hi : c.set.Indexed) (hk : c.set.KeysApart) (plain : c.set.PlainAbstracts)
    {d' : TypeDef} {site' : Site} (h : s.Enters c id d' site' t) (ready : s.ReadyFor c d)
    (own : c.owner d site = .ok (d', site')) : t.Awaits c id d' site' := by
  refine ⟨⟨h.traced ready.traced, ?_⟩, h.owned, h.blank⟩
  rcases ready.telling with definite | simple
  · by_cases abstract : d'.isAbstract = true ∧ d'.isSimple = true
    · obtain ⟨name, found⟩ := h.blank
      have declared := h.owned.type?_of_isSimple abstract.2 found
      exact .inr (plain _ d' declared abstract.1 abstract.2)
    · refine .inl (h.definite hk definite fun isAbstract => Bool.eq_false_iff.2 fun simple => ?_)
      exact abstract ⟨isAbstract, simple⟩
  · exact .inr (ResolveContext.leadsToSimple_of_owner hi simple own)

theorem Awaits.paired {W : Twins c} (hi : c.set.Indexed) (h : s.Awaits c W.i W.d W.site)
    (h' : t.Awaits c W.j W.d W.site) : W.Paired s t := by
  obtain ⟨name, blank⟩ := h.blank
  obtain ⟨name', blank'⟩ := h'.blank
  have head := h.owned.head_eq hi h'.owned
  rw [blank, blank'] at head
  obtain rfl : name = name' := congrArg Prod.fst (Option.some.inj head)
  exact ⟨h.ready, h'.ready, h.owned, h'.owned, _, _, blank, blank', .blank c s t name _⟩

/-- The entry is as the filling of its definition has left it. -/
inductive Filled (c : ResolveContext) (s : ResolveState) (id : TypeId) : Prop
  | intro {depth : Nat} {d : TypeDef} {site : Site} {u v : ResolveState} (awaits : u.Awaits c id d site)
      (filled : Yields (fillTo c depth id d site) u () v) (later : v.Grows 0 s)
      (same : s.types.get? id = v.types.get? id) : Filled c s id

theorem grows_of_fillTo {depth : Nat} (h : Yields (fillTo c depth id d site) s () t) : s.Grows 0 t :=
  (fillTo_grows (Nat.zero_le _) depth id d site (Nat.zero_le _) s (.refl 0 s)).answer h

theorem isSimple_of_fillTo {depth : Nat} (simple : d.isSimple = true)
    (h : Yields (fillTo c depth id d site) s () t) : ∃ type, t.types.get? id = some type ∧ type.isSimple = true := by
  cases depth with
  | zero => exact absurd h not_yields_throw
  | succ depth =>
    change Yields (fillWith c _ id d site) s () t at h
    unfold fillWith at h
    obtain ⟨list, -, h⟩ := yields_ofExcept_bind.1 h
    obtain ⟨_, _, -, h⟩ := yields_bind.1 h
    obtain ⟨_, _, -, h⟩ := yields_bind.1 h
    rw [if_pos simple] at h
    unfold fillScalar at h
    obtain ⟨scalar, -, h⟩ := yields_ofExcept_bind.1 h
    dsimp only at h
    split at h <;>
    · obtain ⟨item, u, -, h⟩ := yields_bind.1 h
      obtain ⟨there, rfl⟩ := yields_modifyType.1 h
      obtain ⟨type, found⟩ := Option.isSome_iff_exists.1 there
      exact ⟨_, Registry.get?_modify_self (by intro _; rfl) found, rfl⟩

theorem Filled.isSimple {type : TypeEntry} (hk : c.set.KeysApart) (h : s.Filled c id)
    (found : s.types.get? id = some type) (declared : c.set.type? type.name = some d) (simple : d.isSimple = true) :
    type.isSimple = true := by
  obtain ⟨awaits, filled, later, same⟩ := h
  have owned := (awaits.owned.later (grows_of_fillTo filled)).later later
  obtain rfl := owned.eq_of_type? hk found declared
  obtain ⟨type', found', told⟩ := isSimple_of_fillTo simple filled
  cases (same.symm.trans found).symm.trans found'
  exact told

theorem Definite.of_filled (hk : c.set.KeysApart) (h : s.Definite c)
    (kept : ∀ i, s.types.Has i → t.types.get? i = s.types.get? i)
    (added : ∀ i, t.types.Has i → ¬ s.types.Has i → t.Filled c i) : t.Definite c := by
  intro i type d found isAbstract declared simple
  by_cases here : s.types.Has i
  · exact h i type d ((kept i here).symm.trans found) isAbstract declared simple
  · exact (added i (Registry.has_iff.2 ⟨type, found⟩) here).isSimple hk found declared simple

def Lasting (Q : ResolveState → TypeId → Prop) : Prop :=
  ∀ s t id, Q s id → s.Grows 0 t → t.types.get? id = s.types.get? id → Q t id

theorem lasting_filled (c : ResolveContext) : Lasting (Filled c) := by
  rintro s t id ⟨awaits, filled, later, same⟩ grows kept
  exact ⟨awaits, filled, later.trans grows, kept.trans same⟩

/-- `t` is `s` with more entries, for each of which `Q` holds; `id` alone may be in the works. -/
structure Adds (Q : ResolveState → TypeId → Prop) (id : TypeId) (s t : ResolveState) : Prop where
  grows : s.Grows 0 t
  kept : ∀ i, i ≠ id → s.types.Has i → t.types.get? i = s.types.get? i
  added : ∀ i, i ≠ id → t.types.Has i → ¬ s.types.Has i → Q t i

namespace Adds

variable {Q : ResolveState → TypeId → Prop}

theorem refl (id : TypeId) (s : ResolveState) : s.Adds Q id s :=
  ⟨.refl 0 s, fun _ _ _ => rfl, fun _ _ h h' => absurd h h'⟩

theorem trans (hQ : Lasting Q) (h : s.Adds Q id t) (h' : t.Adds Q id u) : s.Adds Q id u where
  grows := h.grows.trans h'.grows
  kept i hi here := (h'.kept i hi (h.grows.has here)).trans (h.kept i hi here)
  added i hi there new := by
    by_cases here : t.types.Has i
    · exact hQ t u i (h.added i hi here new) h'.grows (h'.kept i hi here)
    · exact h'.added i hi there here

theorem of_grows (grows : s.Grows s.types.size t) (added : ∀ i, t.types.Has i → ¬ s.types.Has i → Q t i) :
    s.Adds Q id t :=
  ⟨grows.of_le (Nat.zero_le _), fun _ _ here => grows.get?_eq here, fun i _ => added i⟩

theorem of_size_eq (grows : s.Grows 0 t) (size : t.types.size = s.types.size)
    (kept : ∀ i, i ≠ id → t.types.get? i = s.types.get? i) : s.Adds Q id t :=
  ⟨grows, fun i hi _ => kept i hi, fun i _ there new => absurd (size ▸ there : i.index < s.types.size) new⟩

theorem of_moves {resolve : ResolveType} {l : List Move} (hQ : Lasting Q) (faithful : Faithful c resolve)
    (moves : Through (Moved c resolve id) l s t)
    (asked : ∀ d site context, .ask d site context ∈ l → ∀ s i t, c.set.Stands d site context →
      s.ReadyFor c d → Yields (resolve d site context) s i t → ∀ i, t.types.Has i → ¬ s.types.Has i → Q t i) :
    s.Adds Q id t := by
  refine moves.lift (refl id) (fun _ _ _ => trans hQ) fun move hmove s t moved => ?_
  cases move with
  | still =>
    obtain ⟨grows, size, kept⟩ := moved
    exact .of_size_eq grows size kept
  | ask d site context =>
    obtain ⟨stands, ready, i, h⟩ := moved
    exact .of_grows (faithful stands ready h).1 (asked d site context hmove s _ t stands ready h)

theorem of_enters (h : u.Adds Q id t) (entered : s.Enters c id d site u) (own : Q t id) {i : TypeId}
    (there : t.types.Has i) (new : ¬ s.types.Has i) : Q t i := by
  by_cases same : i = id
  · exact same ▸ own
  · refine h.added i same there fun here => ?_
    rcases entered.has_or_eq here with here | here
    · exact new here
    · exact same here

end Adds

end ResolveState

open ResolveState

/-- Whatever the resolver enters on the way to an answer it also fills. -/
def Completes (c : ResolveContext) (resolve : ResolveType) : Prop :=
  ∀ ⦃d site context s id t⦄, c.set.Stands d site context → s.ReadyFor c d →
    Yields (resolve d site context) s id t → ∀ i, t.types.Has i → ¬ s.types.Has i → t.Filled c i

/-- When an entry has been filled, so has everything that was entered meanwhile. -/
def Finishes (c : ResolveContext) (fill : Fill) : Prop :=
  ∀ ⦃id d site s t⦄, s.Awaits c id d site → Yields (fill id d site) s () t →
    t.Traced c ∧ s.Adds (Filled c) id t

section Filling

variable {c : ResolveContext} {s t : ResolveState} {id : TypeId} {d : TypeDef} {site : Site} {resolve : ResolveType}
  (hi : c.set.Indexed)
include hi

theorem moves_of_fillWith (faithful : Faithful c resolve) (awaits : s.Awaits c id d site)
    (h : Yields (fillWith c resolve id d site) s () t) :
    t.Traced c ∧ ∃ l, Through (Moved c resolve id) l s t := by
  -- The filling keeps in step with itself.
  let W : Twins c := ⟨d, site, resolve, resolve, id, id⟩
  have paired : W.Paired s s := awaits.paired hi awaits
  obtain ⟨step, -⟩ := W.fillWith_lockstep faithful faithful hi paired _ _ _ _ h h
  obtain ⟨l, moves, -⟩ := step.moves
  exact ⟨step.paired.left.traced, l, moves⟩

theorem finishes_fillWith (faithful : Faithful c resolve) (completes : Completes c resolve) :
    Finishes c (fillWith c resolve) := by
  intro id d site s t awaits h
  obtain ⟨traced, l, moves⟩ := moves_of_fillWith hi faithful awaits h
  refine ⟨traced, .of_moves (lasting_filled c) faithful moves ?_⟩
  exact fun _ _ _ _ _ _ _ stands ready h => completes stands ready h

variable (hk : c.set.KeysApart) (plain : c.set.PlainAbstracts)
include hk plain

theorem completes_of_finishes {depth : Nat} (finishes : Finishes c (fillTo c depth)) :
    Completes c (resolveType c (fillTo c depth)) := by
  intro d site context s id t stands ready h i there new
  obtain ⟨d', site', own, ⟨-, rfl⟩ | ⟨u, entered, filled⟩⟩ := answers_of_resolveType hk hi stands ready.traced h
  · exact absurd there new
  · have awaits := entered.awaits hi hk plain ready own
    exact (finishes awaits filled).2.of_enters entered ⟨awaits, filled, .refl 0 t, rfl⟩ there new

theorem faithful_of_finishes {depth : Nat} (finishes : Finishes c (fillTo c depth)) :
    Faithful c (resolveType c (fillTo c depth)) := by
  intro d site context s id t stands ready h
  have grows := (resolve_grows c depth s d site context s (.refl _ s)).answer h
  have completes := completes_of_finishes hi hk plain finishes stands ready h
  obtain ⟨d', site', own, ⟨owned, rfl⟩ | ⟨u, entered, filled⟩⟩ := answers_of_resolveType hk hi stands ready.traced h
  · exact ⟨grows, ready.traced, fun definite => definite, d', site', own, owned⟩
  · have awaits := entered.awaits hi hk plain ready own
    have telling := fun definite : s.Definite c => definite.of_filled hk (fun _ => grows.get?_eq) completes
    exact ⟨grows, (finishes awaits filled).1, telling, d', site', own, awaits.owned.later (grows_of_fillTo filled)⟩

theorem finishes_fillTo (depth : Nat) : Finishes c (fillTo c depth) := by
  induction depth with
  | zero => exact fun _ _ _ _ _ _ h => absurd h not_yields_throw
  | succ depth ih =>
    exact finishes_fillWith hi (faithful_of_finishes hi hk plain ih) (completes_of_finishes hi hk plain ih)

theorem faithful_resolveType (depth : Nat) : Faithful c (resolveType c (fillTo c depth)) :=
  faithful_of_finishes hi hk plain (finishes_fillTo hi hk plain depth)

theorem completes_resolveType (depth : Nat) : Completes c (resolveType c (fillTo c depth)) :=
  completes_of_finishes hi hk plain (finishes_fillTo hi hk plain depth)

end Filling

end SchemaGraph
