import SchemaGraph.Proofs.Resolution.Abandoned
import SchemaGraph.Proofs.Resolution.Completed

/-! Whether types are asked for in one order or in another, their entries say the same.  Each entry belongs to
a definition, and each filling of a definition makes the same moves, so that an entry of one run is found again
in every run that has come to the same definition. -/
namespace SchemaGraph

open Stateful

namespace ResolveState

variable {c : ResolveContext} {r s t u : ResolveState} {id : TypeId} {d : TypeDef} {site : Site}

/-- Everything in the state has been filled. -/
structure Complete (c : ResolveContext) (s : ResolveState) : Prop where
  traced : s.Traced c
  filled : ∀ id, s.types.Has id → s.Filled c id

theorem Complete.readyFor (hk : c.set.KeysApart) (h : s.Complete c) (d : TypeDef) : s.ReadyFor c d := by
  refine ⟨h.traced, .inl fun id type d found _ declared simple => ?_⟩
  exact (h.filled id (Registry.has_iff.2 ⟨type, found⟩)).isSimple hk found declared simple

theorem complete_empty (c : ResolveContext) : ResolveState.empty.Complete c where
  traced := ⟨fun _ => nofun, .nil, fun _ => nofun, fun _ _ => nofun⟩
  filled _ := nofun

def Mirrors (c : ResolveContext) (r s : ResolveState) (id : TypeId) : Prop :=
  ∃ j e f, r.types.get? j = some e ∧ s.types.get? id = some f ∧ EntriesAlike c r s e f

theorem lasting_mirrors (c : ResolveContext) (r : ResolveState) : Lasting (Mirrors c r) := by
  rintro s t id ⟨j, e, f, he, hf, alike⟩ grows kept
  exact ⟨j, e, f, he, kept.trans hf, alike.later (.refl 0 r) grows⟩

def Knows (c : ResolveContext) (r : ResolveState) (d : TypeDef) (site : Site) : Prop := ∃ id, r.Owned c id d site

def Answered (c : ResolveContext) (r : ResolveState) (d : TypeDef) (site : Site) : Prop :=
  ∃ d' site', c.owner d site = .ok (d', site') ∧ r.Knows c d' site'

theorem Answered.later (h : s.Answered c d site) (grows : s.Grows 0 t) : t.Answered c d site := by
  obtain ⟨d', site', own, id, owned⟩ := h
  exact ⟨d', site', own, id, owned.later grows⟩

end ResolveState

open ResolveState

variable {c : ResolveContext} {r s t : ResolveState}

section Moves

variable {id : TypeId} {resolve : ResolveType} {l : List Move}

theorem Faithful.grows_of_moves (faithful : Faithful c resolve) (moves : Through (Moved c resolve id) l s t) :
    s.Grows 0 t := by
  have adds : s.Adds (fun _ _ => True) id t :=
    .of_moves (fun _ _ _ _ _ _ => trivial) faithful moves fun _ _ _ _ _ _ _ _ _ _ _ _ _ => trivial
  exact adds.grows

theorem Faithful.answered (faithful : Faithful c resolve) (moves : Through (Moved c resolve id) l s t) {d : TypeDef}
    {site : Site} {context : Option QName} (asked : .ask d site context ∈ l) : t.Answered c d site := by
  induction moves with
  | nil => cases asked
  | cons move rest ih =>
    rcases List.mem_cons.1 asked with rfl | asked
    · obtain ⟨stands, ready, i, h⟩ := move
      obtain ⟨-, -, -, d', site', own, owned⟩ := faithful stands ready h
      exact ⟨d', site', own, i, owned.later (faithful.grows_of_moves rest)⟩
    · exact ih asked

end Moves

/-- Filling a definition that has an entry in `r` makes a mirror of it, and adds mirrors only. -/
def Reflects (c : ResolveContext) (r : ResolveState) (fill : Fill) : Prop :=
  ∀ ⦃id d site s t⦄, s.Awaits c id d site → r.Knows c d site → Yields (fill id d site) s () t →
    s.Adds (Mirrors c r) id t ∧ Mirrors c r t id

section Mirroring

variable (hi : c.set.Indexed) (hk : c.set.KeysApart) (plain : c.set.PlainAbstracts) (hr : r.Complete c)
include hi hk plain

theorem mirrors_of_resolveType {depth : Nat} (reflects : Reflects c r (fillTo c depth)) {d : TypeDef} {site : Site}
    {context : Option QName} {id : TypeId} (stands : c.set.Stands d site context) (ready : s.ReadyFor c d)
    (answered : r.Answered c d site) (h : Yields (resolveType c (fillTo c depth) d site context) s id t)
    {i : TypeId} (there : t.types.Has i) (new : ¬ s.types.Has i) : Mirrors c r t i := by
  obtain ⟨d', site', own, known⟩ := answered
  obtain ⟨_, _, own', ⟨-, rfl⟩ | ⟨u, entered, filled⟩⟩ := answers_of_resolveType hk hi stands ready.traced h
  · exact absurd there new
  · cases own.symm.trans own'
    obtain ⟨adds, mirror⟩ := reflects (entered.awaits hi hk plain ready own) known filled
    exact adds.of_enters entered mirror there new

include hr in
theorem reflects_fillTo (depth : Nat) : Reflects c r (fillTo c depth) := by
  induction depth with
  | zero => exact fun _ _ _ _ _ _ _ h => absurd h not_yields_throw
  | succ depth ih =>
    intro id d site s t awaits known h
    -- In `r` the definition has been filled as well, and that filling is in step with this one.
    obtain ⟨j, owned⟩ := known
    obtain @⟨depth', d', site', u, v, awaits', filled, later, same⟩ := hr.filled j owned.has
    have owned' := (awaits'.owned.later (grows_of_fillTo filled)).later later
    obtain ⟨rfl, rfl⟩ := hr.traced.unique hk owned owned'
    cases depth' with
    | zero => exact absurd filled not_yields_throw
    | succ depth' =>
      have faithful' := faithful_resolveType hi hk plain depth'
      have faithful := faithful_resolveType hi hk plain depth
      let W : Twins c := ⟨d', site', resolveType c (fillTo c depth'), resolveType c (fillTo c depth), j, id⟩
      obtain ⟨step, -⟩ := W.fillWith_lockstep faithful' faithful hi (awaits'.paired hi awaits) _ _ _ _ filled h
      obtain ⟨l, moves', moves⟩ := step.moves
      obtain ⟨e, f, he, hf, alike⟩ := step.paired.entries
      refine ⟨.of_moves (lasting_mirrors c r) faithful moves ?_, j, e, f, same.trans he, hf,
        alike.later later (.refl 0 t)⟩
      intro d site context asked s i t stands ready h
      exact fun _ => mirrors_of_resolveType hi hk plain ih stands ready
        ((faithful'.answered moves' asked).later later) h

end Mirroring

section Runs

def ResolveContext.resolveNames (c : ResolveContext) (names : List QName) : Resolve Unit :=
  names.forM fun name => discard (c.resolveName name)

theorem yields_resolveNames_cons {name : QName} {names : List QName} :
    Yields (c.resolveNames (name :: names)) s () t ↔
      ∃ id u, Yields (c.resolveName name) s id u ∧ Yields (c.resolveNames names) u () t := by
  change Yields (discard (c.resolveName name) >>= fun _ => c.resolveNames names) s () t ↔ _
  rw [yields_bind]
  constructor
  · rintro ⟨_, u, first, rest⟩
    obtain ⟨id, first, -⟩ := yields_map.1 first
    exact ⟨id, u, first, rest⟩
  · rintro ⟨id, u, first, rest⟩
    exact ⟨(), u, yields_map.2 ⟨id, first, rfl⟩, rest⟩

variable (hi : c.set.Indexed) (hk : c.set.KeysApart) (plain : c.set.PlainAbstracts)
include hi hk plain

/-- The name is declared, and in the state an entry answers for it. -/
def ResolveState.AnsweredName (c : ResolveContext) (s : ResolveState) (name : QName) : Prop :=
  ∃ d, c.set.type? name = some d ∧ s.Answered c d (siteOfType name)

theorem complete_of_resolveName {name : QName} {id : TypeId} (hs : s.Complete c)
    (h : Yields (c.resolveName name) s id t) : t.Complete c ∧ s.Grows 0 t ∧ t.AnsweredName c name := by
  obtain ⟨d, declared, h⟩ := ResolveContext.exists_of_yields_resolveName h
  have stands : c.set.Stands d (siteOfType name) none := .named declared
  have ready := hs.readyFor hk d
  obtain ⟨grows, traced, -, d', site', own, owned⟩ := faithful_resolveType hi hk plain _ stands ready h
  refine ⟨⟨traced, fun i there => ?_⟩, grows.of_le (Nat.zero_le _), d, declared, d', site', own, id, owned⟩
  by_cases here : s.types.Has i
  · exact lasting_filled c s t i (hs.filled i here) (grows.of_le (Nat.zero_le _)) (grows.get?_eq here)
  · exact completes_resolveType hi hk plain _ stands ready h i there here

theorem complete_of_resolveNames {names : List QName} (hs : s.Complete c)
    (h : Yields (c.resolveNames names) s () t) :
    t.Complete c ∧ s.Grows 0 t ∧ ∀ name ∈ names, t.AnsweredName c name := by
  induction names generalizing s with
  | nil =>
    obtain ⟨-, rfl⟩ := yields_pure.1 h
    exact ⟨hs, .refl 0 s, nofun⟩
  | cons name names ih =>
    obtain ⟨id, u, first, rest⟩ := yields_resolveNames_cons.1 h
    obtain ⟨hu, grows, d, declared, answered⟩ := complete_of_resolveName hi hk plain hs first
    obtain ⟨ht, grows', all⟩ := ih hu rest
    refine ⟨ht, grows.trans grows', List.forall_mem_cons.2 ⟨⟨d, declared, answered.later grows'⟩, all⟩⟩

theorem mirrors_of_resolveNames {names : List QName} (hr : r.Complete c) (hs : s.Complete c)
    (answered : ∀ name ∈ names, r.AnsweredName c name) (mirrors : ∀ id, s.types.Has id → Mirrors c r s id)
    (h : Yields (c.resolveNames names) s () t) : ∀ id, t.types.Has id → Mirrors c r t id := by
  induction names generalizing s with
  | nil =>
    obtain ⟨-, rfl⟩ := yields_pure.1 h
    exact mirrors
  | cons name names ih =>
    obtain ⟨id, u, first, rest⟩ := yields_resolveNames_cons.1 h
    rw [List.forall_mem_cons] at answered
    obtain ⟨hu, grows, -⟩ := complete_of_resolveName hi hk plain hs first
    refine ih hu answered.2 (fun i there => ?_) rest
    obtain ⟨d, declared, known⟩ := answered.1
    rw [ResolveContext.resolveName_eq declared] at first
    by_cases here : s.types.Has i
    · have kept := ((resolve_grows c _ s d _ _ s (.refl _ s)).answer first).get?_eq here
      exact lasting_mirrors c r s u i (mirrors i here) grows kept
    · exact mirrors_of_resolveType hi hk plain (reflects_fillTo hi hk plain hr _) (.named declared)
        (hs.readyFor hk d) known first there here

end Runs

def placeholderNames : List QName := [Primitive.string, .boolean, .decimal].map fun p => .xsd p.builtinName

theorem yields_fresh (c : ResolveContext) (hi : c.set.Indexed) :
    Yields (c.resolveNames placeholderNames) .empty () c.fresh := by
  obtain ⟨t, h, -⟩ := exists_placeholders hi [.string, .boolean, .decimal] (.empty c)
  have fresh : c.fresh = t := congrArg Prod.snd h
  exact fresh ▸ h

theorem Registry.find?_eq_some_iff {types : Registry} {key : String} {type : TypeEntry} :
    types.find? key = some type ↔ ∃ id, types.get? id = some type ∧ type.key = key := by
  rw [find?, Option.bind_eq_some_iff]
  constructor
  · rintro ⟨id, found, entry⟩
    rw [lookup_eq_some_iff, entry] at found
    exact ⟨id, entry, Option.some.inj found⟩
  · rintro ⟨id, entry, rfl⟩
    exact ⟨id, by rw [lookup_eq_some_iff, entry]; rfl, entry⟩

theorem mirrors_of_subset (hi : c.set.Indexed) (hk : c.set.KeysApart) (plain : c.set.PlainAbstracts)
    {names names' : List QName} (sub : names' ⊆ names) (hs : Yields (c.resolveNames names) c.fresh () s)
    (ht : Yields (c.resolveNames names') c.fresh () t) : ∀ id, t.types.Has id → Mirrors c s t id := by
  have start := yields_fresh c hi
  have empty := complete_empty c
  obtain ⟨fresh, -, placeholders⟩ := complete_of_resolveNames hi hk plain empty start
  obtain ⟨complete, grows, answered⟩ := complete_of_resolveNames hi hk plain fresh hs
  have builtin : ∀ name ∈ placeholderNames, s.AnsweredName c name := by
    intro name hname
    obtain ⟨d, declared, known⟩ := placeholders name hname
    exact ⟨d, declared, known.later grows⟩
  have first := mirrors_of_resolveNames hi hk plain complete empty builtin (fun _ => nofun) start
  exact mirrors_of_resolveNames hi hk plain complete fresh (fun name hname => answered name (sub hname)) first ht

/-- Asking for the same names in another order, or for some of them only, gives no entry that another run does
not have, and none that says anything else. -/
theorem same_in_any_order (hc : c.set.Built) (apart : c.set.KeysApart) (plain : c.set.PlainAbstracts)
    {names names' : List QName} (sub : names' ⊆ names) (hs : Yields (c.resolveNames names) c.fresh () s)
    (ht : Yields (c.resolveNames names') c.fresh () t) (key : String) (f : TypeEntry)
    (found : t.types.find? key = some f) :
    ∃ e, s.types.find? key = some e ∧ e.outline s.types = f.outline t.types := by
  obtain ⟨id, entry, rfl⟩ := Registry.find?_eq_some_iff.1 found
  have there : t.types.Has id := Registry.has_iff.2 ⟨f, entry⟩
  obtain ⟨j, e, f', he, hf, alike⟩ := mirrors_of_subset hc.indexed apart plain sub hs ht id there
  cases entry.symm.trans hf
  exact ⟨e, Registry.find?_eq_some_iff.2 ⟨j, he, alike.key_eq⟩, alike.outline_eq hc.indexed⟩

/-- Pages have entries, of which debits are one kind; an amount is an abstract type with an attribute. -/
def ledger : DeclarationSet :=
  let name := fun localName => (⟨some "urn:ledger", localName⟩ : QName)
  let element := fun localName typeRef => (.element ⟨name localName, typeRef, .once, false, none⟩ : Particle)
  let text : TypeRef := .named (.xsd "string")
  let complex := fun base particles =>
    (.complex ⟨base, .elements ⟨.sequence, .once, particles⟩, [], false⟩ : TypeBody)
  let note : TypeDef := ⟨none, false, complex .none [element "text" text]⟩
  (exec (DeclarationSet.add
    { targetNamespace := some "urn:ledger"
      types := [⟨some (name "Page"), false, complex .none [element "entry" (.named (name "Entry"))]⟩,
        ⟨some (name "Entry"), true, complex .none [element "amount" (.named (name "Amount"))]⟩,
        ⟨some (name "Debit"), false, complex (.extension (name "Entry")) [element "note" (.inline note)]⟩,
        ⟨some (name "Amount"), true, .complex ⟨.extension (.xsd "decimal"), .simple [],
          [.declared ⟨"currency", text⟩], false⟩⟩] }) .empty).2

theorem ledger_keysApart : ledger.KeysApart := .of_run (by decide +kernel) (by decide +kernel)

def TypeDef.isConcreteBuiltin : TypeDef → Bool
  | ⟨_, false, .builtin _⟩ => true
  | _ => false

theorem ledger_plainAbstracts : ledger.PlainAbstracts := by
  have parts : (ledger.types.values.all fun d => !(d.isAbstract && d.isSimple) ||
      (ledger.simpleParts d).all TypeDef.isConcreteBuiltin) = true := by decide +kernel
  rw [List.all_eq_true] at parts
  refine .of_builtin fun d here isAbstract simple p part => ?_
  have all := parts d here
  rw [isAbstract, simple, Bool.and_self, Bool.not_true, Bool.false_or, List.all_eq_true] at all
  have builtin := all p part
  unfold TypeDef.isConcreteBuiltin at builtin
  split at builtin
  · exact ⟨_, _, rfl⟩
  · cases builtin

theorem ledger_in_two_orders :
    let name := fun localName => (⟨some "urn:ledger", localName⟩ : QName)
    let c : ResolveContext := ⟨ledger, .ofSet ledger, {}, {}⟩
    ∃ s t, Yields (c.resolveNames [name "Page", name "Amount", name "Debit"]) c.fresh () s ∧
      Yields (c.resolveNames [name "Debit", name "Amount", name "Page"]) c.fresh () t ∧
      s.types.entries.map TypeEntry.key ≠ t.types.entries.map TypeEntry.key ∧
      ∀ key f, t.types.find? key = some f →
        ∃ e, s.types.find? key = some e ∧ e.outline s.types = f.outline t.types := by
  intro name c
  have run : (match exec (c.resolveNames [name "Page", name "Amount", name "Debit"]) c.fresh,
        exec (c.resolveNames [name "Debit", name "Amount", name "Page"]) c.fresh with
      | (.ok (), s), (.ok (), t) => decide (s.types.entries.map TypeEntry.key ≠ t.types.entries.map TypeEntry.key)
      | _, _ => false) = true := by decide +kernel
  split at run
  · next s t first second =>
    refine ⟨s, t, first, second, of_decide_eq_true run, ?_⟩
    exact same_in_any_order (c := c) (.add .empty _) ledger_keysApart ledger_plainAbstracts (by decide) first second
  · cases run

end SchemaGraph
