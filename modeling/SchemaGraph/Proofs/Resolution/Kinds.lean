import SchemaGraph.Proofs.Resolution.Acts
import SchemaGraph.Proofs.Resolution.Classes
import SchemaGraph.Proofs.Resolution.Completeness
import SchemaGraph.Proofs.Resolution.Order

/-! What entries say of the class of their values.  It is read off the definition that the entry is filled
with; the item type of a list is whatever the name of the items leads to. -/
namespace SchemaGraph

open Stateful

def TypeEntry.withClass (x : ScalarClass) (listItem : Option TypeId) (t : TypeEntry) : TypeEntry :=
  { t with simpleKind := some x.kind, enumValues := x.enumValues, listItem }

namespace ResolveState

/-- What is answered for a name: the entry under its text, or the builtin datatype that stands for its type. -/
inductive LeadsTo (c : ResolveContext) (s : ResolveState) (name : QName) (id : TypeId) : Prop
  | own {d : TypeDef} (declared : c.set.type? name = some d) (found : s.types.lookup name.clark = some id)
  | standIn {d : TypeDef} {p : Primitive} (declared : c.set.type? name = some d) (unknown : c.isKnown name = false)
      (stands : c.set.primitiveOfType d = .ok p) (found : s.types.lookup (QName.xsd p.builtinName).clark = some id)

/-- The entry says what its definition says of the class of its values. -/
inductive Told (c : ResolveContext) (s : ResolveState) (id : TypeId) : Prop
  | complex {d : TypeDef} {site : Site} {type : TypeEntry} (owned : s.Owned c id d site)
      (complex : d.isSimple = false) (entry : s.types.get? id = some type) (kind : type.simpleKind = none)
  | simple {d : TypeDef} {site : Site} {type : TypeEntry} {x : ScalarClass} (owned : s.Owned c id d site)
      (simple : d.isSimple = true) (hasClass : c.set.HasClass d x) (entry : s.types.get? id = some type)
      (kind : type.simpleKind = some x.kind)
      (item : ∀ item, x.listItem = some item → ∃ j, type.listItem = some j ∧ s.LeadsTo c item j)

variable {c : ResolveContext} {s t : ResolveState} {id : TypeId}

theorem LeadsTo.later {n : Nat} {name : QName} (h : s.LeadsTo c name id) (grows : s.Grows n t) :
    t.LeadsTo c name id := by
  cases h with
  | own declared found => exact .own declared (grows.lookup found)
  | standIn declared unknown stands found => exact .standIn declared unknown stands (grows.lookup found)

theorem lasting_told (c : ResolveContext) : Lasting (Told c) := by
  intro s t id told grows kept
  cases told with
  | complex owned complex entry kind => exact .complex (owned.later grows) complex (kept.trans entry) kind
  | simple owned simple hasClass entry kind item =>
    refine .simple (owned.later grows) simple hasClass (kept.trans entry) kind fun name hname => ?_
    obtain ⟨j, hj, leads⟩ := item name hname
    exact ⟨j, hj, leads.later grows⟩

theorem Told.withElements {elements : ElementMap} (h : s.Told c id) : Told c { s with elements } id := by
  cases h with
  | complex own complex entry kind => exact .complex (own.of_eq rfl rfl) complex entry kind
  | simple own simple hasClass entry kind item =>
    refine .simple (own.of_eq rfl rfl) simple hasClass entry kind fun name hname => ?_
    obtain ⟨j, hj, leads⟩ := item name hname
    refine ⟨j, hj, ?_⟩
    cases leads with
    | own declared found => exact .own declared found
    | standIn declared unknown stands found => exact .standIn declared unknown stands found

end ResolveState

open ResolveState

/-- When an entry has been filled, it has been told, and so has everything that was entered meanwhile. -/
def Tells (c : ResolveContext) (fill : Fill) : Prop :=
  ∀ ⦃id d site s t⦄, s.Owned c id d site → (s.types.get? id).map (·.simpleKind) = some none →
    Yields (fill id d site) s () t → s.Adds (Told c) id t ∧ t.Told c id

section Filling

variable {c : ResolveContext} {s t : ResolveState} {id : TypeId} {d : TypeDef} {site : Site}

theorem leadsTo_of_resolveNamed {fill : Fill} {name : QName} (hi : c.set.Indexed)
    (hfill : ∀ s id d site, Keeps (ResolveState.Grows 0 s) (fill id d site))
    (h : Yields (resolveNamed c (resolveType c fill) name) s id t) : t.LeadsTo c name id := by
  obtain ⟨d, declared, h⟩ := yields_ofExcept_bind.1 h
  have declared := DeclarationSet.type_eq_ok_iff.1 declared
  have own := hi.name_of_type? declared
  cases resolved_of_resolveType h with
  | named own' found =>
    obtain rfl := Option.some.inj (own.symm.trans own')
    exact .own declared found
  | enterNamed own' _ entered =>
    obtain rfl := Option.some.inj (own.symm.trans own')
    exact .own declared ((enterNamed_enters hfill name).answer entered)
  | standIn other _ stands found => exact .standIn declared (other name own) stands found
  | enterStandIn other _ stands _ entered =>
    exact .standIn declared (other name own) stands ((enterNamed_enters hfill _).answer entered)

variable {resolve : ResolveType}

theorem asked_of_fillScalar (h : Yields (fillScalar c resolve id d) s () t) :
    ∃ x answer u, c.set.classify [] d = .ok x ∧
      (x.listItem = none ∧ answer = none ∧ u = s ∨
        ∃ name j, x.listItem = some name ∧ answer = some j ∧ Yields (resolveNamed c resolve name) s j u) ∧
      Yields (Resolve.modifyType id (TypeEntry.withClass x answer)) u () t := by
  unfold fillScalar at h
  obtain ⟨x, hx, h⟩ := yields_ofExcept_bind.1 h
  dsimp only at h
  split at h
  · next name hname =>
    obtain ⟨_, u, asked, h⟩ := yields_bind.1 h
    obtain ⟨j, answered, rfl⟩ := yields_map.1 asked
    exact ⟨x, some j, u, hx, .inr ⟨name, j, hname, rfl, answered⟩, h⟩
  · next none =>
    obtain ⟨_, _, nothing, h⟩ := yields_bind.1 h
    obtain ⟨rfl, rfl⟩ := yields_pure.1 nothing
    exact ⟨x, _, _, hx, .inl ⟨none, rfl, rfl⟩, h⟩

variable (adding : Adding c (Told c) resolve)
include adding

theorem told_of_fillScalar (leads : ∀ ⦃name s i t⦄, Yields (resolveNamed c resolve name) s i t → t.LeadsTo c name i)
    (owned : s.Owned c id d site) (simple : d.isSimple = true) (h : Yields (fillScalar c resolve id d) s () t) :
    s.Adds (Told c) id t ∧ t.Told c id := by
  obtain ⟨x, answer, u, hx, asked, h⟩ := asked_of_fillScalar h
  have adds : s.Adds (Told c) id u := by
    obtain ⟨-, -, rfl⟩ | ⟨name, j, -, -, answered⟩ := asked
    · exact .refl id u
    · exact adding.adds (lasting_told c) (acts_of_resolveNamed answered)
  have item : ∀ name, x.listItem = some name → ∃ j, answer = some j ∧ u.LeadsTo c name j := by
    intro name hname
    obtain ⟨none, -, -⟩ | ⟨name', j, hname', rfl, answered⟩ := asked
    · cases none.symm.trans hname
    · obtain rfl := Option.some.inj (hname'.symm.trans hname)
      exact ⟨j, rfl, leads answered⟩
  obtain ⟨has, rfl⟩ := yields_modifyType.1 h
  obtain ⟨type, found⟩ := Option.isSome_iff_exists.1 has
  have keeps : ∀ t : TypeEntry, (t.withClass x answer).key = t.key := fun _ => rfl
  have grows : u.Grows 0 { u with types := u.types.modify id (TypeEntry.withClass x answer) keeps } :=
    .modify keeps (Nat.zero_le _) fun _ => rfl
  have own : u.Adds (Told c) id _ :=
    .of_size_eq grows (Registry.size_modify _ _ _ keeps) fun _ => Registry.get?_modify_of_ne keeps
  refine ⟨adds.trans (lasting_told c) own, ?_⟩
  refine .simple ((owned.later adds.grows).later grows) simple (DeclarationSet.hasClass_of_classify hx)
    (Registry.get?_modify_self keeps found) rfl fun name hname => ?_
  obtain ⟨j, rfl, leads⟩ := item name hname
  exact ⟨j, rfl, leads.later grows⟩

theorem tells_fillWith (leads : ∀ ⦃name s i t⦄, Yields (resolveNamed c resolve name) s i t → t.LeadsTo c name i) :
    Tells c (fillWith c resolve) := by
  intro id d site s t owned blank h
  rcases acts_of_fillWith owned h with ⟨complex, acts⟩ | ⟨simple, u, acts, h⟩
  · have adds := adding.adds (lasting_told c) acts
    have kind := (adding.kind_eq (lasting_told c) acts owned.has).trans blank
    obtain ⟨type, entry, kind⟩ := Option.map_eq_some_iff.1 kind
    exact ⟨adds, .complex (owned.later adds.grows) complex entry kind⟩
  · have adds := adding.adds (lasting_told c) acts
    obtain ⟨adds', told⟩ := told_of_fillScalar adding leads (owned.later adds.grows) simple h
    exact ⟨adds.trans (lasting_told c) adds', told⟩

omit adding

variable (unnamed : ∀ d context, Mention.inline d context ∈ c.set.mentions → d.name = none)
  (hi : c.set.Indexed)
include unnamed hi

theorem adding_of_tells {depth : Nat} (tells : Tells c (fillTo c depth)) :
    Adding c (Told c) (resolveType c (fillTo c depth)) := by
  intro d site context s id t stands h
  refine ⟨(resolve_grows c depth s d site context s (.refl _ s)).answer h, fun k there new => ?_⟩
  rcases enters_of_resolveType unnamed hi stands h with rfl | ⟨d', site', u, entered, filled⟩
  · exact absurd there new
  · obtain ⟨name, blank⟩ := entered.blank
    obtain ⟨adds, told⟩ := tells entered.owned (by rw [blank]; rfl) filled
    exact adds.of_enters entered told there new

theorem tells_fillTo (depth : Nat) : Tells c (fillTo c depth) := by
  induction depth with
  | zero => exact fun _ _ _ _ _ _ _ h => absurd h not_yields_throw
  | succ depth ih =>
    exact tells_fillWith (adding_of_tells unnamed hi ih) fun _ _ _ _ =>
      leadsTo_of_resolveNamed hi (fillTo_adds c depth)

end Filling

section Runs

variable {c : ResolveContext} {s t : ResolveState}

def ResolveState.AllTold (c : ResolveContext) (s : ResolveState) : Prop := ∀ id, s.types.Has id → s.Told c id

variable (unnamed : ∀ d context, Mention.inline d context ∈ c.set.mentions → d.name = none) (hi : c.set.Indexed)
include unnamed hi

theorem allTold_of_acts {id : TypeId} (outside : ¬ t.types.Has id) (hs : s.AllTold c) (acts : Acts c c.resolve id s t) :
    t.AllTold c := by
  have adding : Adding c (Told c) c.resolve := fun _ _ _ _ _ _ stands h =>
    adding_of_tells unnamed hi (tells_fillTo unnamed hi _) stands h
  have adds := adding.adds (lasting_told c) acts
  intro i there
  have other : i ≠ id := fun same => outside (same ▸ there)
  by_cases here : s.types.Has i
  · exact lasting_told c s t i (hs i here) adds.grows (adds.kept i other here)
  · exact adds.added i other there here

theorem allTold_of_load {a : Load} (hs : s.AllTold c) (h : Yields (c.load a) s () t) : t.AllTold c := by
  have outside : ∀ t : ResolveState, ¬ t.types.Has ⟨t.types.size⟩ := fun t => Nat.lt_irrefl _
  cases a with
  | type name =>
    obtain ⟨id, h, -⟩ := yields_map.1 h
    exact allTold_of_acts unnamed hi (outside t) hs (acts_of_resolveNamed h)
  | element name =>
    obtain ⟨decl, elements, key, u, declared, rfl, added, rfl⟩ := ResolveContext.exists_added_of_load hi h
    have stands := DeclarationSet.standsElement_of_element? declared
    have acts : Acts c c.resolve ⟨u.types.size⟩ s u := acts_of_elementPlaced stands (elementPlaced_of_elementAdded added)
    exact fun i there => (allTold_of_acts unnamed hi (outside u) hs acts i there).withElements

theorem allTold_of_resolveNames {names : List QName} (hs : s.AllTold c) (h : Yields (c.resolveNames names) s () t) :
    t.AllTold c := by
  induction names generalizing s with
  | nil =>
    obtain ⟨-, rfl⟩ := yields_pure.1 h
    exact hs
  | cons name names ih =>
    obtain ⟨id, u, first, rest⟩ := yields_resolveNames_cons.1 h
    exact ih (allTold_of_load unnamed hi (a := .type name) hs (yields_map.2 ⟨id, first, rfl⟩)) rest

theorem allTold_of_loads {l : List Load} (hs : s.AllTold c) (h : c.Loads l s t) : t.AllTold c :=
  h.lift (I := fun s t => s.AllTold c → t.AllTold c) (fun _ => id) (fun _ _ _ first rest => rest ∘ first)
    (fun _ _ _ _ load hs => allTold_of_load unnamed hi hs load) hs

theorem exists_allTold_of_graph {g : TypeGraph} (h : c.graph = .ok g) :
    ∃ t : ResolveState, g = t.graph ∧ t.AllTold c := by
  obtain ⟨t, loads, rfl⟩ := ResolveContext.exists_loads_of_graph h
  have fresh : c.fresh.AllTold c :=
    allTold_of_resolveNames unnamed hi (s := .empty) (fun _ => nofun) (yields_fresh c hi)
  exact ⟨t, rfl, allTold_of_loads unnamed hi fresh loads⟩

end Runs

end SchemaGraph
