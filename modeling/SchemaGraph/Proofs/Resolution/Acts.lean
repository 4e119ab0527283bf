import SchemaGraph.Proofs.Resolution.Completed

/-! What a filling that comes to an end has done on the way.  It has asked for definitions of the set, and
otherwise worked on its own entry; what it says there of the class of values comes last. -/
namespace SchemaGraph

open Relation Stateful ResolveState

/-- A definition of the set is asked for, or no entry is touched but `id`, and that not in the class of its
values. -/
inductive Act (c : ResolveContext) (resolve : ResolveType) (id : TypeId) (s t : ResolveState) : Prop
  | ask {d : TypeDef} {site : Site} {context : Option QName} {i : TypeId} (stands : c.set.Stands d site context)
      (answered : Yields (resolve d site context) s i t)
  | still (grows : s.Grows 0 t) (size : t.types.size = s.types.size)
      (kept : ∀ i, i ≠ id → t.types.get? i = s.types.get? i)
      (kind : (t.types.get? id).map (·.simpleKind) = (s.types.get? id).map (·.simpleKind))

abbrev Acts (c : ResolveContext) (resolve : ResolveType) (id : TypeId) : ResolveState → ResolveState → Prop :=
  ReflTransGen (Act c resolve id)

section Acts

variable {c : ResolveContext} {resolve : ResolveType} {id : TypeId} {owner : String} {site : Site}
  {s t : ResolveState} {p q : Progress}

theorem Act.of_types (grows : s.Grows 0 t) (same : t.types = s.types) : Act c resolve id s t :=
  .still grows (by rw [same]) (fun _ _ => by rw [same]) (by rw [same])

theorem acts_of_modifyType {f : TypeEntry → TypeEntry} {keeps : ∀ t, (f t).key = t.key}
    (h : Yields (Resolve.modifyType id f keeps) s () t)
    (same : ∀ t, (f t).head = t.head ∧ (f t).simpleKind = t.simpleKind) : Acts c resolve id s t := by
  obtain ⟨has, rfl⟩ := yields_modifyType.1 h
  obtain ⟨type, found⟩ := Option.isSome_iff_exists.1 has
  refine .single (.still (.modify keeps (Nat.zero_le _) fun t => (same t).1) (Registry.size_modify _ _ _ keeps)
    (fun _ => Registry.get?_modify_of_ne keeps) ?_)
  rw [Registry.get?_modify_self keeps found, found, Option.map_some, Option.map_some, (same type).2]

theorem acts_of_resolveNamed {name : QName} {i : TypeId} (h : Yields (resolveNamed c resolve name) s i t) :
    Acts c resolve id s t := by
  obtain ⟨d, declared, h⟩ := yields_ofExcept_bind.1 h
  exact .single (.ask (.named (DeclarationSet.type_eq_ok_iff.1 declared)) h)

theorem acts_of_resolveRef {context : Option QName} {r : TypeRef} {answer : Option TypeId}
    (stands : ∀ d, r = .inline d → c.set.Stands d site context)
    (h : Yields (resolveRef c resolve site context r) s answer t) : Acts c resolve id s t := by
  cases r with
  | named name =>
    obtain ⟨i, h, -⟩ := yields_map.1 h
    exact acts_of_resolveNamed h
  | inline d =>
    obtain ⟨i, h, -⟩ := yields_map.1 h
    exact .single (.ask (stands d rfl) h)
  | unspecified =>
    obtain ⟨-, rfl⟩ := yields_pure.1 h
    exact .refl

theorem Act.remark (s : ResolveState) (d : Diagnostic) :
    Act c resolve id s { s with diagnostics := s.diagnostics ++ [d] } := .of_types (.diagnose 0 s d) rfl

theorem acts_of_elementPlaced {decl : ElementDecl} {answer : Option TypeId}
    (stands : c.set.StandsElement decl site) (h : ElementPlaced c resolve owner decl site p answer q) :
    Acts c resolve id p.state q.state := by
  have typed : ∀ {answer t}, Yields (resolveRef c resolve site (some decl.name) decl.typeRef) p.state answer t →
      Acts c resolve id p.state t := acts_of_resolveRef fun _ => stands.stands
  cases h with
  | entered h _ => exact typed h
  | duplicate h _ => exact (typed h).tail (.remark _ _)
  | skipped h _ =>
    have skipped := (typed h).tail (.of_types (.skip 0 _ decl.name.clark) rfl)
    exact skipped.tail (.remark _ _)

theorem acts_of_subtypePlaced {name : QName} (h : SubtypePlaced c resolve name p q) :
    Acts c resolve id p.state q.state := by
  cases h with
  | abstract => exact .refl
  | entered declared _ typed _ => exact .single (.ask (.named declared) typed)

theorem acts_of_restPlaced {decl : ElementDecl} {answer : Option TypeId}
    (h : RestPlaced c resolve owner decl answer p q) : Acts c resolve id p.state q.state := by
  cases h with
  | members _ placed =>
    refine placed.lift (I := fun p q => Acts c resolve id p.state q.state) (fun _ => .refl) (fun _ _ _ => .trans) ?_
    rintro name - p q ⟨decl, answer, declared, placed⟩
    exact acts_of_elementPlaced (DeclarationSet.standsElement_of_element? declared) placed
  | nothing => exact .refl
  | subtypes _ _ _ _ _ placed =>
    have below := placed.lift (I := fun p q => Acts c resolve id p.state q.state) (fun _ => .refl)
      (fun _ _ _ => .trans) fun _ _ _ _ => acts_of_subtypePlaced
    split
    · exact below.tail (.remark _ _)
    · exact below

theorem acts_of_leafPlaced {leaf : Leaf}
    (stands : ∀ decl site occurs, leaf = .element decl site occurs → c.set.StandsElement decl site)
    (h : LeafPlaced c resolve owner leaf p q) : Acts c resolve id p.state q.state := by
  cases h with
  | element own rest => exact (acts_of_elementPlaced (stands _ _ _ rfl) own).trans (acts_of_restPlaced rest)
  | wildcard => exact .single (.remark _ _)

variable {d : TypeDef} (owned : s.Owned c id d site)
include owned

theorem acts_of_fillComplex {x : ComplexDef} {u : ResolveState} (hx : d.complex? = some x)
    (h : Yields (fillComplex c resolve id x site) u () t) : Acts c resolve id u t := by
  obtain ⟨before, layout, found, v, -, hlayout, placed, h⟩ := leavesPlaced_of_fillComplex h
  have last : Acts c resolve id v t := acts_of_modifyType h fun _ => ⟨rfl, rfl⟩
  have content := placed.lift (I := fun p q => Acts c resolve id p.state q.state) (fun _ => .refl)
    (fun _ _ _ => .trans) fun leaf listed _ _ => acts_of_leafPlaced ?_
  · exact content.trans last
  · rintro decl place occurs rfl
    exact owned.standsElement hx hlayout listed

theorem acts_of_attributes {list : DeclarationSet.AttributeList} (hlist : c.set.inheritedAttributes [] d = .ok list)
    (h : Yields (list.attributes.forM (fillAttribute c resolve id site)) s () t) : Acts c resolve id s t := by
  refine (Through.yields_forM_iff.1 h).lift (I := Acts c resolve id) (fun _ => .refl) (fun _ _ _ => .trans) ?_
  rintro ⟨name, r⟩ listed s t h
  obtain ⟨answer, u, typed, h⟩ := yields_bind.1 h
  refine (acts_of_resolveRef ?_ typed).trans (acts_of_modifyType h fun _ => ⟨rfl, rfl⟩)
  rintro d rfl
  exact DeclarationSet.stands_of_attribute owned.mentions hlist listed

theorem acts_of_fillWith (h : Yields (fillWith c resolve id d site) s () t) :
    d.isSimple = false ∧ Acts c resolve id s t ∨
      d.isSimple = true ∧ ∃ u, Acts c resolve id s u ∧ Yields (fillScalar c resolve id d) u () t := by
  unfold fillWith at h
  obtain ⟨list, hlist, h⟩ := yields_ofExcept_bind.1 h
  obtain ⟨_, u, attributes, h⟩ := yields_bind.1 h
  obtain ⟨_, v, any, h⟩ := yields_bind.1 h
  have attributes := acts_of_attributes owned hlist attributes
  have first : Acts c resolve id s v := attributes.trans (acts_of_modifyType any fun _ => ⟨rfl, rfl⟩)
  split at h
  · next simple => exact .inr ⟨simple, v, first, h⟩
  · next complex =>
    refine .inl ⟨Bool.eq_false_iff.2 complex, ?_⟩
    split at h
    · next x hx => exact first.trans (acts_of_fillComplex owned hx h)
    · obtain ⟨-, rfl⟩ := yields_pure.1 h
      exact first

end Acts

def Adding (c : ResolveContext) (Q : ResolveState → TypeId → Prop) (resolve : ResolveType) : Prop :=
  ∀ ⦃d site context s i t⦄, c.set.Stands d site context → Yields (resolve d site context) s i t →
    s.Grows s.types.size t ∧ ∀ k, t.types.Has k → ¬ s.types.Has k → Q t k

namespace Adding

variable {c : ResolveContext} {Q : ResolveState → TypeId → Prop} {resolve : ResolveType} {id : TypeId}
  {s t : ResolveState} (adding : Adding c Q resolve)
include adding

theorem adds (hQ : Lasting Q) (acts : Acts c resolve id s t) : s.Adds Q id t := by
  induction acts with
  | refl => exact .refl id s
  | tail _ act ih =>
    refine ih.trans hQ ?_
    cases act with
    | ask stands answered =>
      obtain ⟨grows, added⟩ := adding stands answered
      exact .of_grows grows added
    | still grows size kept _ => exact .of_size_eq grows size kept

theorem kind_eq (hQ : Lasting Q) (acts : Acts c resolve id s t) (here : s.types.Has id) :
    (t.types.get? id).map (·.simpleKind) = (s.types.get? id).map (·.simpleKind) := by
  induction acts with
  | refl => rfl
  | tail before act ih =>
    rw [← ih]
    cases act with
    | ask stands answered =>
      rw [(adding stands answered).1.get?_eq ((adding.adds hQ before).grows.has here)]
    | still _ _ _ kind => exact kind

end Adding

end SchemaGraph
