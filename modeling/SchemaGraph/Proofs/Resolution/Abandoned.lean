import SchemaGraph.Proofs.Resolution.Memo

/-! What a failed request leaves behind.  A named type is entered before it is filled, and nothing takes the
entry back: the next request for the type is answered with it.  A request that fails before a type is entered
leaves the state as it was. -/
namespace SchemaGraph

open Stateful

variable {c : ResolveContext} {s t : ResolveState} {fill : Fill} {d : TypeDef} {site : Site}
  {context : Option QName} {name : QName} {e : ResolveError}

section Placeholders

/-- Every builtin datatype that can stand for a simple type has its entry. -/
def ResolveState.Stocked (s : ResolveState) : Prop :=
  ∀ p : Primitive, (s.types.lookup (QName.xsd p.builtinName).clark).isSome = true

theorem ResolveState.Stocked.later (h : s.Stocked) (ha : s.Advances t) : t.Stocked := by
  intro p
  obtain ⟨id, found⟩ := Option.isSome_iff_exists.1 (h p)
  rw [ha.lookup found]
  rfl

theorem modifyType_ends {id : TypeId} {f : TypeEntry → TypeEntry} (keeps : ∀ t, (f t).key = t.key)
    (hid : s.types.Has id) :
    Ends (Resolve.modifyType id f keeps) s (fun _ t => t.types.Has id) fun _ _ => False := by
  obtain ⟨type, found⟩ := Registry.has_iff.1 hid
  unfold Resolve.modifyType Resolve.entryAt
  rw [ends_bind]
  refine ends_map.2 ?_
  rw [ends_bind, ends_get, found]
  exact (Registry.has_modify keeps).2 hid

theorem fillWith_builtin_ends {resolve : ResolveType} {id : TypeId} {own : Option QName} {p : Primitive}
    (hid : s.types.Has id) :
    Ends (fillWith c resolve id ⟨own, false, .builtin p⟩ site) s (fun _ _ => True) fun _ _ => False := by
  have inherited : c.set.inheritedAttributes [] ⟨own, false, .builtin p⟩ = .ok ⟨[], false⟩ := by
    rw [DeclarationSet.inheritedAttributes]
    rfl
  have classified : c.set.classify [] ⟨own, false, .builtin p⟩ = .ok (.ofPrimitive p) := by
    rw [DeclarationSet.classify]
    rfl
  unfold fillWith
  rw [inherited, ends_bind, ends_ofExcept]
  change Ends ([].forM _ >>= _) s _ _
  rw [ends_bind]
  change Ends (Resolve.modifyType _ _ _ >>= _) s _ _
  rw [ends_bind]
  refine (modifyType_ends _ hid).mono (fun _ t ht => ?_) fun _ _ => False.elim
  change Ends (fillScalar c resolve id _) t _ _
  unfold fillScalar
  rw [classified, ends_bind, ends_ofExcept]
  change Ends (pure none >>= _) t _ _
  rw [ends_bind]
  exact (modifyType_ends _ ht).mono (fun _ _ _ => trivial) fun _ _ => False.elim

theorem exists_placeholder (hi : c.set.Indexed) (p : Primitive) (s : ResolveState) :
    ∃ id t, Yields (c.resolveName (.xsd p.builtinName)) s id t ∧
      t.types.lookup (QName.xsd p.builtinName).clark = some id := by
  let d : TypeDef := ⟨some (.xsd p.builtinName), false, .builtin p⟩
  have builtin : c.set.type? (.xsd p.builtinName) = some d := hi.type?_primitive p
  -- At least one type can be open, so that a new entry is filled.
  obtain ⟨depth, hdepth⟩ : ∃ depth, c.set.depthBound + d.mentions.length = depth + 1 :=
    ⟨_, Nat.add_right_comm ..⟩
  have ends : Ends (c.resolve d (siteOfType (.xsd p.builtinName)) none) s (fun _ _ => True)
      fun _ _ => False := by
    unfold ResolveContext.resolve resolveType Resolve.lookup
    rw [hdepth]
    simp only [d, ends_bind, ends_get, ends_pure]
    split
    · trivial
    · next new =>
      rw [if_pos (c.isKnown_xsd _), enterNamed, ends_bind]
      refine (reserve_ends _ _ s).mono (fun id t found => ?_) ?_
      · rw [ends_bind]
        exact fillWith_builtin_ends (Registry.has_of_lookup found)
      · rintro _ _ ⟨-, taken⟩
        rw [new] at taken
        cases taken
  obtain ⟨id, t, h, -⟩ := ends.exists_yields
  have known := c.isKnown_xsd p.builtinName
  have remembered := ResolveContext.resolve_remembers (ResolveContext.own_of_name rfl (.inl known)) h
  exact ⟨id, t, ResolveContext.resolveName_eq builtin ▸ h, remembered.lookup_named rfl⟩

theorem exists_placeholders (hi : c.set.Indexed) (l : List Primitive) (hs : s.Sound c) :
    ∃ t, Yields (l.forM fun p => discard (c.resolveName (.xsd p.builtinName))) s () t ∧ s.Advances t ∧
      ∀ p ∈ l, (t.types.lookup (QName.xsd p.builtinName).clark).isSome = true := by
  induction l generalizing s with
  | nil => exact ⟨s, yields_pure.2 ⟨rfl, rfl⟩, .refl s, nofun⟩
  | cons p l ih =>
    obtain ⟨id, t, first, found⟩ := exists_placeholder hi p s
    have answered : Yields (c.answer (.named (.xsd p.builtinName))) s (some id) t :=
      yields_map.2 ⟨id, first, rfl⟩
    obtain ⟨advances, sound⟩ := ResolveContext.keeps_of_exec answered hs
    obtain ⟨u, rest, advances', all⟩ := ih sound
    refine ⟨u, yields_bind.2 ⟨(), t, yields_map.2 ⟨id, first, rfl⟩, rest⟩, advances.trans advances', ?_⟩
    rw [List.forall_mem_cons, advances'.lookup found]
    exact ⟨rfl, all⟩

theorem stocked_stateAfter (hi : c.set.Indexed) (requests : List Request) :
    (c.stateAfter requests).Stocked := by
  obtain ⟨t, h, -, stocked⟩ := exists_placeholders hi [.string, .boolean, .decimal] (.empty c)
  have fresh : c.fresh = t := congrArg Prod.snd h
  have stocked : c.fresh.Stocked := by
    rw [fresh]
    intro p
    exact stocked p (by cases p <;> simp)
  exact stocked.later (c.foldl_next_keeps requests c.sound_fresh).1

end Placeholders

section Failing

def ResolveContext.ForeignFault (c : ResolveContext) (d : TypeDef) (name : QName) (e : ResolveError) : Prop :=
  if d.isSimple then c.set.primitiveOfType d = .error e else e = .foreignType name

theorem fails_foreign_iff (hname : d.name = some name) (foreign : c.isKnown name = false)
    (stocked : s.Stocked) (new : s.types.lookup name.clark = none) :
    Fails (resolveType c fill d site context) s e t ↔ c.ForeignFault d name e ∧ t = s := by
  rw [fails_iff_ends]
  unfold ResolveContext.ForeignFault resolveType Resolve.lookup
  rw [hname]
  simp only [ends_bind, ends_get, ends_pure, new, foreign]
  cases d.isSimple with
  | false =>
    simp [eq_comm]
  | true =>
    unfold placeholder Resolve.lookup
    simp only [if_true, Bool.false_eq_true, if_false, ends_bind, ends_ofExcept]
    cases c.set.primitiveOfType d with
    | error e' => simp [Settles, eq_comm]
    | ok p =>
      obtain ⟨id, found⟩ := Option.isSome_iff_exists.1 (stocked p)
      simp [Settles, found]

theorem lookup_of_fails (hname : d.name = some name) (hs : s.Sound c)
    (h : Fails (resolveType c fill d site context) s e t) : s.types.lookup name.clark = none := by
  cases found : s.types.lookup name.clark with
  | none => rfl
  | some id => exact absurd h (ResolveState.Remembers.named hname found |>.again hs fill).not_fails

theorem reserved_of_fails (hname : d.name = some name) (known : c.isKnown name = true)
    (new : s.types.lookup name.clark = none) (h : Fails (resolveType c fill d site context) s e t) :
    ∃ id s', Yields (Resolve.reserve name d.isAbstract) s id s' ∧
      s'.types.lookup name.clark = some id ∧ Fails (fill id d site) s' e t := by
  rw [fails_iff_ends] at h
  unfold resolveType Resolve.lookup at h
  rw [hname] at h
  simp only [ends_bind, ends_get, ends_pure, new, known, if_true] at h
  rw [← fails_iff_ends, enterNamed, fails_bind] at h
  rcases h with h | ⟨id, s', reserved, h⟩
  · obtain ⟨-, taken⟩ := (reserve_ends name d.isAbstract s).fault h
    rw [new] at taken
    cases taken
  · rcases fails_bind.1 h with h | ⟨_, _, -, h⟩
    · exact ⟨id, s', reserved, (reserve_ends name d.isAbstract s).answer reserved, h⟩
    · exact absurd h not_fails_pure

theorem exists_abandoned (hname : d.name = some name) (known : c.isKnown name = true) (hs : s.Sound c)
    (h : Fails (c.resolve d site context) s e t) :
    s.types.lookup name.clark = none ∧ ∃ id s' entry,
      Yields (Resolve.reserve name d.isAbstract) s id s' ∧
      Fails (fillTo c (c.set.depthBound + d.mentions.length) id d site) s' e t ∧
      t.types.get? id = some entry ∧ entry.key = name.clark := by
  have new := lookup_of_fails hname hs h
  obtain ⟨id, s', reserved, found, abandoned⟩ := reserved_of_fails hname known new h
  have found := ((fillTo_adds c _ s' id d site s' (.refl 0 s')).fault abandoned).lookup found
  obtain ⟨entry, hentry, hkey⟩ := Option.map_eq_some_iff.1 (Registry.lookup_eq_some_iff.1 found)
  exact ⟨new, id, s', entry, reserved, abandoned, hentry, hkey⟩

theorem fails_undeclared_iff (undeclared : c.set.type? name = none) :
    Fails (c.resolveName name) s e t ↔ e = .dangling .type name "resolver" ∧ t = s := by
  rw [fails_iff_ends]
  unfold ResolveContext.resolveName resolveNamed DeclarationSet.type
  rw [undeclared, ends_bind, ends_ofExcept]
  simp [Settles, eq_comm]

/-- A type in a known namespace that could not be filled stays entered as the fault has left it, and from then
on it is what the name is answered with.  For any other name a fault leaves no trace, and it is met again unless
the name is declared and an entry has got its key in the meantime. -/
theorem answered_after_fault (hc : c.set.Built) {requests : List Request}
    (h : Fails (c.resolveName name) (c.stateAfter requests) e t) (later : List Request) :
    let s := c.stateAfter requests
    let u := later.foldl c.next t
    (∀ d, c.set.type? name = some d → c.isKnown name = true →
      s.types.lookup name.clark = none ∧ ∃ id s' entry,
        Yields (Resolve.reserve name d.isAbstract) s id s' ∧
        Fails (fillTo c (c.set.depthBound + d.mentions.length) id d (siteOfType name)) s' e t ∧
        t.types.get? id = some entry ∧ entry.key = name.clark ∧ u.types.get? id = some entry ∧
        Yields (c.resolveName name) u id u) ∧
    (c.set.type? name = none → t = s ∧ Fails (c.resolveName name) u e u) ∧
    ∀ d, c.set.type? name = some d → c.isKnown name = false → t = s ∧
      match u.types.lookup name.clark with
      | none => Fails (c.resolveName name) u e u
      | some id => Yields (c.resolveName name) u id u := by
  intro s u
  have sound : s.Sound c := c.sound_stateAfter requests
  have failed : Fails (c.answer (.named name)) s e t := fails_map.2 h
  obtain ⟨advances, soundT⟩ := ResolveContext.keeps_of_exec failed sound
  obtain ⟨advances', soundU⟩ := c.foldl_next_keeps later soundT
  refine ⟨fun d declared known => ?_, fun undeclared => ?_, fun d declared foreign => ?_⟩
  · rw [ResolveContext.resolveName_eq declared] at h
    obtain ⟨new, id, s', entry, reserved, abandoned, hentry, hkey⟩ :=
      exists_abandoned (hc.indexed.name_of_type? declared) known sound h
    have kept := advances'.get?_eq hentry
    have found : u.types.lookup name.clark = some id := by
      rw [Registry.lookup_eq_some_iff, kept, ← hkey]
      rfl
    exact ⟨new, id, s', entry, reserved, abandoned, hentry, hkey, kept,
      ResolveContext.resolveName_of_lookup hc.indexed soundU declared found⟩
  · obtain ⟨rfl, same⟩ := (fails_undeclared_iff undeclared).1 h
    exact ⟨same, (fails_undeclared_iff undeclared).2 ⟨rfl, rfl⟩⟩
  · rw [ResolveContext.resolveName_eq declared] at h
    have own := hc.indexed.name_of_type? declared
    have stocked := stocked_stateAfter hc.indexed requests
    obtain ⟨fault, same⟩ := (fails_foreign_iff own foreign stocked (lookup_of_fails own sound h)).1 h
    refine ⟨same, ?_⟩
    split
    · next new =>
      rw [ResolveContext.resolveName_eq declared]
      exact (fails_foreign_iff own foreign (stocked.later (advances.trans advances')) new).2 ⟨fault, rfl⟩
    · next id found => exact ResolveContext.resolveName_of_lookup hc.indexed soundU declared found

end Failing

theorem contact_answered :
    let contact : QName := ⟨some "urn:directory", "Contact"⟩
    let c : ResolveContext := ⟨directory, .ofSet directory, {}, {}⟩
    ∃ t id entry, Fails (c.resolveName contact) c.fresh (.missingChoiceGroup contact.clark none) t ∧
      t.types.get? id = some entry ∧ entry.elements.keys = [] ∧
      Yields (c.resolveName contact) t id t := by
  intro contact c
  have run : ((directory.type? contact).isSome && match exec (c.resolveName contact) c.fresh with
      | (.ok _, _) => false
      | (.error e, t) => decide (e = .missingChoiceGroup contact.clark none) &&
        t.types.entries.all fun entry => decide (entry.elements.keys = [])) = true := by decide +kernel
  obtain ⟨declared, run⟩ := Bool.and_eq_true_iff.1 run
  obtain ⟨d, declared⟩ := Option.isSome_iff_exists.1 declared
  split at run
  · cases run
  · next e t failed =>
    rw [Bool.and_eq_true, decide_eq_true_eq, List.all_eq_true] at run
    obtain ⟨rfl, empty⟩ := run
    have built : directory.Built := .add .empty _
    have failed : Fails (c.resolveName contact) (c.stateAfter []) _ t := failed
    obtain ⟨left, -⟩ := answered_after_fault (c := c) built failed []
    obtain ⟨-, id, _, entry, -, -, hentry, -, -, again⟩ := left d declared (by decide)
    have keys := empty entry (List.mem_of_getElem? hentry)
    exact ⟨t, id, entry, failed, hentry, by simpa using keys, again⟩

end SchemaGraph
