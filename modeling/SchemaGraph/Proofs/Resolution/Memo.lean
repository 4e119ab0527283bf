import SchemaGraph.Proofs.Linking.Built
import SchemaGraph.Proofs.Resolution.Requests

/-! Resolution as a memo.  Whatever a definition has once led to is remembered: by its key, and for an
inline definition by its site as well.  What is remembered stays so, whatever is asked for later, and asking
for it again changes nothing. -/
namespace SchemaGraph

open Stateful

namespace ResolveState

variable {c : ResolveContext} {s t : ResolveState}

namespace Advances

theorem get?_eq {id : TypeId} {type : TypeEntry} (h : s.Advances t) (ht : s.types.get? id = some type) :
    t.types.get? id = some type := by
  obtain ⟨rest, hrest⟩ := h.entries
  have inside := (List.getElem?_eq_some_iff.1 ht).1
  rw [Registry.get?, ← hrest, List.getElem?_append_left inside]
  exact ht

theorem lookup {key : String} {id : TypeId} (h : s.Advances t) (hid : s.types.lookup key = some id) :
    t.types.lookup key = some id := by
  rw [Registry.lookup_eq_some_iff] at hid ⊢
  obtain ⟨type, ht, hkey⟩ := Option.map_eq_some_iff.1 hid
  rw [h.get?_eq ht, ← hkey]
  rfl

end Advances

theorem Sound.lookup_anonymous_iff (h : s.Sound c) {id : TypeId} {site : Site} :
    s.anonymous.lookup id = some site ↔ (id, site) ∈ s.anonymous :=
  (OrderedMap.mem_entries_iff ⟨s.anonymous, h.sites⟩ id site).symm

/-- The definition `d` at a site, declared inline in the element `context` if any, leads to `id` without
anything being resolved. -/
inductive Remembers (c : ResolveContext) (s : ResolveState) :
    TypeDef → Site → Option QName → TypeId → Prop
  | named {d : TypeDef} {site : Site} {context : Option QName} {id : TypeId} {name : QName}
      (hname : d.name = some name) (found : s.types.lookup name.clark = some id) :
      Remembers c s d site context id
  | builtin {d : TypeDef} {site : Site} {context : Option QName} {id : TypeId} {p : Primitive}
      (hname : d.name = none) (simple : d.isSimple = true) (stands : c.set.primitiveOfType d = .ok p)
      (found : s.types.lookup (QName.xsd p.builtinName).clark = some id) : Remembers c s d site context id
  | inline {d : TypeDef} {site : Site} {element : QName} {id : TypeId}
      (hname : d.name = none) (complex : d.isSimple = false)
      (found : s.types.lookup (element.localName ++ "AnonType") = some id)
      (owner : (id, site) ∈ s.anonymous) : Remembers c s d site (some element) id

namespace Remembers

variable {d : TypeDef} {site : Site} {context : Option QName} {id : TypeId}

theorem later (h : s.Remembers c d site context id) (ha : s.Advances t) :
    t.Remembers c d site context id := by
  cases h with
  | named hname found => exact .named hname (ha.lookup found)
  | builtin hname simple stands found => exact .builtin hname simple stands (ha.lookup found)
  | inline hname complex found owner =>
    exact .inline hname complex (ha.lookup found) (ha.anonymous.subset owner)

theorem lookup_named {name : QName} (h : s.Remembers c d site context id) (hname : d.name = some name) :
    s.types.lookup name.clark = some id := by
  cases h with
  | named hname' found =>
    obtain rfl := Option.some.inj (hname'.symm.trans hname)
    exact found
  | builtin hname' _ _ _ | inline hname' _ _ _ => cases hname'.symm.trans hname

theorem lookup_inline {element : QName} (h : s.Remembers c d site (some element) id)
    (hname : d.name = none) (complex : d.isSimple = false) :
    s.types.lookup (element.localName ++ "AnonType") = some id ∧ (id, site) ∈ s.anonymous := by
  cases h with
  | named hname' _ => cases hname'.symm.trans hname
  | builtin _ simple _ _ => cases simple.symm.trans complex
  | inline _ _ found owner => exact ⟨found, owner⟩

theorem again (h : s.Remembers c d site context id) (hs : s.Sound c) (fill : Fill) :
    Yields (resolveType c fill d site context) s id s := by
  rw [yields_iff_ends]
  unfold resolveType
  cases h with
  | named hname found =>
    rw [hname]
    change Ends (Resolve.lookup _ >>= _) s _ _
    unfold Resolve.lookup
    simp [ends_bind, found]
  | builtin hname simple stands found =>
    rw [hname, simple]
    unfold placeholder Resolve.lookup
    simp [ends_bind, ends_ofExcept, stands, Settles, found]
  | inline hname complex found owner =>
    rw [hname, complex]
    unfold Resolve.lookup
    simp [ends_bind, found, hs.lookup_anonymous_iff.2 owner]

end Remembers

end ResolveState

theorem fillTo_adds (c : ResolveContext) (depth : Nat) (s : ResolveState) (id : TypeId) (d : TypeDef)
    (site : Site) : Keeps (s.Grows 0) (fillTo c depth id d site) :=
  fillTo_grows (Nat.zero_le _) depth id d site (Nat.zero_le _)

section Inversion

variable {c : ResolveContext} {fill : Fill} {s t : ResolveState} {id : TypeId} {d : TypeDef} {site : Site}
  {context : Option QName}

theorem yields_lookup_bind {α : Type} {key : String} {f : Option TypeId → Resolve α} {a : α} :
    Yields (Resolve.lookup key >>= f) s a t ↔ Yields (f (s.types.lookup key)) s a t := by
  unfold Resolve.lookup
  simp only [yields_bind, yields_get, yields_pure]
  constructor
  · rintro ⟨_, _, ⟨_, _, ⟨rfl, rfl⟩, rfl, rfl⟩, h⟩
    exact h
  · exact fun h => ⟨_, s, ⟨s, s, ⟨rfl, rfl⟩, rfl, rfl⟩, h⟩

theorem yields_reserve {name : QName} {isAbstract : Bool} (h : Yields (Resolve.reserve name isAbstract) s id t) :
    ∃ types, s.types.reserve? { name, isAbstract } = some (id, types) ∧ t = { s with types } := by
  unfold Resolve.reserve at h
  rw [yields_bind] at h
  obtain ⟨u, v, hget, h⟩ := h
  obtain ⟨rfl, rfl⟩ := yields_get.1 hget
  split at h
  · next id' types reserved =>
    simp only [yields_bind, yields_modify, yields_pure] at h
    obtain ⟨_, _, rfl, rfl, rfl⟩ := h
    exact ⟨types, reserved, rfl⟩
  · exact absurd h not_yields_throw

variable (c fill d site s id) in
/-- What a definition comes to: an entry that is there, or one that is entered and filled. -/
inductive Resolved : Option QName → ResolveState → Prop
  | named {context : Option QName} {name : QName} (own : d.name = some name)
      (found : s.types.lookup name.clark = some id) : Resolved context s
  | enterNamed {context : Option QName} {name : QName} {t : ResolveState} (own : d.name = some name)
      (known : c.isKnown name = true) (entered : Yields (enterNamed fill name d site) s id t) :
      Resolved context t
  | standIn {context : Option QName} {p : Primitive} (other : ∀ name, d.name = some name → c.isKnown name = false)
      (simple : d.isSimple = true) (stands : c.set.primitiveOfType d = .ok p)
      (found : s.types.lookup (QName.xsd p.builtinName).clark = some id) : Resolved context s
  | enterStandIn {context : Option QName} {p : Primitive} {builtin : TypeDef} {t : ResolveState}
      (other : ∀ name, d.name = some name → c.isKnown name = false) (simple : d.isSimple = true)
      (stands : c.set.primitiveOfType d = .ok p) (declared : c.set.type? (.xsd p.builtinName) = some builtin)
      (entered : Yields (SchemaGraph.enterNamed fill (.xsd p.builtinName) builtin
        (siteOfType (.xsd p.builtinName))) s id t) : Resolved context t
  | inline {element : QName} (unnamed : d.name = none) (complex : d.isSimple = false)
      (found : s.types.lookup (element.localName ++ "AnonType") = some id)
      (own : s.anonymous.lookup id = some site) : Resolved (some element) s
  | enterInline {element : QName} {types : Registry} {t : ResolveState} (unnamed : d.name = none)
      (complex : d.isSimple = false)
      (reserved : s.types.reserve?
        { name := ⟨none, element.localName ++ "AnonType"⟩, isAbstract := d.isAbstract } = some (id, types))
      (filled : Yields (fill id d site) { s with types, anonymous := (id, site) :: s.anonymous } () t) :
      Resolved (some element) t

theorem resolved_of_placeholder (other : ∀ name, d.name = some name → c.isKnown name = false)
    (simple : d.isSimple = true) (h : Yields (placeholder c fill d) s id t) :
    Resolved c fill s id d site context t := by
  unfold placeholder at h
  obtain ⟨p, stands, h⟩ := yields_ofExcept_bind.1 h
  rw [yields_lookup_bind] at h
  split at h
  · next i found =>
    obtain ⟨rfl, rfl⟩ := yields_pure.1 h
    exact .standIn other simple stands found
  · obtain ⟨builtin, declared, h⟩ := yields_ofExcept_bind.1 h
    exact .enterStandIn other simple stands (DeclarationSet.type_eq_ok_iff.1 declared) h

theorem resolved_of_resolveType (h : Yields (resolveType c fill d site context) s id t) :
    Resolved c fill s id d site context t := by
  unfold resolveType at h
  split at h
  · next name own =>
    rw [yields_lookup_bind] at h
    split at h
    · next i found =>
      obtain ⟨rfl, rfl⟩ := yields_pure.1 h
      exact .named own found
    · split at h
      · next known => exact .enterNamed own known h
      · next unknown =>
        have other : ∀ name, d.name = some name → c.isKnown name = false := by
          intro name' own'
          obtain rfl := Option.some.inj (own.symm.trans own')
          exact Bool.eq_false_iff.2 unknown
        split at h
        · next simple => exact resolved_of_placeholder other simple h
        · exact absurd h not_yields_throw
  · next unnamed =>
    split at h
    · next simple => exact resolved_of_placeholder (fun _ own => by cases unnamed.symm.trans own) simple h
    · next complex =>
      have complex := Bool.eq_false_iff.2 complex
      split at h
      · exact absurd h not_yields_throw
      rw [yields_lookup_bind] at h
      split at h
      · next i found =>
        obtain ⟨u, v, hget, h⟩ := yields_bind.1 h
        obtain ⟨rfl, rfl⟩ := yields_get.1 hget
        split at h
        · next own =>
          obtain ⟨rfl, rfl⟩ := yields_pure.1 h
          exact .inline unnamed complex found own
        · exact absurd h not_yields_throw
      · obtain ⟨i, u, entered, h⟩ := yields_bind.1 h
        simp only [yields_bind, yields_modify, yields_pure] at h
        obtain ⟨_, _, rfl, _, _, filled, rfl, rfl⟩ := h
        obtain ⟨types, reserved, rfl⟩ := yields_reserve entered
        exact .enterInline unnamed complex reserved filled

end Inversion

section Entering

variable {c : ResolveContext} {s : ResolveState} {fill : Fill} {d : TypeDef} {site : Site}
  {context : Option QName}

theorem reserve_ends (name : QName) (isAbstract : Bool) (s : ResolveState) :
    Ends (Resolve.reserve name isAbstract) s
      (fun id t => t.types.lookup name.clark = some id)
      fun _ t => t = s ∧ (s.types.lookup name.clark).isSome = true := by
  unfold Resolve.reserve
  rw [ends_bind, ends_get]
  split
  · next id types h => exact Registry.lookup_reserve h
  · next h => exact ⟨rfl, Registry.reserve?_eq_none_iff.1 h⟩

variable (hfill : ∀ s id d site, Keeps (ResolveState.Grows 0 s) (fill id d site))
include hfill

theorem enterNamed_enters (name : QName) :
    Ends (enterNamed fill name d site) s
      (fun id t => t.types.lookup name.clark = some id)
      fun _ t => (t.types.lookup name.clark).isSome = true := by
  unfold enterNamed
  rw [ends_bind]
  refine (reserve_ends name d.isAbstract s).mono (fun id t ht => ?_) fun _ t h => h.1 ▸ h.2
  rw [ends_bind]
  refine (hfill t id d site t (.refl 0 t)).mono (fun _ u hu => hu.lookup ht) fun _ u hu => ?_
  rw [hu.lookup ht]
  rfl

/-- Whatever a definition leads to is remembered, unless a builtin datatype stands for a name that has no
entry of its own. -/
theorem resolveType_remembers {id : TypeId} {t : ResolveState}
    (hd : ∀ name, d.name = some name → c.isKnown name = true ∨ d.isSimple = false)
    (h : Yields (resolveType c fill d site context) s id t) : t.Remembers c d site context id := by
  have unnamed (other : ∀ name, d.name = some name → c.isKnown name = false) (simple : d.isSimple = true) :
      d.name = none := by
    refine Option.eq_none_iff_forall_ne_some.2 fun name own => ?_
    have complex := (hd name own).resolve_left (Bool.eq_false_iff.1 (other name own))
    cases simple.symm.trans complex
  cases resolved_of_resolveType h with
  | named own found => exact .named own found
  | enterNamed own _ entered => exact .named own ((enterNamed_enters hfill _).answer entered)
  | standIn other simple stands found => exact .builtin (unnamed other simple) simple stands found
  | enterStandIn other simple stands _ entered =>
    exact .builtin (unnamed other simple) simple stands ((enterNamed_enters hfill _).answer entered)
  | inline hname complex found own =>
    obtain ⟨before, after, parts, -⟩ := List.lookup_eq_some_iff.1 own
    exact .inline hname complex found (by simp [parts])
  | enterInline hname complex reserved filled =>
    -- Filling only adds to the state, so that the key still leads here and the site is still known.
    have grown := (hfill _ id d site _ (.refl 0 _)).answer filled
    exact .inline hname complex (grown.lookup (Registry.lookup_reserve reserved))
      (grown.anonymous.subset (List.mem_cons_self ..))

end Entering

namespace ResolveContext

variable {c : ResolveContext} {s t : ResolveState} {d : TypeDef} {site : Site} {context : Option QName}
  {id : TypeId}

theorem resolveName_eq {name : QName} (h : c.set.type? name = some d) :
    c.resolveName name = c.resolve d (siteOfType name) none := by
  unfold resolveName resolveNamed DeclarationSet.type
  rw [h]
  rfl

theorem exists_of_yields_resolveName {name : QName} (h : Yields (c.resolveName name) s id t) :
    ∃ d, c.set.type? name = some d ∧ Yields (c.resolve d (siteOfType name) none) s id t := by
  unfold resolveName resolveNamed DeclarationSet.type at h
  obtain ⟨d, hd, h⟩ := yields_ofExcept_bind.1 h
  split at hd
  · next d' declared =>
    cases hd
    exact ⟨d, declared, h⟩
  · cases hd

theorem resolveName_of_lookup {name : QName} (hi : c.set.Indexed) (hs : s.Sound c)
    (declared : c.set.type? name = some d) (found : s.types.lookup name.clark = some id) :
    Yields (c.resolveName name) s id s := by
  rw [resolveName_eq declared]
  exact (ResolveState.Remembers.named (hi.name_of_type? declared) found).again hs _

theorem own_of_name {name : QName} (hname : d.name = some name)
    (own : c.isKnown name = true ∨ d.isSimple = false) (other : QName) (hother : d.name = some other) :
    c.isKnown other = true ∨ d.isSimple = false := by
  obtain rfl := Option.some.inj (hname.symm.trans hother)
  exact own

theorem resolve_remembers
    (hd : ∀ name, d.name = some name → c.isKnown name = true ∨ d.isSimple = false)
    (h : Yields (c.resolve d site context) s id t) : t.Remembers c d site context id :=
  resolveType_remembers (fillTo_adds c _) hd h

theorem resolve_again (hs : s.Sound c)
    (hd : ∀ name, d.name = some name → c.isKnown name = true ∨ d.isSimple = false)
    (h : Yields (c.resolve d site context) s id t) (later : List Request) :
    let u := later.foldl c.next t
    u.Remembers c d site context id ∧ Yields (c.resolve d site context) u id u := by
  have answered : Yields (c.answer (.definition d site context)) s (some id) t := yields_map.2 ⟨id, h, rfl⟩
  obtain ⟨advances, sound⟩ := foldl_next_keeps later (keeps_of_exec answered hs).2
  have remembered := (resolve_remembers hd h).later advances
  exact ⟨remembered, remembered.again sound _⟩

end ResolveContext

/-- A type in a known namespace and an inline definition have one entry for good.  The entry has the key that
the name or the element gives, and asking again leads to it at any time and changes nothing, whatever was
asked for in between and whatever came of that. -/
theorem resolved_for_good {c : ResolveContext} (hc : c.set.Built) (requests later : List Request) :
    (∀ name id t, c.isKnown name = true → Yields (c.resolveName name) (c.stateAfter requests) id t →
      let u := later.foldl c.next t
      (u.types.get? id).map TypeEntry.key = some name.clark ∧ Yields (c.resolveName name) u id u) ∧
    ∀ d site element id t, d.name = none →
      Yields (c.resolve d site (some element)) (c.stateAfter requests) id t →
      let u := later.foldl c.next t
      (d.isSimple = false →
        (u.types.get? id).map TypeEntry.key = some (element.localName ++ "AnonType")) ∧
      Yields (c.resolve d site (some element)) u id u := by
  have sound := c.sound_stateAfter requests
  constructor
  · intro name id t known h u
    obtain ⟨d, declared, h⟩ := ResolveContext.exists_of_yields_resolveName h
    have own := hc.indexed.name_of_type? declared
    obtain ⟨remembered, again⟩ :=
      ResolveContext.resolve_again sound (ResolveContext.own_of_name own (.inl known)) h later
    rw [ResolveContext.resolveName_eq declared]
    exact ⟨Registry.lookup_eq_some_iff.1 (remembered.lookup_named own), again⟩
  · intro d site element id t unnamed h u
    obtain ⟨remembered, again⟩ := ResolveContext.resolve_again sound (fun other hother => by
      cases unnamed.symm.trans hother) h later
    exact ⟨fun complex => Registry.lookup_eq_some_iff.1 (remembered.lookup_inline unnamed complex).1, again⟩

def address : TypeDef :=
  ⟨none, false, .complex ⟨.none, .elements ⟨.sequence, .once,
    [.element ⟨⟨some "urn:directory", "street"⟩, .named (.xsd "string"), .once, false, none⟩]⟩, [], false⟩⟩

def directory : DeclarationSet :=
  let name := fun localName => (⟨some "urn:directory", localName⟩ : QName)
  let element := fun localName typeRef => (.element ⟨name localName, typeRef, .once, false, none⟩ : Particle)
  let text : TypeRef := .named (.xsd "string")
  let complex := fun localName compositor particles => (⟨some (name localName), false,
    .complex ⟨.none, .elements ⟨compositor, .once, particles⟩, [], false⟩⟩ : TypeDef)
  (exec (DeclarationSet.add
    { targetNamespace := some "urn:directory"
      types := [complex "Person" .sequence [element "name" text, element "address" (.inline address)],
        complex "Contact" .choice [element "mail" text, element "phone" text]] }) .empty).2

theorem person_for_good :
    let name := fun localName => (⟨some "urn:directory", localName⟩ : QName)
    let site : Site := ⟨.type (name "Person"), [1]⟩
    let c : ResolveContext := ⟨directory, .ofSet directory, {}, {}⟩
    let later := [Request.named (name "Contact"), .all]
    (∃ id t e v, Yields (c.resolveName (name "Person")) c.fresh id t ∧
      Fails (c.answer (.named (name "Contact"))) t e v ∧
      Yields (c.resolveName (name "Person")) (later.foldl c.next t) id (later.foldl c.next t)) ∧
    ∃ id t, Yields (c.resolve address site (some (name "address"))) c.fresh id t ∧
      ((later.foldl c.next t).types.get? id).map TypeEntry.key = some "addressAnonType" := by
  intro name site c later
  have built : directory.Built := .add .empty _
  obtain ⟨named, inline⟩ := resolved_for_good (c := c) built [] later
  have run : (match exec (c.resolveName (name "Person")) c.fresh with
      | (.ok _, t) => (exec (c.answer (.named (name "Contact"))) t).1.toOption.isNone
      | (.error _, _) => false) = true := by decide +kernel
  have run' : (exec (c.resolve address site (some (name "address"))) c.fresh).1.toOption.isSome = true := by
    decide +kernel
  constructor
  · split at run
    · next id t person =>
      obtain ⟨e, v, contact⟩ := exists_fails_of_isNone run
      exact ⟨id, t, e, v, person, contact, (named (name "Person") id t (by decide) person).2⟩
    · cases run
  · obtain ⟨id, t, resolved⟩ := exists_yields_of_isSome run'
    exact ⟨id, t, resolved, (inline address site (name "address") id t rfl resolved).1 rfl⟩

end SchemaGraph
