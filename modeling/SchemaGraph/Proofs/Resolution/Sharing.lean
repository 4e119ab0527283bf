import SchemaGraph.Proofs.Resolution.Memo

/-! Which definitions share an entry.  An entry is known by its key alone, and only an inline definition is
asked whether the entry is its own.  So a named type gets whatever entry has the text of its name for a key,
be it that of another name with the same text or one that was made up for an inline type. -/
namespace SchemaGraph

open Stateful

variable {c : ResolveContext} {s t : ResolveState} {r : Request} {key : String} {owner : Option Site}
  {id : TypeId}

/-- The request is for a type that no builtin datatype stands for.  The type is looked up under `key`, and an
inline one must own what it finds. -/
inductive ResolveContext.AsksFor (c : ResolveContext) : Request → String → Option Site → Prop
  | named {name : QName} {d : TypeDef} (declared : c.set.type? name = some d)
      (own : c.isKnown name = true ∨ d.isSimple = false) : AsksFor c (.named name) name.clark none
  | definition {d : TypeDef} {site : Site} {context : Option QName} {name : QName}
      (hname : d.name = some name) (own : c.isKnown name = true ∨ d.isSimple = false) :
      AsksFor c (.definition d site context) name.clark none
  | inline {d : TypeDef} {site : Site} {element : QName} (hname : d.name = none)
      (complex : d.isSimple = false) :
      AsksFor c (.definition d site (some element)) (element.localName ++ "AnonType") (some site)

theorem lookup_of_answer {d : TypeDef} {site : Site} {context : Option QName} {name : QName}
    (hname : d.name = some name) (own : c.isKnown name = true ∨ d.isSimple = false)
    (answered : Yields (c.resolve d site context) s id t) : t.types.lookup name.clark = some id :=
  (ResolveContext.resolve_remembers (ResolveContext.own_of_name hname own) answered).lookup_named hname

namespace ResolveContext.AsksFor

theorem entered (h : c.AsksFor r key owner) (hi : c.set.Indexed)
    (answered : Yields (c.answer r) s (some id) t) :
    t.types.lookup key = some id ∧ ∀ site, owner = some site → (id, site) ∈ t.anonymous := by
  cases h with
  | named declared own =>
    obtain ⟨_, answered, ⟨⟩⟩ := yields_map.1 answered
    rw [resolveName_eq declared] at answered
    exact ⟨lookup_of_answer (hi.name_of_type? declared) own answered, nofun⟩
  | definition hname own =>
    obtain ⟨_, answered, ⟨⟩⟩ := yields_map.1 answered
    exact ⟨lookup_of_answer hname own answered, nofun⟩
  | inline hname complex =>
    obtain ⟨_, answered, ⟨⟩⟩ := yields_map.1 answered
    have remembered := resolve_remembers (fun _ _ => .inr complex) answered
    obtain ⟨found, own⟩ := remembered.lookup_inline hname complex
    refine ⟨found, ?_⟩
    rintro _ ⟨⟩
    exact own

theorem found (h : c.AsksFor r key owner) (hi : c.set.Indexed) (hs : s.Sound c)
    (hid : s.types.lookup key = some id) (own : ∀ site, owner = some site → (id, site) ∈ s.anonymous) :
    Yields (c.answer r) s (some id) s := by
  cases h with
  | named declared _ => exact yields_map.2 ⟨id, resolveName_of_lookup hi hs declared hid, rfl⟩
  | definition hname _ =>
    exact yields_map.2 ⟨id, (ResolveState.Remembers.named hname hid).again hs _, rfl⟩
  | inline hname complex =>
    exact yields_map.2 ⟨id, (ResolveState.Remembers.inline hname complex hid (own _ rfl)).again hs _, rfl⟩

theorem collides {site : Site} (h : c.AsksFor r key (some site)) (hid : s.types.lookup key = some id)
    (other : s.anonymous.lookup id ≠ some site) :
    ∃ element, Fails (c.answer r) s (.anonymousTypeCollision key element) s := by
  cases h with
  | @inline d _ element hname complex =>
    refine ⟨element, fails_map.2 ?_⟩
    rw [fails_iff_ends]
    unfold resolve resolveType Resolve.lookup
    rw [hname, complex]
    simp [ends_bind, hid, other]

end ResolveContext.AsksFor

/-- Once a type has been answered with an entry, another request is answered with the same one exactly if it
has the same key and is for a named type or comes from the site that owns the entry.  An inline definition
from elsewhere is told of the collision; a named type is not. -/
theorem shared_iff_same_key (hc : c.set.Built) {r' : Request} {key' : String} {owner' : Option Site}
    (hr : c.AsksFor r key owner) (hr' : c.AsksFor r' key' owner') {requests : List Request}
    (answered : Yields (c.answer r) (c.stateAfter requests) (some id) t) (later : List Request) :
    let u := later.foldl c.next t
    (∀ v, Yields (c.answer r') u (some id) v ↔
      (key' = key ∧ ∀ site, owner' = some site → u.anonymous.lookup id = some site) ∧ v = u) ∧
    (∀ site, key' = key → owner' = some site → u.anonymous.lookup id ≠ some site →
      ∃ element, Fails (c.answer r') u (.anonymousTypeCollision key element) u) ∧
    ∀ site, owner = some site → u.anonymous.lookup id = some site := by
  intro u
  have hi := hc.indexed
  obtain ⟨advances, sound⟩ := ResolveContext.foldl_next_keeps later
    (ResolveContext.keeps_of_exec answered (c.sound_stateAfter requests)).2
  obtain ⟨found, own⟩ := hr.entered hi answered
  have found : u.types.lookup key = some id := advances.lookup found
  refine ⟨fun v => ⟨fun again => ?_, ?_⟩, ?_, fun site hsite => ?_⟩
  · have ahead := (ResolveContext.keeps_of_exec again sound).1
    have found' := (hr'.entered hi again).1
    rw [Registry.lookup_eq_some_iff] at found'
    obtain rfl := Option.some.inj (found'.symm.trans (Registry.lookup_eq_some_iff.1 (ahead.lookup found)))
    -- The entry was there before the request, which either finds it as it is or collides with it.
    have mine : ∀ site, owner' = some site → u.anonymous.lookup id = some site := by
      rintro site rfl
      refine Decidable.byContradiction fun other => ?_
      obtain ⟨_, collision⟩ := hr'.collides found other
      exact again.not_fails collision
    have stays := hr'.found hi sound found fun site hsite => sound.lookup_anonymous_iff.1 (mine site hsite)
    exact ⟨⟨rfl, mine⟩, congrArg Prod.snd (again.symm.trans stays)⟩
  · rintro ⟨⟨rfl, mine⟩, rfl⟩
    exact hr'.found hi sound found fun site hsite => sound.lookup_anonymous_iff.1 (mine site hsite)
  · rintro site rfl rfl other
    exact hr'.collides found other
  · exact sound.lookup_anonymous_iff.2 (advances.anonymous.subset (own site hsite))

def orderContent : TypeDef :=
  ⟨none, false, .complex ⟨.none, .elements ⟨.sequence, .once,
    [.element ⟨⟨none, "item"⟩, .named (.xsd "string"), .once, false, none⟩]⟩, [], false⟩⟩

/-- An order with an inline type, and a type that has the name made up for it. -/
def orders : DeclarationSet :=
  (exec (DeclarationSet.add
    { targetNamespace := none
      elements := [⟨⟨none, "Order"⟩, .inline orderContent, .once, false, none⟩]
      types := [⟨some ⟨none, "OrderAnonType"⟩, false, .complex ⟨.none, .elements ⟨.sequence, .once,
        [.element ⟨⟨none, "price"⟩, .named (.xsd "decimal"), .once, false, none⟩]⟩, [], false⟩⟩] }) .empty).2

theorem order_shared :
    let order : QName := ⟨none, "Order"⟩
    let made : QName := ⟨none, "OrderAnonType"⟩
    ∃ s id t, result DeclarationSet.link orders = .ok s ∧
      let c : ResolveContext := ⟨s, .ofSet s, {}, {}⟩
      Yields (c.resolve orderContent ⟨.element order, []⟩ (some order)) c.fresh id t ∧
      (t.types.get? id).map (·.elements.keys) = some ["item"] ∧
      Yields (c.answer (.named made)) t (some id) t := by
  intro order made
  have run : ((result DeclarationSet.link orders).toOption.any fun s =>
      let c : ResolveContext := ⟨s, .ofSet s, {}, {}⟩
      ((s.type? made).any fun d => !d.isSimple) &&
        match exec (c.resolve orderContent ⟨.element order, []⟩ (some order)) c.fresh with
        | (.ok id, t) => decide ((t.types.get? id).map (·.elements.keys) = some ["item"])
        | (.error _, _) => false) = true := by decide +kernel
  obtain ⟨s, linked, run⟩ := exists_eq_ok_of_any run
  have built := DeclarationSet.built_of_link (.add .empty _) linked
  let c : ResolveContext := ⟨s, .ofSet s, {}, {}⟩
  obtain ⟨declared, run⟩ := Bool.and_eq_true_iff.1 run
  obtain ⟨d, declared, complex⟩ := (Option.any_eq_true _ _).1 declared
  rw [Bool.not_eq_true'] at complex
  split at run
  · next id t resolved =>
    have asked : c.AsksFor (.definition orderContent ⟨.element order, []⟩ (some order)) made.clark _ :=
      .inline rfl rfl
    have answered : Yields (c.answer (.definition orderContent ⟨.element order, []⟩ (some order)))
        (c.stateAfter []) (some id) t := yields_map.2 ⟨id, resolved, rfl⟩
    have shared := (shared_iff_same_key built asked (.named declared (.inr complex)) answered []).1 t
    exact ⟨s, id, t, linked, resolved, by simpa using run, shared.2 ⟨⟨rfl, nofun⟩, rfl⟩⟩
  · cases run

end SchemaGraph
