import SchemaGraph.Proofs.Resolution.Memo
import SchemaGraph.Proofs.Resolution.Placing
import SchemaGraph.Proofs.Resolution.Sites

/-! Which definition an entry belongs to.  Where no two names have one text, the definition that is asked for
and its site say which definition answers; its entry is found, or it is entered and filled. -/
namespace SchemaGraph

open Stateful

/-- The text of the name can be read back. -/
def QName.Plain (q : QName) : Prop :=
  match q.uri with
  | some uri => '}' ∉ uri.toList
  | none => q.localName.toList.head? ≠ some '{'

instance : DecidablePred QName.Plain
  | ⟨some uri, _⟩ => inferInstanceAs (Decidable ('}' ∉ uri.toList))
  | ⟨none, localName⟩ => inferInstanceAs (Decidable (localName.toList.head? ≠ some '{'))

namespace QName.Plain

theorem eq_of_clark {q r : QName} (hq : q.Plain) (hr : r.Plain) (same : q.clark = r.clark) : q = r := by
  have head : ∀ uri l, (clark ⟨some uri, l⟩).toList.head? = some '{' := fun uri l => by simp [clark]
  obtain ⟨_ | uri, l⟩ := q <;> obtain ⟨_ | uri', l'⟩ := r
  · exact congrArg (QName.mk none) same
  · have bare : l.toList.head? = some '{' := (congrArg (·.toList.head?) same).trans (head uri' l')
    exact absurd bare hq
  · have bare : l'.toList.head? = some '{' := (congrArg (·.toList.head?) same.symm).trans (head uri l)
    exact absurd bare hr
  · have text : uri.toList ++ '}' :: l.toList = uri'.toList ++ '}' :: l'.toList := by
      simpa [QName.clark] using congrArg String.toList same
    have cuts := congrArg (Text.cut '}') text
    rw [Text.cut_append hq, Text.cut_append hr, Option.some_inj, Prod.mk.injEq] at cuts
    rw [String.toList_inj.1 cuts.1, String.toList_inj.1 cuts.2]

theorem anonType {localName : String} (h : localName.toList.head? ≠ some '{') :
    Plain ⟨none, localName ++ "AnonType"⟩ := by
  change (localName ++ "AnonType").toList.head? ≠ some '{'
  cases l : localName.toList with
  | nil => simp [l]
  | cons ch rest =>
    rw [l] at h
    simpa [l] using h

end QName.Plain

def Mention.allInline (p : TypeDef → Option QName → Bool) : Mention → Bool
  | .inline d context => p d context
  | .named _ _ => true

namespace DeclarationSet

/-- No entry can be taken for that of another definition by its key alone. -/
structure KeysApart (s : DeclarationSet) : Prop where
  unnamed : ∀ d context, Mention.inline d context ∈ s.mentions → d.name = none
  named : ∀ name ∈ s.typeNames, ∀ other ∈ s.typeNames, name.clark = other.clark → name = other
  inline : ∀ name ∈ s.typeNames, ∀ d element, Mention.inline d (some element) ∈ s.mentions →
    d.isSimple = false → name.clark ≠ element.localName ++ "AnonType"

theorem plain_of_mem_typeNames {s : DeclarationSet} (plain : ∀ name ∈ s.types.keys, name.Plain) :
    ∀ name ∈ s.typeNames, name.Plain := by
  intro name hname
  rcases List.mem_append.1 hname with hname | hname
  · exact plain name hname
  · obtain ⟨localName, -, rfl⟩ := List.mem_map.1 hname
    change '}' ∉ QName.xsdUri.toList
    decide

theorem KeysApart.of_qualified {s : DeclarationSet}
    (unnamed : ∀ d context, Mention.inline d context ∈ s.mentions → d.name = none)
    (qualified : ∀ name ∈ s.types.keys, ∃ uri, name.uri = some uri ∧ '}' ∉ uri.toList)
    (elements : ∀ d element, Mention.inline d (some element) ∈ s.mentions →
      element.localName.toList.head? ≠ some '{') : s.KeysApart := by
  have plain : ∀ name ∈ s.typeNames, name.Plain := by
    refine plain_of_mem_typeNames fun name hname => ?_
    obtain ⟨uri, own, plain⟩ := qualified name hname
    rwa [QName.Plain, own]
  refine ⟨unnamed, fun name hname other hother => (plain name hname).eq_of_clark (plain other hother), ?_⟩
  rintro name hname d element mentioned - same
  have bare := (plain name hname).eq_of_clark (.anonType (elements d element mentioned)) same
  subst bare
  rcases List.mem_append.1 hname with hname | hname
  · obtain ⟨uri, own, -⟩ := qualified _ hname
    cases own
  · obtain ⟨localName, -, builtin⟩ := List.mem_map.1 hname
    cases builtin

/-- Keys are apart if a run says so. -/
theorem KeysApart.of_run {s : DeclarationSet}
    (inline : s.mentions.all (Mention.allInline fun d context =>
      d.name.isNone && context.all (·.localName.toList.head? != some '{')) = true)
    (qualified : (s.types.keys.all fun name => name.uri.any fun uri => !uri.toList.contains '}') = true) :
    s.KeysApart := by
  rw [List.all_eq_true] at inline qualified
  have own : ∀ d context, Mention.inline d context ∈ s.mentions →
      d.name.isNone = true ∧ context.all (·.localName.toList.head? != some '{') = true :=
    fun d context mentioned => (Bool.and_eq_true _ _).mp (inline _ mentioned)
  refine .of_qualified (fun d context mentioned => ?_) (fun name declared => ?_) fun d element mentioned => ?_
  · exact Option.isNone_iff_eq_none.1 (own d context mentioned).1
  · obtain ⟨uri, found, plain⟩ := (Option.any_eq_true _ _).1 (qualified name declared)
    exact ⟨uri, found, by simpa using plain⟩
  · exact bne_iff_ne.1 (own d _ mentioned).2

/-- The definition is one of the set's own, asked for as it stands there. -/
inductive Stands (s : DeclarationSet) : TypeDef → Site → Option QName → Prop
  | named {name : QName} {d : TypeDef} (declared : s.type? name = some d) : Stands s d (siteOfType name) none
  | inline {d : TypeDef} {site : Site} {element : QName}
      (mentioned : Mention.inline d (some element) ∈ s.mentions)
      (placed : s.inlineAt site = some (element, d)) : Stands s d site (some element)
  | bare {d : TypeDef} {site : Site} (mentioned : Mention.inline d none ∈ s.mentions) : Stands s d site none

end DeclarationSet

namespace ResolveContext

/-- The builtin datatype that stands for a simple type, with its site. -/
def standIn (c : ResolveContext) (d : TypeDef) : Except ResolveError (TypeDef × Site) := do
  let primitive ← c.set.primitiveOfType d
  let name := QName.xsd primitive.builtinName
  let builtin ← c.set.type name "resolver"
  return (builtin, siteOfType name)

/-- The definition whose entry answers for `d`, with its site. -/
def owner (c : ResolveContext) (d : TypeDef) (site : Site) : Except ResolveError (TypeDef × Site) :=
  match d.name with
  | some name =>
    if c.isKnown name then .ok (d, site)
    else if d.isSimple then c.standIn d
    else .error (.foreignType name)
  | none => if d.isSimple then c.standIn d else .ok (d, site)

end ResolveContext

namespace ResolveState

/-- The entry `id` is that of the definition `d` at a site. -/
inductive Owned (c : ResolveContext) (s : ResolveState) (id : TypeId) : TypeDef → Site → Prop
  | named {name : QName} {d : TypeDef} (declared : c.set.type? name = some d)
      (known : c.isKnown name = true)
      (entry : (s.types.get? id).map TypeEntry.head = some (name, d.isAbstract)) :
      Owned c s id d (siteOfType name)
  | inline {d : TypeDef} {site : Site} {element : QName}
      (mentioned : Mention.inline d (some element) ∈ c.set.mentions)
      (placed : c.set.inlineAt site = some (element, d)) (complex : d.isSimple = false)
      (entry : (s.types.get? id).map TypeEntry.head =
        some (⟨none, element.localName ++ "AnonType"⟩, d.isAbstract))
      (site_mem : (id, site) ∈ s.anonymous) : Owned c s id d site

/-- Every entry belongs to a definition, and only those of simple types are simple. -/
structure Traced (c : ResolveContext) (s : ResolveState) : Prop where
  owned : ∀ id, s.types.Has id → ∃ d site, s.Owned c id d site
  sites : (s.anonymous.map Prod.fst).Nodup
  inside : ∀ p ∈ s.anonymous, s.types.Has p.1
  simple : ∀ id type, s.types.get? id = some type → type.isSimple = true →
    ∃ d, c.set.type? type.name = some d ∧ d.isSimple = true

variable {c : ResolveContext} {s t : ResolveState} {id : TypeId} {d : TypeDef} {site : Site}

namespace Owned

theorem has (h : s.Owned c id d site) : s.types.Has id := by
  cases h with
  | named _ _ entry | inline _ _ _ entry _ =>
    obtain ⟨type, found, -⟩ := Option.map_eq_some_iff.1 entry
    exact Registry.has_iff.2 ⟨type, found⟩

theorem head_later {n : Nat} {head : QName × Bool} (hg : s.Grows n t)
    (h : (s.types.get? id).map TypeEntry.head = some head) :
    (t.types.get? id).map TypeEntry.head = some head := by
  obtain ⟨type, found, rfl⟩ := Option.map_eq_some_iff.1 h
  obtain ⟨type', found', same⟩ := hg.get?_head found
  rw [found', Option.map_some, same]

theorem later {n : Nat} (h : s.Owned c id d site) (hg : s.Grows n t) : t.Owned c id d site := by
  cases h with
  | named declared known entry => exact .named declared known (head_later hg entry)
  | inline mentioned placed complex entry site_mem =>
    exact .inline mentioned placed complex (head_later hg entry) (hg.anonymous.subset site_mem)

theorem of_eq (h : s.Owned c id d site) (types : t.types = s.types) (anonymous : t.anonymous = s.anonymous) :
    t.Owned c id d site := by
  cases h with
  | named declared known entry => exact .named declared known (types ▸ entry)
  | inline mentioned placed complex entry site_mem =>
    exact .inline mentioned placed complex (types ▸ entry) (anonymous ▸ site_mem)

theorem isAbstract_eq {type : TypeEntry} (h : s.Owned c id d site) (found : s.types.get? id = some type) :
    type.isAbstract = d.isAbstract := by
  cases h with
  | named _ _ entry | inline _ _ _ entry _ =>
    rw [found] at entry
    exact congrArg Prod.snd (Option.some.inj entry)

theorem eq_of_type? {type : TypeEntry} {d' : TypeDef} (hk : c.set.KeysApart) (h : s.Owned c id d site)
    (found : s.types.get? id = some type) (declared : c.set.type? type.name = some d') : d' = d := by
  cases h with
  | named declared' _ entry =>
    rw [found] at entry
    have own : type.name = _ := congrArg Prod.fst (Option.some.inj entry)
    rw [own] at declared
    exact Option.some.inj (declared.symm.trans declared')
  | inline mentioned _ complex entry _ =>
    rw [found] at entry
    have own : type.name = _ := congrArg Prod.fst (Option.some.inj entry)
    rw [own] at declared
    exact absurd rfl (hk.inline _ (DeclarationSet.mem_typeNames_of_type? declared) _ _ mentioned complex)

theorem head_eq {j : TypeId} (hi : c.set.Indexed) (h : s.Owned c id d site) (h' : t.Owned c j d site) :
    (s.types.get? id).map TypeEntry.head = (t.types.get? j).map TypeEntry.head := by
  generalize same : site = site' at h'
  cases h with
  | named declared _ entry =>
    cases h' with
    | named declared' _ entry' =>
      obtain rfl := Option.some.inj ((hi.name_of_type? declared).symm.trans (hi.name_of_type? declared'))
      exact entry.trans entry'.symm
    | inline _ placed _ _ _ =>
      -- Nothing stands at the site of a named type but the type itself.
      subst same
      cases placed
  | inline _ placed _ entry _ =>
    cases h' with
    | named _ _ _ =>
      subst same
      cases placed
    | inline _ placed' _ entry' _ =>
      subst same
      cases placed.symm.trans placed'
      exact entry.trans entry'.symm

theorem of_lookup {name : QName} {d' : TypeDef} {site' : Site} (hk : c.set.KeysApart) (h : s.Owned c id d' site')
    (declared : c.set.type? name = some d) (found : s.types.lookup name.clark = some id) :
    c.isKnown name = true ∧ s.Owned c id d (siteOfType name) := by
  have here := DeclarationSet.mem_typeNames_of_type? declared
  obtain ⟨type, at_id, key⟩ := Option.map_eq_some_iff.1 (Registry.lookup_eq_some_iff.1 found)
  have named := h
  cases h with
  | named declared' known entry =>
    rw [at_id] at entry
    have own : type.name = _ := congrArg Prod.fst (Option.some.inj entry)
    rw [TypeEntry.key, own] at key
    obtain rfl := hk.named _ (DeclarationSet.mem_typeNames_of_type? declared') _ here key
    cases declared.symm.trans declared'
    exact ⟨known, named⟩
  | inline mentioned _ complex entry _ =>
    rw [at_id] at entry
    have own : type.name = _ := congrArg Prod.fst (Option.some.inj entry)
    rw [TypeEntry.key, own] at key
    exact absurd key.symm (hk.inline name here _ _ mentioned complex)

end Owned

namespace Traced

variable (hk : c.set.KeysApart)
include hk

theorem unique {d' : TypeDef} {site' : Site} (hs : s.Traced c) (h : s.Owned c id d site)
    (h' : s.Owned c id d' site') : d' = d ∧ site' = site := by
  have apart : ∀ {name element d d'}, c.set.type? name = some d → d'.isSimple = false →
      Mention.inline d' (some element) ∈ c.set.mentions →
      (name, d.isAbstract) ≠ (⟨none, element.localName ++ "AnonType"⟩, d'.isAbstract) := by
    intro name element d d' declared complex mentioned same
    have here := DeclarationSet.mem_typeNames_of_type? declared
    exact hk.inline name here _ _ mentioned complex (congrArg (·.1.clark) same)
  cases h with
  | named declared _ entry =>
    cases h' with
    | named declared' _ entry' =>
      obtain ⟨rfl, -⟩ := Prod.mk.inj (Option.some.inj (entry.symm.trans entry'))
      cases declared.symm.trans declared'
      exact ⟨rfl, rfl⟩
    | inline mentioned _ complex entry' _ =>
      exact absurd (Option.some.inj (entry.symm.trans entry')) (apart declared complex mentioned)
  | inline mentioned placed complex entry site_mem =>
    cases h' with
    | named declared _ entry' =>
      exact absurd (Option.some.inj (entry'.symm.trans entry)) (apart declared complex mentioned)
    | inline _ placed' _ _ site_mem' =>
      have sites := OrderedMap.mem_entries_iff ⟨s.anonymous, hs.sites⟩ id
      cases ((sites _).1 site_mem).symm.trans ((sites _).1 site_mem')
      cases placed.symm.trans placed'
      exact ⟨rfl, rfl⟩

theorem owned_of_lookup {name : QName} (hs : s.Traced c) (declared : c.set.type? name = some d)
    (found : s.types.lookup name.clark = some id) :
    c.isKnown name = true ∧ s.Owned c id d (siteOfType name) := by
  obtain ⟨d', site', owned⟩ := hs.owned id (Registry.has_of_lookup found)
  exact owned.of_lookup hk declared found

theorem owned_of_lookup_inline {element : QName} (hs : s.Traced c)
    (placed : c.set.inlineAt site = some (element, d))
    (mentioned : Mention.inline d (some element) ∈ c.set.mentions) (complex : d.isSimple = false)
    (found : s.types.lookup (element.localName ++ "AnonType") = some id)
    (own : s.anonymous.lookup id = some site) : s.Owned c id d site := by
  obtain ⟨type, at_id, key⟩ := Option.map_eq_some_iff.1 (Registry.lookup_eq_some_iff.1 found)
  obtain ⟨d', site', owned⟩ := hs.owned id (Registry.has_of_lookup found)
  have inline := owned
  cases owned with
  | named declared' _ entry =>
    rw [at_id] at entry
    have own : type.name = _ := congrArg Prod.fst (Option.some.inj entry)
    rw [TypeEntry.key, own] at key
    exact absurd key (hk.inline _ (DeclarationSet.mem_typeNames_of_type? declared') _ _ mentioned complex)
  | inline _ placed' _ _ site_mem =>
    have at_site := (OrderedMap.mem_entries_iff ⟨s.anonymous, hs.sites⟩ id site').1 site_mem
    cases own.symm.trans at_site
    cases placed.symm.trans placed'
    exact inline

end Traced

/-- Of every abstract entry it is known already whether it is simple. -/
def Definite (c : ResolveContext) (s : ResolveState) : Prop :=
  ∀ id type d, s.types.get? id = some type → type.isAbstract = true → c.set.type? type.name = some d →
    d.isSimple = true → type.isSimple = true

/-- `t` is `s` with a blank entry for the definition. -/
structure Enters (c : ResolveContext) (s : ResolveState) (id : TypeId) (d : TypeDef) (site : Site)
    (t : ResolveState) : Prop where
  owned : t.Owned c id d site
  reserved : ∃ name types anonymous,
    s.types.reserve? { name, isAbstract := d.isAbstract } = some (id, types) ∧
      t = { s with types, anonymous } ∧ (anonymous = s.anonymous ∨ anonymous = (id, site) :: s.anonymous)

namespace Enters

theorem grows (h : s.Enters c id d site t) : s.Grows s.types.size t := by
  obtain ⟨name, types, anonymous, reserved, rfl, rfl | rfl⟩ := h.reserved
  · exact .reserve (Nat.le_refl _) reserved
  · exact (Grows.reserve (Nat.le_refl _) reserved).trans (.recordAnonymous _ _ _)

theorem entries (h : s.Enters c id d site t) :
    id = ⟨s.types.size⟩ ∧
      ∃ name, t.types.entries = s.types.entries ++ [{ name, isAbstract := d.isAbstract }] := by
  obtain ⟨name, types, anonymous, reserved, rfl, -⟩ := h.reserved
  obtain ⟨-, place, entries⟩ := Registry.of_reserve?_eq_some reserved
  exact ⟨place, name, entries⟩

theorem blank (h : s.Enters c id d site t) :
    ∃ name, t.types.get? id = some { name, isAbstract := d.isAbstract } := by
  obtain ⟨rfl, name, entries⟩ := h.entries
  exact ⟨name, by simp [Registry.get?, Registry.size, entries]⟩

theorem size_eq (h : s.Enters c id d site t) : t.types.size = s.types.size + 1 := by
  obtain ⟨-, name, entries⟩ := h.entries
  simp [Registry.size, entries]

theorem has_or_eq {i : TypeId} (h : s.Enters c id d site t) (hi : t.types.Has i) :
    s.types.Has i ∨ i = id := by
  obtain ⟨rfl, -⟩ := h.entries
  obtain ⟨i⟩ := i
  have inside : i < t.types.size := hi
  rw [h.size_eq] at inside
  rcases Nat.lt_succ_iff_lt_or_eq.1 inside with inside | rfl
  · exact .inl inside
  · exact .inr rfl

theorem traced (h : s.Enters c id d site t) (hs : s.Traced c) : t.Traced c where
  owned i hi := by
    rcases h.has_or_eq hi with hi | rfl
    · obtain ⟨d', site', owned⟩ := hs.owned i hi
      exact ⟨d', site', owned.later h.grows⟩
    · exact ⟨d, site, h.owned⟩
  sites := by
    obtain ⟨rfl, -⟩ := h.entries
    obtain ⟨name, types, anonymous, -, rfl, rfl | rfl⟩ := h.reserved
    · exact hs.sites
    · refine List.nodup_cons.2 ⟨fun taken => ?_, hs.sites⟩
      obtain ⟨p, hp, last⟩ := List.mem_map.1 taken
      have inside := hs.inside p hp
      rw [last] at inside
      exact Nat.lt_irrefl _ inside
  inside p hp := by
    have new := h.owned.has
    have kept : ∀ q ∈ s.anonymous, t.types.Has q.1 := fun q hq => h.grows.has (hs.inside q hq)
    obtain ⟨name, types, anonymous, -, rfl, rfl | rfl⟩ := h.reserved
    · exact kept p hp
    · rcases List.mem_cons.1 hp with rfl | hp
      · exact new
      · exact kept p hp
  simple i type found simple := by
    rcases h.has_or_eq (Registry.has_iff.2 ⟨type, found⟩) with hi | rfl
    · rw [h.grows.get?_eq hi] at found
      exact hs.simple i type found simple
    · obtain ⟨name, blank⟩ := h.blank
      cases found.symm.trans blank
      cases simple

theorem definite (hk : c.set.KeysApart) (h : s.Enters c id d site t) (hs : s.Definite c)
    (other : d.isAbstract = true → d.isSimple = false) : t.Definite c := by
  intro i type d' found isAbstract declared simple
  rcases h.has_or_eq (Registry.has_iff.2 ⟨type, found⟩) with hi | rfl
  · rw [h.grows.get?_eq hi] at found
    exact hs i type d' found isAbstract declared simple
  · obtain rfl := h.owned.eq_of_type? hk found declared
    have complex := other ((h.owned.isAbstract_eq found).symm.trans isAbstract)
    cases complex.symm.trans simple

end Enters

/-- The definition at a site answers with `id`: its entry is there, or it is entered and filled. -/
def Answers (c : ResolveContext) (fill : Fill) (s : ResolveState) (id : TypeId) (d : TypeDef) (site : Site)
    (t : ResolveState) : Prop :=
  s.Owned c id d site ∧ t = s ∨ ∃ u, s.Enters c id d site u ∧ Yields (fill id d site) u () t

end ResolveState

section Answers

variable {c : ResolveContext} {fill : Fill} {s t : ResolveState} {id : TypeId} {d : TypeDef} {site : Site}
  {context : Option QName}

theorem enters_of_yields_reserve {name : QName} (declared : c.set.type? name = some d) (known : c.isKnown name = true)
    (h : Yields (Resolve.reserve name d.isAbstract) s id t) : s.Enters c id d (siteOfType name) t := by
  obtain ⟨types, reserved, rfl⟩ := yields_reserve h
  refine ⟨.named declared known ?_, name, types, _, reserved, rfl, .inl rfl⟩
  obtain ⟨-, rfl, entries⟩ := Registry.of_reserve?_eq_some reserved
  simp [Registry.get?, Registry.size, entries, TypeEntry.head]

theorem enters_of_enterNamed {name : QName} (declared : c.set.type? name = some d)
    (known : c.isKnown name = true) (h : Yields (enterNamed fill name d site) s id t) :
    ∃ u, s.Enters c id d (siteOfType name) u ∧ Yields (fill id d site) u () t := by
  unfold enterNamed at h
  rw [yields_bind] at h
  obtain ⟨i, u, entered, h⟩ := h
  simp only [yields_bind, yields_pure] at h
  obtain ⟨_, _, filled, rfl, rfl⟩ := h
  exact ⟨u, enters_of_yields_reserve declared known entered, filled⟩

theorem enters_of_reserve {element : QName} {types : Registry}
    (mentioned : Mention.inline d (some element) ∈ c.set.mentions)
    (placed : c.set.inlineAt site = some (element, d)) (complex : d.isSimple = false)
    (reserved : s.types.reserve?
      { name := ⟨none, element.localName ++ "AnonType"⟩, isAbstract := d.isAbstract } = some (id, types)) :
    s.Enters c id d site { s with types, anonymous := (id, site) :: s.anonymous } := by
  refine ⟨.inline mentioned placed complex ?_ (List.mem_cons_self ..), _, types, _, reserved, rfl, .inr rfl⟩
  obtain ⟨-, rfl, entries⟩ := Registry.of_reserve?_eq_some reserved
  simp [Registry.get?, Registry.size, entries, TypeEntry.head]

section Stands

variable (unnamed : ∀ d context, Mention.inline d context ∈ c.set.mentions → d.name = none)
  (hi : c.set.Indexed)
include unnamed hi

theorem DeclarationSet.Stands.declared {name : QName} (hd : c.set.Stands d site context)
    (own : d.name = some name) : c.set.type? name = some d ∧ site = siteOfType name := by
  cases hd with
  | named declared =>
    obtain rfl := Option.some.inj ((hi.name_of_type? declared).symm.trans own)
    exact ⟨declared, rfl⟩
  | inline mentioned _ | bare mentioned => cases (unnamed _ _ mentioned).symm.trans own

theorem enters_of_resolveType (hd : c.set.Stands d site context)
    (h : Yields (resolveType c fill d site context) s id t) :
    t = s ∨ ∃ d' site' u, s.Enters c id d' site' u ∧ Yields (fill id d' site') u () t := by
  cases resolved_of_resolveType h with
  | named _ _ | standIn _ _ _ _ | inline _ _ _ _ => exact .inl rfl
  | enterNamed own known entered =>
    obtain ⟨declared, rfl⟩ := hd.declared unnamed hi own
    exact .inr ⟨_, _, enters_of_enterNamed declared known entered⟩
  | enterStandIn _ _ _ declared entered =>
    exact .inr ⟨_, _, enters_of_enterNamed declared (c.isKnown_xsd _) entered⟩
  | enterInline _ complex reserved filled =>
    cases hd with
    | inline mentioned placed => exact .inr ⟨_, _, _, enters_of_reserve mentioned placed complex reserved, filled⟩

end Stands

namespace ResolveContext

theorem owner_of_isKnown {name : QName} (own : d.name = some name) (known : c.isKnown name = true) :
    c.owner d site = .ok (d, site) := by
  unfold owner
  rw [own]
  exact if_pos known

theorem owner_of_inline (unnamed : d.name = none) (complex : d.isSimple = false) :
    c.owner d site = .ok (d, site) := by
  unfold owner
  rw [unnamed, complex]
  rfl

theorem owner_of_standIn {p : Primitive} {builtin : TypeDef}
    (other : ∀ name, d.name = some name → c.isKnown name = false) (simple : d.isSimple = true)
    (stands : c.set.primitiveOfType d = .ok p) (declared : c.set.type? (.xsd p.builtinName) = some builtin) :
    c.owner d site = .ok (builtin, siteOfType (.xsd p.builtinName)) := by
  have stand : c.standIn d = .ok (builtin, siteOfType (.xsd p.builtinName)) := by
    refine bind_eq_ok_iff.2 ⟨p, stands, bind_eq_ok_iff.2 ⟨builtin, ?_, rfl⟩⟩
    exact DeclarationSet.type_eq_ok_iff.2 declared
  unfold owner
  split
  · next name own => rw [if_neg (Bool.eq_false_iff.1 (other name own)), if_pos simple, stand]
  · rw [if_pos simple, stand]

end ResolveContext

theorem answers_of_resolveType (hk : c.set.KeysApart) (hi : c.set.Indexed) (hd : c.set.Stands d site context)
    (hs : s.Traced c) (h : Yields (resolveType c fill d site context) s id t) :
    ∃ d' site', c.owner d site = .ok (d', site') ∧ s.Answers c fill id d' site' t := by
  cases resolved_of_resolveType h with
  | named own found =>
    obtain ⟨declared, rfl⟩ := hd.declared hk.unnamed hi own
    obtain ⟨known, owned⟩ := hs.owned_of_lookup hk declared found
    exact ⟨_, _, ResolveContext.owner_of_isKnown own known, .inl ⟨owned, rfl⟩⟩
  | enterNamed own known entered =>
    obtain ⟨declared, rfl⟩ := hd.declared hk.unnamed hi own
    exact ⟨_, _, ResolveContext.owner_of_isKnown own known, .inr (enters_of_enterNamed declared known entered)⟩
  | @standIn _ p other simple stands found =>
    obtain ⟨builtin, declared⟩ := Option.isSome_iff_exists.1 (c.set.isSome_type?_primitive p)
    refine ⟨_, _, ResolveContext.owner_of_standIn other simple stands declared, .inl ⟨?_, rfl⟩⟩
    exact (hs.owned_of_lookup hk declared found).2
  | enterStandIn other simple stands declared entered =>
    exact ⟨_, _, ResolveContext.owner_of_standIn other simple stands declared,
      .inr (enters_of_enterNamed declared (c.isKnown_xsd _) entered)⟩
  | inline unnamed complex found own =>
    cases hd with
    | inline mentioned placed =>
      refine ⟨_, _, ResolveContext.owner_of_inline unnamed complex, .inl ⟨?_, rfl⟩⟩
      exact hs.owned_of_lookup_inline hk placed mentioned complex found own
  | enterInline unnamed complex reserved filled =>
    cases hd with
    | inline mentioned placed =>
      exact ⟨_, _, ResolveContext.owner_of_inline unnamed complex,
        .inr ⟨_, enters_of_reserve mentioned placed complex reserved, filled⟩⟩

end Answers

end SchemaGraph
