import SchemaGraph.Proofs.Graph.Checked
import SchemaGraph.Proofs.Resolution.Kinds

/-! The item types of lists of enumerated literals.  A list of a known namespace is one by the class of its items
alone; whether its handle leads to an enumeration, and the final check passes, is decided by what the items' own
type has for an entry. -/
namespace SchemaGraph

open Stateful ResolveState

namespace ResolveContext

/-- No entry can be taken for that of a known name by its key alone. -/
structure KnownApart (c : ResolveContext) : Prop where
  unnamed : ∀ d context, Mention.inline d context ∈ c.set.mentions → d.name = none
  named : ∀ name ∈ c.set.typeNames, ∀ other ∈ c.set.typeNames, c.isKnown name = true →
    name.clark = other.clark → name = other
  inline : ∀ name ∈ c.set.typeNames, ∀ d element, c.isKnown name = true →
    Mention.inline d (some element) ∈ c.set.mentions → d.isSimple = false →
    name.clark ≠ element.localName ++ "AnonType"

theorem KnownApart.of_plain {c : ResolveContext}
    (unnamed : ∀ d context, Mention.inline d context ∈ c.set.mentions → d.name = none)
    (types : ∀ name ∈ c.set.types.keys, name.Plain)
    (elements : ∀ d element, Mention.inline d (some element) ∈ c.set.mentions →
      element.localName.toList.head? ≠ some '{') : c.KnownApart := by
  have plain := DeclarationSet.plain_of_mem_typeNames types
  refine ⟨unnamed, fun name hname other hother _ => (plain name hname).eq_of_clark (plain other hother), ?_⟩
  rintro name hname d element known mentioned - same
  obtain rfl := (plain name hname).eq_of_clark (.anonType (elements d element mentioned)) same
  cases known

/-- The type has an entry of its own, of simple values. -/
def HasSimpleEntry (c : ResolveContext) (name : QName) : Prop :=
  c.isKnown name = true ∧ ∃ d, c.set.type? name = some d ∧ d.isSimple = true

end ResolveContext

section Items

variable {c : ResolveContext} {t : ResolveState} {id : TypeId} {type : TypeEntry} (apart : c.KnownApart)
include apart

theorem owner_of_lookup {name : QName} {d d' : TypeDef} {site : Site} (owned : t.Owned c id d' site)
    (declared : c.set.type? name = some d) (found : t.types.lookup name.clark = some id)
    (h : c.isKnown name = true ∨ d'.isSimple = true) : c.isKnown name = true ∧ d' = d := by
  have here := DeclarationSet.mem_typeNames_of_type? declared
  obtain ⟨type, entry, key⟩ := Option.map_eq_some_iff.1 (Registry.lookup_eq_some_iff.1 found)
  cases owned with
  | @named own _ declared' known head =>
    rw [entry] at head
    have name_eq : type.name = own := congrArg Prod.fst (Option.some.inj head)
    rw [TypeEntry.key, name_eq] at key
    obtain rfl := apart.named own (DeclarationSet.mem_typeNames_of_type? declared') name here known key
    exact ⟨known, Option.some.inj (declared'.symm.trans declared)⟩
  | inline mentioned _ complex head _ =>
    rw [entry] at head
    have name_eq : type.name = _ := congrArg Prod.fst (Option.some.inj head)
    rw [TypeEntry.key, name_eq] at key
    rcases h with known | simple
    · exact absurd key.symm (apart.inline name here _ _ known mentioned complex)
    · cases complex.symm.trans simple

theorem isEnum_iff_of_leadsTo {name : QName} {d : TypeDef} {x : ScalarClass} (hi : c.set.Indexed) (told : t.Told c id)
    (leads : t.LeadsTo c name id) (entry : t.types.get? id = some type) (declared : c.set.type? name = some d)
    (hasClass : c.set.HasClass d x) (enum : x.kind = .enum) :
    type.simpleKind = some .enum ↔ c.HasSimpleEntry name := by
  constructor
  · intro kind
    cases told with
    | complex _ _ entry' kind' =>
      cases entry.symm.trans entry'
      cases kind'.symm.trans kind
    | simple owned simple hasClass' entry' kind' =>
      cases entry.symm.trans entry'
      cases leads with
      | own _ found =>
        obtain ⟨known, rfl⟩ := owner_of_lookup apart owned declared found (.inr simple)
        exact ⟨known, _, declared, simple⟩
      | standIn declared' unknown stands found =>
        cases declared.symm.trans declared'
        have other : ∀ own, d.name = some own → own.isXsd = false := by
          intro own hown
          obtain rfl := Option.some.inj ((hi.name_of_type? declared).symm.trans hown)
          refine Bool.eq_false_iff.2 fun xsd => ?_
          obtain ⟨uri, localName⟩ := name
          obtain rfl : uri = some QName.xsdUri := by simpa [QName.isXsd] using xsd
          cases unknown.symm.trans (c.isKnown_xsd localName)
        obtain rfl := DeclarationSet.primitiveOfType_of_enum hasClass enum other stands
        -- A string is no enumeration.
        obtain ⟨-, rfl⟩ := owner_of_lookup apart owned (hi.type?_primitive .string) found (.inr simple)
        cases hasClass'
        cases kind'.symm.trans kind
  · rintro ⟨known, d', declared', simple⟩
    cases declared.symm.trans declared'
    cases leads with
    | standIn _ unknown => cases unknown.symm.trans known
    | own _ found =>
      cases told with
      | complex owned complex =>
        obtain ⟨-, rfl⟩ := owner_of_lookup apart owned declared found (.inl known)
        cases complex.symm.trans simple
      | simple owned _ hasClass' entry' kind =>
        obtain ⟨-, rfl⟩ := owner_of_lookup apart owned declared found (.inl known)
        obtain rfl := hasClass.unique hasClass'
        cases entry.symm.trans entry'
        rw [kind, enum]

theorem exists_listItem (hi : c.set.Indexed) (all : t.AllTold c) (entry : t.types.get? id = some type)
    (list : type.simpleKind = some .listOfEnum) :
    ∃ d item j itemType, c.set.type? type.name = some d ∧ c.set.HasClass d ⟨.listOfEnum, [], some item⟩ ∧
      type.listItem = some j ∧ t.types.get? j = some itemType ∧
      (itemType.simpleKind = some .enum ↔ c.HasSimpleEntry item) := by
  cases all id (Registry.has_iff.2 ⟨type, entry⟩) with
  | complex _ _ entry' kind =>
    cases entry.symm.trans entry'
    cases kind.symm.trans list
  | simple owned simple hasClass entry' kind item =>
    cases entry.symm.trans entry'
    obtain ⟨name, d', y, rfl, declared, items, enum⟩ := hasClass.items (Option.some.inj (kind.symm.trans list))
    obtain ⟨j, hj, leads⟩ := item name rfl
    have there : t.types.Has j := by
      cases leads with
      | own _ found => exact Registry.has_of_lookup found
      | standIn _ _ _ found => exact Registry.has_of_lookup found
    obtain ⟨itemType, itemEntry⟩ := Registry.has_iff.1 there
    refine ⟨_, name, j, itemType, owned.type?_of_isSimple simple entry, hasClass, hj, itemEntry, ?_⟩
    exact isEnum_iff_of_leadsTo apart hi (all j there) leads itemEntry declared items enum

end Items

theorem TypeGraph.check_eq_ok_iff_of_no_operations {g : TypeGraph} (none : g.operations = ∅) :
    g.check = .ok () ↔ ∀ type ∈ g.types.entries, g.ItemsKnown type := by
  have operations : g.checkOperations [] g.operations.entries = .ok () := by
    rw [none]
    rfl
  unfold check
  rw [seq_eq_ok_iff, forM_eq_ok_iff, and_iff_left operations]
  simp only [checkList_eq_ok_iff]

/-- Every list of enumerated literals leads to an entry for its items.  That entry is an enumeration exactly if
the type of the items is simple and in a known namespace; the check fails as soon as one is not. -/
theorem listItems_of_graph {c : ResolveContext} {g : TypeGraph} (hc : c.set.Built) (apart : c.KnownApart)
    (h : c.graph = .ok g) :
    (∀ type ∈ g.types.entries, type.simpleKind = some .listOfEnum →
      ∃ d item j itemType, c.set.type? type.name = some d ∧ c.set.HasClass d ⟨.listOfEnum, [], some item⟩ ∧
        type.listItem = some j ∧ g.types.get? j = some itemType ∧
        (itemType.simpleKind = some .enum ↔ c.HasSimpleEntry item)) ∧
    (g.check = .ok () ↔ ∀ type ∈ g.types.entries, type.simpleKind = some .listOfEnum →
      ∀ d item, c.set.type? type.name = some d → c.set.HasClass d ⟨.listOfEnum, [], some item⟩ →
        c.HasSimpleEntry item) := by
  obtain ⟨t, rfl, all⟩ := exists_allTold_of_graph apart.unnamed hc.indexed h
  have items : ∀ type ∈ t.graph.types.entries, type.simpleKind = some .listOfEnum →
      ∃ d item j itemType, c.set.type? type.name = some d ∧ c.set.HasClass d ⟨.listOfEnum, [], some item⟩ ∧
        type.listItem = some j ∧ t.graph.types.get? j = some itemType ∧
        (itemType.simpleKind = some .enum ↔ c.HasSimpleEntry item) := by
    intro type listed list
    obtain ⟨before, here, rfl⟩ := List.mem_map.1 listed
    obtain ⟨i, entry⟩ := List.mem_iff_getElem?.1 here
    have entry : t.types.get? ⟨i⟩ = some before := entry
    obtain ⟨text, finished⟩ := before.exists_finish_eq
    rw [finished] at list ⊢
    obtain ⟨d, item, j, itemType, declared, hasClass, hj, itemEntry, enum⟩ :=
      exists_listItem apart hc.indexed all entry list
    refine ⟨d, item, j, itemType.finish, declared, hasClass, hj, ?_, ?_⟩
    · exact (Registry.get?_finish _ _).trans (congrArg _ itemEntry)
    · obtain ⟨_, finished⟩ := itemType.exists_finish_eq
      rw [finished]
      exact enum
  refine ⟨items, ?_⟩
  rw [TypeGraph.check_eq_ok_iff_of_no_operations rfl]
  constructor
  · intro known type listed list d item declared hasClass
    obtain ⟨d', item', j, itemType, declared', hasClass', hj, itemEntry, enum⟩ := items type listed list
    cases declared.symm.trans declared'
    cases hasClass.unique hasClass'
    obtain ⟨j', hj', kind⟩ := known type listed list
    obtain rfl := Option.some.inj (hj.symm.trans hj')
    rw [Registry.get, itemEntry] at kind
    exact enum.1 kind
  · intro simple type listed list
    obtain ⟨d, item, j, itemType, declared, hasClass, hj, itemEntry, enum⟩ := items type listed list
    refine ⟨j, hj, ?_⟩
    rw [Registry.get, itemEntry]
    exact enum.2 (simple type listed list d item declared hasClass)

/-- Colors are enumerated in one document, and another has lists of them. -/
def swatches : DeclarationSet :=
  let color : QName := ⟨some "urn:color", "Color"⟩
  let add := fun doc s => (exec (DeclarationSet.add doc) s).2
  add
    { targetNamespace := some "urn:swatch"
      types := [⟨some ⟨some "urn:swatch", "Colors"⟩, false, .list (.named color)⟩] } <|
  add
    { targetNamespace := some "urn:color"
      types := [⟨some color, false, .restriction (.named (.xsd "string")) ["red", "blue"]⟩] } .empty

theorem swatches_checked :
    let c := fun known => (⟨swatches, .ofSet swatches, {}, { knownNamespaces := known }⟩ : ResolveContext)
    (∃ g, (c []).graph = .ok g ∧ (∃ type ∈ g.types.entries, type.simpleKind = some .listOfEnum) ∧
      g.check = .ok ()) ∧
    ∃ g, (c ["urn:swatch"]).graph = .ok g ∧ g.check ≠ .ok () := by
  intro c
  let colors : QName := ⟨some "urn:swatch", "Colors"⟩
  let color : QName := ⟨some "urn:color", "Color"⟩
  have built : swatches.Built := .add (.add .empty _) _
  have apart : ∀ known, (c known).KnownApart := by
    intro known
    have mentions : swatches.mentions.all (Mention.allInline fun _ _ => false) = true := by decide +kernel
    have types : ∀ name ∈ swatches.types.keys, name.Plain := by decide +kernel
    rw [List.all_eq_true] at mentions
    have none : ∀ d context, Mention.inline d context ∉ swatches.mentions := fun d context mentioned =>
      Bool.false_ne_true (mentions _ mentioned)
    exact .of_plain (fun d context mentioned => absurd mentioned (none d context)) types
      fun d element mentioned => absurd mentioned (none d element)
  have item : ∀ d item, swatches.type? colors = some d → swatches.HasClass d ⟨.listOfEnum, [], some item⟩ →
      item = color := by
    intro d item declared hasClass
    have run : ((swatches.type? colors).any fun d =>
        (swatches.classify [] d).toOption.any fun x => x.listItem = some color) = true := by decide +kernel
    rw [declared, Option.any_some] at run
    obtain ⟨x, classified, found⟩ := exists_eq_ok_of_any run
    obtain rfl := hasClass.unique (DeclarationSet.hasClass_of_classify classified)
    exact Option.some.inj (of_decide_eq_true found)
  have lists : ∀ known ∈ [[], ["urn:swatch"]], ∃ g, (c known).graph = .ok g ∧
      (∃ type ∈ g.types.entries, type.simpleKind = some .listOfEnum) ∧
      ∀ type ∈ g.types.entries, type.simpleKind = some .listOfEnum → type.name = colors := by
    intro known hknown
    have run : ∀ known ∈ [[], ["urn:swatch"]], ((c known).graph.toOption.any fun g =>
        (g.types.entries.any fun type => type.simpleKind = some .listOfEnum) &&
          g.types.entries.all fun type => type.simpleKind = some .listOfEnum → type.name = colors) = true := by
      decide +kernel
    obtain ⟨g, graph, run⟩ := exists_eq_ok_of_any (run known hknown)
    simp only [Bool.and_eq_true, List.any_eq_true, List.all_eq_true, decide_eq_true_eq] at run
    exact ⟨g, graph, run⟩
  constructor
  · obtain ⟨g, graph, list, own⟩ := lists [] (by simp)
    refine ⟨g, graph, list, ?_⟩
    refine (listItems_of_graph (c := c []) built (apart []) graph).2.2 fun type listed list d name declared hasClass => ?_
    rw [own type listed list] at declared
    obtain rfl := item d name declared hasClass
    exact ⟨by decide +kernel, by decide +kernel⟩
  · obtain ⟨g, graph, ⟨type, listed, list⟩, own⟩ := lists ["urn:swatch"] (by simp)
    obtain ⟨items, check⟩ := listItems_of_graph (c := c ["urn:swatch"]) built (apart _) graph
    refine ⟨g, graph, fun passes => ?_⟩
    obtain ⟨d, name, -, -, declared, hasClass, -⟩ := items type listed list
    have known := (check.1 passes type listed list d name declared hasClass).1
    rw [own type listed list] at declared
    obtain rfl := item d name declared hasClass
    revert known
    decide +kernel

end SchemaGraph
