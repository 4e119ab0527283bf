import SchemaGraph.Proofs.Resolution.Named

/-! Filling in a content, told without its choices.  An element takes the next place under its own name or
leaves a remark, whichever way it has come into the content; the names of choices and of serialized entries
have no part in that. -/
namespace SchemaGraph

open Stateful

def ElementMap.places (elements : ElementMap) : List (String × TypeId) :=
  elements.entries.map (Prod.map id ElementDescriptor.typeId)

namespace ElementMap

variable {elements : ElementMap} {key : String}

theorem map_fst_places (elements : ElementMap) : elements.places.map Prod.fst = elements.keys := by
  simp [places, OrderedMap.keys]

theorem lookup_places (elements : ElementMap) (key : String) :
    elements.places.lookup key = (elements.get? key).map (·.typeId) := by
  unfold places OrderedMap.get?
  induction elements.entries with
  | nil => rfl
  | cons e r ih =>
    obtain ⟨k, d⟩ := e
    by_cases h : key = k
    · simp [h]
    · have : (key == k) = false := by simp [h]
      simpa [List.lookup_cons, this] using ih

theorem places_insert {d : ElementDescriptor} (h : elements.contains key = false) :
    places (elements.insert key d) = elements.places ++ [(key, d.typeId)] := by
  simp [places, OrderedMap.entries_insert h]

theorem places_modify {f : ElementDescriptor → ElementDescriptor}
    (hf : ∀ d, (f d).typeId = d.typeId) : places (elements.modify key f) = elements.places :=
  OrderedMap.map_entries_modify _ elements key hf

end ElementMap

structure Progress where
  places : List (String × TypeId)
  state : ResolveState

def Progress.keys (p : Progress) : List String := p.places.map Prod.fst

namespace Progress

def after (p : Progress) (s : ResolveState) : Progress := { p with state := s }

/-- Takes the next place. -/
def enter (p : Progress) (key : String) (id : TypeId) : Progress :=
  { p with places := p.places ++ [(key, id)] }

def remark (p : Progress) (kind : DiagnosticKind) (subject message : String) : Progress :=
  { p with state.diagnostics := p.state.diagnostics ++ [⟨kind, subject, message⟩] }

def skip (p : Progress) (key : String) : Progress :=
  { p with
    state.skippedHeaders :=
      if p.state.skippedHeaders.contains key then p.state.skippedHeaders
      else p.state.skippedHeaders ++ [key] }

end Progress

section Steps

variable (c : ResolveContext) (resolve : ResolveType) (owner : String)

/-- An element takes the next place under its own name, or it leaves exactly one remark.  Either comes
after all that resolving its type leaves. -/
inductive ElementPlaced (decl : ElementDecl) (site : Site) (p : Progress) :
    Option TypeId → Progress → Prop
  | entered {id : TypeId} {t : ResolveState}
      (typed : Yields (resolveRef c resolve site (some decl.name) decl.typeRef) p.state (some id) t)
      (new : decl.name.clark ∉ p.keys) :
      ElementPlaced decl site p (some id) ((p.after t).enter decl.name.clark id)
  | duplicate {id : TypeId} {t : ResolveState}
      (typed : Yields (resolveRef c resolve site (some decl.name) decl.typeRef) p.state (some id) t)
      (taken : decl.name.clark ∈ p.keys) :
      ElementPlaced decl site p none ((p.after t).remark .duplicateElement
        (owner ++ "/" ++ decl.name.clark) "element declared twice; keeping the first")
  | skipped {t : ResolveState}
      (untyped : Yields (resolveRef c resolve site (some decl.name) decl.typeRef) p.state none t)
      (header : decl.name ∈ c.options.headerOnly) :
      ElementPlaced decl site p none (((p.after t).skip decl.name.clark).remark
        .skippedHeaderElement decl.name.clark ("untyped header-only element in " ++ owner))

/-- A member of a substitution group takes the next place under its own name, or it leaves exactly one remark. -/
def MemberPlaced (name : QName) (p q : Progress) : Prop :=
  ∃ decl answer, c.set.element? name = some decl ∧
    ElementPlaced c resolve owner decl ⟨.element name, []⟩ p answer q

/-- A concrete type below an abstract one takes the next place under its own name. -/
inductive SubtypePlaced (name : QName) (p : Progress) : Progress → Prop
  | abstract {d : TypeDef} (declared : c.set.type? name = some d) (isAbstract : d.isAbstract = true) :
      SubtypePlaced name p p
  | entered {d : TypeDef} {id : TypeId} {t : ResolveState} (declared : c.set.type? name = some d)
      (concrete : d.isAbstract = false)
      (typed : Yields (resolve d (siteOfType name) none) p.state id t) (new : name.clark ∉ p.keys) :
      SubtypePlaced name p ((p.after t).enter name.clark id)

/-- What follows an element whose name took a place under the type `answer`, if it took one: the members
of its substitution group in declaration order, or else the types below if its type is abstract. -/
inductive RestPlaced (decl : ElementDecl) (answer : Option TypeId) (p : Progress) : Progress → Prop
  | members {q : Progress} (joined : c.set.substitutes decl.name ≠ [])
      (placed : Through (MemberPlaced c resolve owner) (c.set.substitutes decl.name) p q) :
      RestPlaced decl answer p q
  | nothing (alone : c.set.substitutes decl.name = [])
      (concrete : ∀ id type, answer = some id → p.state.types.get? id = some type →
        type.isAbstract = true → type.isSimple = true) :
      RestPlaced decl answer p p
  | subtypes {id : TypeId} {type : TypeEntry} {q : Progress} (alone : c.set.substitutes decl.name = [])
      (typed : answer = some id) (entry : p.state.types.get? id = some type)
      (isAbstract : type.isAbstract = true) (complex : type.isSimple = false)
      (placed : Through (SubtypePlaced c resolve) (c.hierarchy.descendants type.name) p q) :
      RestPlaced decl answer p
        (if q.places = p.places then
          q.remark .noConcreteSubtypes (owner ++ "/" ++ decl.name.clark)
            ("abstract type " ++ type.name.clark ++ " has no concrete subtype")
        else q)

inductive LeafPlaced : Leaf → Progress → Progress → Prop
  | element {decl : ElementDecl} {site : Site} {occurs : Occurs} {answer : Option TypeId}
      {p q r : Progress} (own : ElementPlaced c resolve owner decl site p answer q)
      (rest : RestPlaced c resolve owner decl answer q r) :
      LeafPlaced (.element decl site occurs) p r
  | wildcard (p : Progress) :
      LeafPlaced .wildcard p
        (p.remark .skippedWildcard owner "element wildcard has no JSON representation")

end Steps

section Walk

variable {c : ResolveContext} {resolve : ResolveType} {owner : String} {s t : ResolveState}

theorem mem_keys_iff {elements : ElementMap} {key : String} :
    key ∈ Progress.keys ⟨elements.places, s⟩ ↔ elements.contains key = true := by
  rw [Progress.keys, ElementMap.map_fst_places, OrderedMap.mem_keys_iff]

theorem elementPlaced_of_elementAdded {elements elements' : ElementMap} {decl : ElementDecl}
    {site : Site} {occurs : Occurs} {key : Option String}
    (h : ElementAdded c resolve owner decl site occurs elements s elements' key t) :
    ElementPlaced c resolve owner decl site ⟨elements.places, s⟩ (key.bind (List.lookup · elements'.places))
      ⟨elements'.places, t⟩ := by
  cases h with
  | entered typed new =>
    rw [Option.bind_some, ElementMap.lookup_places, OrderedMap.get?_insert, if_pos rfl,
      ElementMap.places_insert new]
    refine .entered typed fun taken => ?_
    rw [mem_keys_iff.1 taken] at new
    cases new
  | duplicate typed taken => exact .duplicate typed (mem_keys_iff.2 taken)
  | skipped untyped header => exact .skipped untyped header

theorem places_nameEntry (elements : ElementMap) (key name : Option String) :
    (nameEntry elements key name).places = elements.places := by
  unfold nameEntry
  split
  · split
    · rfl
    · exact ElementMap.places_modify fun _ => rfl
  · rfl

theorem memberPlaced_of_addSubstitute {elements elements' : ElementMap} {head name : QName}
    (h : Yields (addSubstitute c resolve head owner elements name) s elements' t) :
    MemberPlaced c resolve owner name ⟨elements.places, s⟩ ⟨elements'.places, t⟩ := by
  unfold addSubstitute at h
  obtain ⟨decl, hdecl, h⟩ := yields_ofExcept_bind.1 h
  rw [yields_bind] at h
  obtain ⟨⟨added, key⟩, u, hadded, h⟩ := h
  have placed := elementPlaced_of_elementAdded (elementAdded_of_addElement hadded)
  have same : elements'.places = added.places ∧ u = t := by
    dsimp only at h
    split at h
    · obtain ⟨rfl, rfl⟩ := yields_pure.1 h
      exact ⟨ElementMap.places_modify fun _ => rfl, rfl⟩
    · obtain ⟨rfl, rfl⟩ := yields_pure.1 h
      exact ⟨rfl, rfl⟩
  rw [same.1, ← same.2]
  exact ⟨decl, _, DeclarationSet.element_eq_ok_iff.1 hdecl, placed⟩

theorem through_of_addSubstitutes {elements elements' : ElementMap} {head : QName}
    {members : List QName}
    (h : Yields (addSubstitutes c resolve elements head members owner) s elements' t) :
    Through (MemberPlaced c resolve owner) members ⟨elements.places, s⟩ ⟨elements'.places, t⟩ :=
  (Through.of_foldlM h).map (fun x => (⟨ElementMap.places x.1, x.2⟩ : Progress))
    fun _ _ _ => memberPlaced_of_addSubstitute

theorem subtypePlaced_of_subtypeAdded {decl : ElementDecl} {e : ElementDescriptor} {name : QName}
    {elements elements' : ElementMap} (h : SubtypeAdded c resolve decl e name elements s elements' t) :
    SubtypePlaced c resolve name ⟨elements.places, s⟩ ⟨elements'.places, t⟩ := by
  cases h with
  | abstract declared isAbstract => exact .abstract declared isAbstract
  | entered declared concrete typed new =>
    rw [ElementMap.places_insert new]
    refine .entered declared concrete typed fun taken => ?_
    rw [mem_keys_iff.1 taken] at new
    cases new

theorem through_of_addConcrete {elements elements' : ElementMap} {decl : ElementDecl}
    {descriptor : ElementDescriptor} {abstractName : QName}
    (h : Yields (addConcrete c resolve elements decl descriptor abstractName owner) s elements' t) :
    ∃ q, Through (SubtypePlaced c resolve) (c.hierarchy.descendants abstractName)
        ⟨elements.places, s⟩ q ∧
      (⟨elements'.places, t⟩ : Progress) = if q.places = elements.places then
        q.remark .noConcreteSubtypes (owner ++ "/" ++ decl.name.clark)
          ("abstract type " ++ abstractName.clark ++ " has no concrete subtype")
        else q := by
  obtain ⟨u, added, rfl⟩ := subtypesAdded_of_addConcrete h
  refine ⟨⟨elements'.places, u⟩, added.map (fun x => (⟨ElementMap.places x.1, x.2⟩ : Progress))
    fun _ _ _ => subtypePlaced_of_subtypeAdded, ?_⟩
  have places : elements.places <+: elements'.places := added.entries_le.map _
  have same : elements'.size = elements.size ↔ elements'.places = elements.places := by
    have length (m : ElementMap) : m.places.length = m.size := List.length_map _
    refine ⟨fun same => (places.eq_of_length ?_).symm, fun same => ?_⟩
    · rw [length, length, same]
    · rw [← length, same, length]
  simp only [same]
  split <;> rfl

theorem leafPlaced_of_addContentElement {found found' : Found} {decl : ElementDecl} {site : Site}
    {occurs : Occurs} {choiceName : Option String}
    (h : Yields (addContentElement c resolve found decl site occurs choiceName owner) s found' t) :
    LeafPlaced c resolve owner (.element decl site occurs) ⟨found.elements.places, s⟩
      ⟨found'.elements.places, t⟩ := by
  obtain ⟨elements, key, u, added, rest⟩ := added_of_addContentElement h
  have own := elementPlaced_of_elementAdded added
  rw [← places_nameEntry elements key choiceName] at own
  -- Only places and the types under them matter from here on.
  generalize nameEntry elements key choiceName = elements at rest own
  have typed {e : ElementDescriptor} (h : key.bind elements.get? = some e) :
      key.bind (List.lookup · elements.places) = some e.typeId := by
    obtain ⟨k, rfl, hk⟩ := Option.bind_eq_some_iff.1 h
    rw [Option.bind_some, ElementMap.lookup_places, hk]
    rfl
  refine .element own ?_
  cases rest with
  | members joined members => exact .members joined (through_of_addSubstitutes members)
  | nothing alone concrete =>
    refine .nothing alone fun id type placed entry => ?_
    obtain ⟨k, rfl, hk⟩ := Option.bind_eq_some_iff.1 placed
    rw [ElementMap.lookup_places, Option.map_eq_some_iff] at hk
    obtain ⟨e, hk, rfl⟩ := hk
    obtain ⟨_, found, concrete⟩ := concrete e hk
    obtain rfl := Option.some.inj (found.symm.trans entry)
    exact concrete
  | subtypes alone own entry isAbstract complex subtypes =>
    obtain ⟨q, below, last⟩ := through_of_addConcrete subtypes
    rw [last]
    exact .subtypes alone (typed own) entry isAbstract complex below

theorem leafPlaced_of_addLeaf {choiceName : Option String} {found found' : Found} {leaf : Leaf}
    (h : Yields (addLeaf c resolve choiceName owner found leaf) s found' t) :
    LeafPlaced c resolve owner leaf ⟨found.elements.places, s⟩ ⟨found'.elements.places, t⟩ := by
  cases leaf with
  | element decl site occurs => exact leafPlaced_of_addContentElement h
  | wildcard =>
    unfold addLeaf skipWildcard at h
    rw [yields_bind] at h
    obtain ⟨_, _, hremark, h⟩ := h
    obtain ⟨rfl, rfl⟩ := yields_pure.1 h
    rw [← yields_diagnose.1 hremark]
    exact .wildcard _

theorem yields_modifyType {id : TypeId} {f : TypeEntry → TypeEntry} {keeps : ∀ t, (f t).key = t.key}
    {u : Unit} : Yields (Resolve.modifyType id f keeps) s u t ↔
      (s.types.get? id).isSome = true ∧ { s with types := s.types.modify id f keeps } = t := by
  unfold Resolve.modifyType
  rw [yields_bind]
  constructor
  · rintro ⟨_, _, hentry, h⟩
    obtain ⟨type, hentry, -⟩ := yields_map.1 hentry
    obtain ⟨entry, rfl⟩ := yields_entryAt.1 hentry
    exact ⟨by rw [entry]; rfl, yields_modify.1 h⟩
  · rintro ⟨has, rfl⟩
    obtain ⟨type, entry⟩ := Option.isSome_iff_exists.1 has
    exact ⟨(), s, yields_map.2 ⟨type, yields_entryAt.2 ⟨entry, rfl⟩, rfl⟩, yields_modify.2 rfl⟩

/-- Choice names decide how elements are serialized, not which places they take. -/
theorem leavesPlaced_of_fillComplex {id : TypeId} {x : ComplexDef} {site : Site} {u : Unit}
    (h : Yields (fillComplex c resolve id x site) s u t) :
    ∃ before layout found v, s.types.get? id = some before ∧ c.set.layout before.key [] site x = .ok layout ∧
      Through (LeafPlaced c resolve before.key) layout.leaves ⟨[], s⟩ ⟨found.elements.places, v⟩ ∧
      Yields (Resolve.modifyType id (TypeEntry.withContent layout found)) v u t := by
  obtain ⟨before, layout, found, v, hbefore, hlayout, through, h⟩ := leavesAdded_of_fillComplex h
  refine ⟨before, layout, found, v, hbefore, hlayout, ?_, h⟩
  rw [Layout.leaves, ← map_snd_namedLeaves layout.isChoice 0, Through.map_iff]
  exact through.map (fun x => (⟨x.1.elements.places, x.2⟩ : Progress)) fun _ _ _ => leafPlaced_of_addLeaf

theorem through_of_fillComplex {id : TypeId} {x : ComplexDef} {site : Site} {u : Unit}
    (h : Yields (fillComplex c resolve id x site) s u t) :
    ∃ before layout v entry, s.types.get? id = some before ∧
      c.set.layout before.key [] site x = .ok layout ∧
      Through (LeafPlaced c resolve before.key) layout.leaves ⟨[], s⟩ ⟨entry.elements.places, v⟩ ∧
      t.types.get? id = some entry ∧ v.Grows 0 t ∧ v.diagnostics = t.diagnostics := by
  obtain ⟨before, layout, found, v, hbefore, hlayout, placed, h⟩ := leavesPlaced_of_fillComplex h
  obtain ⟨has, rfl⟩ := yields_modifyType.1 h
  obtain ⟨type, htype⟩ := Option.isSome_iff_exists.1 has
  exact ⟨before, layout, v, _, hbefore, hlayout, placed, Registry.get?_modify_self (by intro _; rfl) htype,
    .modify (by intro _; rfl) (Nat.zero_le _) (by intro _; rfl), rfl⟩

end Walk

end SchemaGraph
