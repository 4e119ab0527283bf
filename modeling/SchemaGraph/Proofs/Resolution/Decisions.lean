import SchemaGraph.Proofs.Resolution.Abandoned
import SchemaGraph.Proofs.Resolution.Content
import SchemaGraph.Proofs.Resolution.Inheritance
import SchemaGraph.Proofs.Resolution.Kinds

/-! The class of the values of a type is decided by the nearest definition along its bases that decides
anything. -/
namespace SchemaGraph

open Relation Stateful

namespace DeclarationSet

/-- A definition decides, possibly by the class of the items of a list. -/
inductive Decides (s : DeclarationSet) (d : TypeDef) : ScalarClass → Prop
  | alone {x : ScalarClass} (decides : DecidesAlone d x) : Decides s d x
  | items {item : QName} {e : TypeDef} {x : ScalarClass} (body : d.body = .list (.named item))
      (declared : s.type? item = some e) (items : s.classify [] e = .ok x) : Decides s d (classOfItems item x)

variable {s : DeclarationSet} {d e : TypeDef} {x : ScalarClass}

section Walks

/-- The nearest decision is the first one: beyond it nothing is asked. -/
theorem Decides.not_follows (h : s.Decides d x) : ¬ s.Follows d e := by
  cases h with
  | alone decides => exact decides.not_follows
  | items body => exact fun follows => follows.not_list body

theorem hasClass_of_decides (h : s.Decides d x) : s.HasClass d x := by
  cases h with
  | alone decides => exact hasClass_of_decidesAlone decides
  | items body declared items => exact hasClass_of_items body declared (hasClass_of_classify items)

theorem classify_eq_ok_iff_decides :
    s.classify [] d = .ok x ↔ ∃ e, ReflTransGen s.Follows d e ∧ s.Decides e x := by
  rw [classify_eq_ok_iff]
  constructor
  · intro h
    refine h.along (motive := fun d x => ∃ e, ReflTransGen s.Follows d e ∧ s.Decides e x) ?_ ?_ ?_
    · exact fun d x decides => ⟨d, .refl, .alone decides⟩
    · exact fun d item e x body declared items _ => ⟨d, .refl, .items body declared (classify_eq_ok_iff.2 items)⟩
    · rintro d e x follows - ⟨e', way, decides⟩
      exact ⟨e', .head follows way, decides⟩
  · rintro ⟨e, way, decides⟩
    induction way using ReflTransGen.head_induction_on with
    | refl => exact hasClass_of_decides decides
    | head follows _ below => exact hasClass_of_follows follows below

end Walks

theorem classify_of_link {u : DeclarationSet} (linked : result link u = .ok s) (resolves : s.Resolves d.mentions) :
    (∃ x, s.classify [] d = .ok x) ∨ ∃ path, s.classify [] d = .error (.set (.circular path)) := by
  obtain ⟨refs, within, mentioned, declared⟩ := exists_contentsWithin (checkReferences_of_link linked).2 resolves
  have lost := classify_among within.types [] d mentioned
  cases outcome : s.classify [] d with
  | ok x => exact .inl ⟨x, rfl⟩
  | error e =>
    obtain ⟨path, rfl⟩ | ⟨kind, name, _, rfl, hm, unknown⟩ := lost.fault outcome
    · exact .inr ⟨path, rfl⟩
    · cases (declared _ _ hm).symm.trans unknown

end DeclarationSet

section Entries

variable {c : ResolveContext} {s t : ResolveState} {id : TypeId} {d : TypeDef} {site : Site} {depth : Nat}
  {x : ScalarClass}

/-- The entry says of which class its values are.  What it says of the items of a list was answered for their
name between the states `s` and `t`. -/
structure Classed (c : ResolveContext) (depth : Nat) (s t : ResolveState) (x : ScalarClass) (type : TypeEntry) :
    Prop where
  kind : type.simpleKind = some x.kind
  literals : type.enumValues = x.enumValues
  noItem : x.listItem = none → type.listItem = none
  item : ∀ item, x.listItem = some item → ∃ j u v, type.listItem = some j ∧ s.Grows 0 u ∧ v.Grows 0 t ∧
    Yields (resolveNamed c (resolveType c (fillTo c depth)) item) u j v

theorem classed_of_fillTo (simple : d.isSimple = true) (h : Yields (fillTo c (depth + 1) id d site) s () t) :
    ∃ x type, c.set.classify [] d = .ok x ∧ t.types.get? id = some type ∧ Classed c depth s t x type := by
  obtain ⟨u, before, h⟩ := fillScalar_of_fillWith resolve_adds simple h
  obtain ⟨x, answer, v, class_eq, asked, h⟩ := asked_of_fillScalar h
  obtain ⟨has, rfl⟩ := yields_modifyType.1 h
  obtain ⟨type, found⟩ := Option.isSome_iff_exists.1 has
  have keeps : ∀ t : TypeEntry, (t.withClass x answer).key = t.key := fun _ => rfl
  have last : v.Grows 0 { v with types := v.types.modify id (TypeEntry.withClass x answer) keeps } :=
    .modify keeps (Nat.zero_le _) fun _ => rfl
  refine ⟨x, _, class_eq, Registry.get?_modify_self keeps found, rfl, rfl, fun none => ?_, fun item some => ?_⟩
  · obtain ⟨-, rfl, -⟩ | ⟨name, j, some, -, -⟩ := asked
    · rfl
    · cases none.symm.trans some
  · obtain ⟨none, -, -⟩ | ⟨name, j, some', rfl, answered⟩ := asked
    · cases none.symm.trans some
    · cases some.symm.trans some'
      exact ⟨j, u, v, rfl, before, last, answered⟩

end Entries

section StandIns

def SimpleKind.standIn : SimpleKind → Primitive
  | .boolean => .boolean
  | .decimal => .decimal
  | .string | .enum | .listOfEnum => .string

variable {c : ResolveContext} {s : ResolveState} {d : TypeDef} {site : Site} {context : Option QName} {fill : Fill}
  {x : ScalarClass}

theorem primitiveOfType_of_classify (other : ∀ name, d.name = some name → name.isXsd = false)
    (class_eq : c.set.classify [] d = .ok x) : c.set.primitiveOfType d = .ok x.kind.standIn := by
  unfold DeclarationSet.primitiveOfType
  split
  · next p builtin =>
    have alone : DeclarationSet.DecidesAlone d (.ofPrimitive p) := .builtin builtin
    cases class_eq.symm.trans (DeclarationSet.classify_of_decidesAlone alone)
    cases p <;> rfl
  · split
    · next p found =>
      obtain ⟨name, own, found⟩ := Option.bind_eq_some_iff.1 found
      rw [other name own] at found
      cases found
    · rw [class_eq]
      obtain ⟨kind, _, _⟩ := x
      cases kind <;> rfl

theorem isXsd_of_not_isKnown {name : QName} (unknown : c.isKnown name = false) : name.isXsd = false := by
  obtain ⟨_ | uri, localName⟩ := name
  · rfl
  · simp only [ResolveContext.isKnown, ResolveContext.knownNamespaces, List.contains_cons,
      Bool.or_eq_false_iff] at unknown
    simpa [QName.isXsd] using unknown.1

theorem yields_standIn (stocked : s.Stocked) (simple : d.isSimple = true)
    (foreign : ∀ name, d.name = some name → c.isKnown name = false ∧ s.types.lookup name.clark = none)
    (class_eq : c.set.classify [] d = .ok x) :
    ∃ id, s.types.lookup (QName.xsd x.kind.standIn.builtinName).clark = some id ∧
      Yields (resolveType c fill d site context) s id s := by
  obtain ⟨id, found⟩ := Option.isSome_iff_exists.1 (stocked x.kind.standIn)
  have stands := primitiveOfType_of_classify (fun name own => isXsd_of_not_isKnown (foreign name own).1) class_eq
  have answered : Yields (placeholder c fill d) s id s := by
    refine yields_ofExcept_bind.2 ⟨_, stands, yields_lookup_bind.2 ?_⟩
    rw [found]
    exact yields_pure.2 ⟨rfl, rfl⟩
  refine ⟨id, found, ?_⟩
  unfold resolveType
  split
  · next name own =>
    obtain ⟨unknown, new⟩ := foreign name own
    rw [yields_lookup_bind, new]
    simpa [unknown, simple] using answered
  · rwa [if_pos simple]

theorem stocked_of_grows (hi : c.set.Indexed) {requests : List Request} (later : (c.stateAfter requests).Grows 0 s) :
    s.Stocked := by
  intro p
  obtain ⟨id, found⟩ := Option.isSome_iff_exists.1 (stocked_stateAfter hi requests p)
  rw [later.lookup found]
  rfl

end StandIns

/-- Simple types are classified by the nearest decision.  After linking, a type has a class unless a circle
keeps it from one: it is the class that the first definition decides along its bases, and no definition before it
could have decided.  An entry of a simple type says so, with the answer for the items of a list.  A simple type
that gets no entry of its own is answered by the builtin datatype that stands for its class, and nothing is
entered. -/
theorem nearest_decides {u set : DeclarationSet} (built : u.Built) (linked : result DeclarationSet.link u = .ok set) :
    (∀ d : TypeDef, set.Resolves d.mentions →
      (∃ x, set.classify [] d = .ok x) ∨ ∃ path, set.classify [] d = .error (.set (.circular path))) ∧
    (∀ d x, set.classify [] d = .ok x ↔ ∃ e, ReflTransGen set.Follows d e ∧ set.Decides e x) ∧
    (∀ d e e', set.Follows d e → set.Follows d e' → e = e') ∧
    (∀ d e x, set.Decides d x → ¬ set.Follows d e) ∧
    ∀ c : ResolveContext, c.set = set →
      (∀ depth id d site s t, d.isSimple = true → Yields (fillTo c (depth + 1) id d site) s () t →
        ∃ x type, set.classify [] d = .ok x ∧ t.types.get? id = some type ∧ Classed c depth s t x type) ∧
      ∀ requests s d site context x, (c.stateAfter requests).Grows 0 s → d.isSimple = true →
        (∀ name, d.name = some name → c.isKnown name = false ∧ s.types.lookup name.clark = none) →
        set.classify [] d = .ok x →
        ∃ id, s.types.lookup (QName.xsd x.kind.standIn.builtinName).clark = some id ∧
          Yields (c.resolve d site context) s id s := by
  refine ⟨fun d => DeclarationSet.classify_of_link linked, fun d x => DeclarationSet.classify_eq_ok_iff_decides,
    fun d e e' => DeclarationSet.Follows.unique, fun d e x => DeclarationSet.Decides.not_follows, ?_⟩
  rintro c rfl
  refine ⟨fun depth id d site s t => classed_of_fillTo, ?_⟩
  intro requests s d site context x later simple foreign class_eq
  have indexed := (DeclarationSet.built_of_link built linked).indexed
  exact yields_standIn (stocked_of_grows indexed later) simple foreign class_eq

def wardrobeName (localName : String) : QName := ⟨some "urn:wardrobe", localName⟩

/-- A fit is a size without literals of its own; fits are listed. -/
def wardrobe : SchemaDocument :=
  let simple := fun localName body => (⟨some (wardrobeName localName), false, body⟩ : TypeDef)
  { targetNamespace := some "urn:wardrobe"
    types := [simple "Size" (.restriction (.named (.xsd "string")) ["small", "large"]),
      simple "Fit" (.restriction (.named (wardrobeName "Size")) []),
      simple "Fits" (.list (.named (wardrobeName "Fit"))),
      simple "Count" (.restriction (.inline ⟨none, false, .restriction (.named (.xsd "int")) []⟩) [])] }

def someCount : TypeDef := ⟨none, false, .restriction (.named (wardrobeName "Count")) []⟩

theorem fits_decided :
    ∃ set d x type fit t id, result DeclarationSet.link (exec (DeclarationSet.add wardrobe) .empty).2 = .ok set ∧
      let c : ResolveContext := ⟨set, .ofSet set, {}, {}⟩
      let s := (exec (Resolve.reserve (wardrobeName "Fits") false) .empty).2
      set.type? (wardrobeName "Fits") = some d ∧ d.isSimple = true ∧
        Yields (fillTo c 4 ⟨0⟩ d (siteOfType (wardrobeName "Fits"))) s () t ∧
        t.types.get? ⟨0⟩ = some type ∧ Classed c 3 s t x type ∧
        type.simpleKind = some .listOfEnum ∧ type.listItem = some fit ∧
        ((t.types.get? fit).map fun entry => (entry.key, entry.enumValues)) =
          some ((wardrobeName "Fit").clark, ["small", "large"]) ∧
        (c.stateAfter []).types.lookup (QName.xsd "decimal").clark = some id ∧
        Yields (c.resolve someCount ⟨.element (wardrobeName "count"), []⟩ none) (c.stateAfter []) id
          (c.stateAfter []) := by
  have run : ((result DeclarationSet.link (exec (DeclarationSet.add wardrobe) .empty).2).toOption.any fun set =>
      (set.type? (wardrobeName "Fits")).any fun d => d.isSimple &&
        decide ((set.classify [] someCount).toOption.map (·.kind) = some .decimal) &&
        match exec (fillTo ⟨set, .ofSet set, {}, {}⟩ 4 ⟨0⟩ d (siteOfType (wardrobeName "Fits")))
          (exec (Resolve.reserve (wardrobeName "Fits") false) .empty).2 with
        | (.ok (), t) => (t.types.get? ⟨0⟩).any fun type => decide (type.simpleKind = some .listOfEnum) &&
          type.listItem.any fun fit =>
            decide (((t.types.get? fit).map fun entry => (entry.key, entry.enumValues)) =
              some ((wardrobeName "Fit").clark, ["small", "large"]))
        | (.error _, _) => false) = true := by decide +kernel
  obtain ⟨set, linked, run⟩ := exists_eq_ok_of_any run
  obtain ⟨d, found, run⟩ := (Option.any_eq_true _ _).1 run
  simp only [Bool.and_eq_true, decide_eq_true_eq] at run
  obtain ⟨⟨simple, count⟩, run⟩ := run
  obtain ⟨-, -, -, -, entries⟩ := nearest_decides (.add .empty wardrobe) linked
  obtain ⟨filled, answered⟩ := entries ⟨set, .ofSet set, {}, {}⟩ rfl
  obtain ⟨y, class_eq, kind⟩ : ∃ y, set.classify [] someCount = .ok y ∧ y.kind = .decimal := by
    cases class_eq : set.classify [] someCount with
    | ok y =>
      rw [class_eq] at count
      exact ⟨y, rfl, Option.some.inj count⟩
    | error e =>
      rw [class_eq] at count
      cases count
  obtain ⟨id, decimal, again⟩ := answered [] _ someCount ⟨.element (wardrobeName "count"), []⟩ none y (.refl 0 _) rfl
    nofun class_eq
  rw [kind] at decimal
  split at run
  · next t h =>
    obtain ⟨type, entry, run⟩ := (Option.any_eq_true _ _).1 run
    simp only [Bool.and_eq_true, decide_eq_true_eq] at run
    obtain ⟨list, run⟩ := run
    obtain ⟨fit, item, literals⟩ := (Option.any_eq_true _ _).1 run
    obtain ⟨x, type', -, entry', classed⟩ := filled 3 ⟨0⟩ d _ _ t simple h
    cases entry.symm.trans entry'
    exact ⟨set, d, x, type, fit, t, id, linked, found, simple, h, entry, classed, list, item,
      of_decide_eq_true literals, decimal, again⟩
  · cases run

end SchemaGraph
