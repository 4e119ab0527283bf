import SchemaGraph.Proofs.Resolution.Circles
import SchemaGraph.Proofs.Resolution.Content
import SchemaGraph.Proofs.Resolution.Inheritance
import SchemaGraph.Proofs.Resolution.Kinds
import SchemaGraph.Proofs.Resolution.Linked

/-! The attributes of a type.  They are listed level by level, the type that is extended before the type that
extends it, and inside a level through attribute groups, which may refer to each other in circles. -/
namespace SchemaGraph

open Stateful

namespace DeclarationSet

section Linked

variable {s u : DeclarationSet} {d : TypeDef} {l : AttributeList}

/-- Everything that listing the attributes of a type can come upon.  Global attributes are left out: their types
are not looked up. -/
def attributeMentions (s : DeclarationSet) (d : TypeDef) : List Mention :=
  s.types.values.flatMap TypeDef.mentions ++
    s.attributeGroups.values.flatMap (AttributeUse.mentionsList ·.attributes) ++ d.mentions

theorem attributes_settle (s : DeclarationSet) (d : TypeDef) :
    Settles (s.inheritedAttributes [] d) (fun l => ∃ levels, s.Levels d levels ∧ l.Of s levels)
      (s.Lost (s.attributeMentions d)) := by
  refine inheritedAttributes_levels (fun name g found m hm => ?_) (fun name b found m hm => ?_) [] d
    (List.subset_append_right _ _)
  · have stored := (OrderedMap.mem_values_iff _ _).2 ⟨name, found⟩
    exact List.mem_append_left _ (List.mem_append_right _ (List.mem_flatMap.2 ⟨g, stored, hm⟩))
  · unfold type? at found
    cases stored : s.types.get? name with
    | none =>
      rw [stored] at found
      rw [mentions_builtin found] at hm
      cases hm
    | some b' =>
      rw [stored] at found
      cases found
      have stored := (OrderedMap.mem_values_iff _ _).2 ⟨name, stored⟩
      exact List.mem_append_left _ (List.mem_append_left _ (List.mem_flatMap.2 ⟨b, stored, hm⟩))

theorem exists_attributes_of_link (built : u.Built) (linked : result link u = .ok s)
    (resolves : s.Resolves d.mentions) : ∃ l, s.inheritedAttributes [] d = .ok l := by
  have checked := (checkReferences_of_link linked).2
  obtain ⟨types, -, -, groups⟩ := resolves_of_checkReferences checked
  have declared : s.Resolves (s.attributeMentions d) := by
    intro kind name hm
    rcases List.mem_append.1 hm with hm | hm
    · rcases List.mem_append.1 hm with hm | hm
      · obtain ⟨b, hb, hm⟩ := List.mem_flatMap.1 hm
        exact types b hb kind name hm
      · obtain ⟨g, hg, hm⟩ := List.mem_flatMap.1 hm
        exact groups g hg kind name hm
    · exact resolves kind name hm
  have straight := straight_of_checkReferences (built_of_link built linked).indexed checked
  have circles := inheritedAttributes_offCircle straight [] d fun _ _ => clear_nil
  cases listed : s.inheritedAttributes [] d with
  | ok l => exact ⟨l, rfl⟩
  | error e =>
    obtain ⟨path, rfl⟩ | ⟨kind, name, context, rfl, mentioned, missing⟩ := (s.attributes_settle d).fault listed
    · exact absurd rfl (circles.fault listed path)
    · cases (declared _ _ mentioned).symm.trans missing

end Linked

end DeclarationSet

section Filling

variable {c : ResolveContext} {s t s' t' : ResolveState} {id : TypeId} {d : TypeDef} {site : Site} {depth : Nat}
  {before : TypeEntry} {e : String × TypeRef} {r : TypeRef} {answer : Option TypeId} {l : List (String × TypeRef)}

def Asked (c : ResolveContext) (depth : Nat) (site : Site) (s t : ResolveState) (r : TypeRef)
    (answer : Option TypeId) : Prop :=
  ∃ u v, s.Grows 0 u ∧ v.Grows 0 t ∧ Yields (resolveRef c (resolveType c (fillTo c depth)) site none r) u answer v

theorem Asked.mono (h : Asked c depth site s t r answer) (first : s'.Grows 0 s) (last : t.Grows 0 t') :
    Asked c depth site s' t' r answer := by
  obtain ⟨u, v, hu, hv, resolved⟩ := h
  exact ⟨u, v, first.trans hu, hv.trans last, resolved⟩

abbrev AttributeAnswer : Type := (String × TypeRef) × Option TypeId

def AttributeAnswer.place (a : AttributeAnswer) : String × Option TypeId := (a.1.1, a.2)

theorem entry_of_modifyType {f : TypeEntry → TypeEntry} {keeps : ∀ t, (f t).key = t.key}
    (found : s.types.get? id = some before) (h : Yields (Resolve.modifyType id f keeps) s () t)
    (head : ∀ t, (f t).head = t.head) : s.Grows 0 t ∧ t.types.get? id = some (f before) := by
  obtain ⟨-, rfl⟩ := yields_modifyType.1 h
  exact ⟨.modify keeps (Nat.zero_le _) head, Registry.get?_modify_self keeps found⟩

theorem fillAttribute_inserts (found : s.types.get? id = some before)
    (h : Yields (fillAttribute c (resolveType c (fillTo c depth)) id site e) s () t) :
    s.Grows 0 t ∧ ∃ answer, Asked c depth site s t e.2 answer ∧
      t.types.get? id = some { before with attributes := before.attributes.insert e.1 answer } := by
  obtain ⟨name, r⟩ := e
  obtain ⟨answer, u, resolved, h⟩ := yields_bind.1 h
  have grows : s.Grows 0 u := (resolveRef_keeps resolve_adds s (.refl 0 s)).answer resolved
  have kept := (resolveRef_keeps (fun d site context => resolve_keeps_entry c depth d site context id before)
    s found).answer resolved
  obtain ⟨last, entry⟩ := entry_of_modifyType kept h fun _ => rfl
  exact ⟨grows.trans last, answer, ⟨s, u, .refl 0 s, last, resolved⟩, entry⟩

theorem fillAttributes_inserts (found : s.types.get? id = some before)
    (h : Yields (l.forM (fillAttribute c (resolveType c (fillTo c depth)) id site)) s () t) :
    s.Grows 0 t ∧ ∃ answers : List AttributeAnswer, answers.map Prod.fst = l ∧
      (∀ a ∈ answers, Asked c depth site s t a.1.2 a.2) ∧
      t.types.get? id = some { before with
        attributes := (answers.map AttributeAnswer.place).foldl (fun m p => m.insert p.1 p.2) before.attributes } := by
  have through := Through.yields_forM_iff.1 h
  induction l generalizing s before with
  | nil =>
    obtain rfl := Through.nil_iff.1 through
    exact ⟨.refl 0 s, [], rfl, nofun, found⟩
  | cons e l ih =>
    obtain ⟨u, first, rest⟩ := Through.cons_iff.1 through
    obtain ⟨grows, answer, asked, entry⟩ := fillAttribute_inserts found first
    obtain ⟨grows', answers, rfl, all, entry'⟩ := ih entry (Through.yields_forM_iff.2 rest) rest
    refine ⟨grows.trans grows', (e, answer) :: answers, rfl, List.forall_mem_cons.2 ⟨?_, fun a ha => ?_⟩, entry'⟩
    · exact asked.mono (.refl 0 s) grows'
    · exact (all a ha).mono grows (.refl 0 t)

structure TypeEntry.SameAttributes (type type' : TypeEntry) : Prop where
  attributes : type'.attributes = type.attributes
  any : type'.anyAttribute = type.anyAttribute

theorem fillScalar_sameAttributes (found : s.types.get? id = some before)
    (h : Yields (fillScalar c (resolveType c (fillTo c depth)) id d) s () t) :
    ∃ after, t.types.get? id = some after ∧ before.SameAttributes after := by
  obtain ⟨x, answer, u, -, asked, h⟩ := asked_of_fillScalar h
  have kept : u.types.get? id = some before := by
    obtain ⟨-, -, rfl⟩ | ⟨name, j, -, -, answered⟩ := asked
    · exact found
    · exact (resolveNamed_keeps (fun d site context => resolve_keeps_entry c depth d site context id before)
        s found).answer answered
  exact ⟨_, (entry_of_modifyType kept h fun _ => rfl).2, rfl, rfl⟩

theorem fillComplex_sameAttributes {x : ComplexDef} (found : s.types.get? id = some before)
    (h : Yields (fillComplex c (resolveType c (fillTo c depth)) id x site) s () t) :
    ∃ after, t.types.get? id = some after ∧ before.SameAttributes after := by
  obtain ⟨type, layout, content, u, -, -, placed, h⟩ := leavesPlaced_of_fillComplex h
  have leads := Through.leads (resolve_grows c depth) placed
  have kept : u.types.get? id = some before :=
    (leads.state.get?_eq (Registry.has_iff.2 ⟨before, found⟩)).trans found
  exact ⟨_, (entry_of_modifyType kept h fun _ => rfl).2, rfl, rfl⟩

theorem attributes_of_fillTo (found : s.types.get? id = some before) (blank : before.attributes = ∅)
    (h : Yields (fillTo c (depth + 1) id d site) s () t) :
    ∃ (l : DeclarationSet.AttributeList) (answers : List AttributeAnswer) (after : TypeEntry),
      c.set.inheritedAttributes [] d = .ok l ∧ answers.map Prod.fst = l.attributes ∧
      (∀ a ∈ answers, Asked c depth site s t a.1.2 a.2) ∧ t.types.get? id = some after ∧
      after.attributes = .ofList (answers.map AttributeAnswer.place) ∧ after.anyAttribute = l.anyAttribute := by
  rw [fillTo, fillWith] at h
  obtain ⟨l, listed, h⟩ := yields_ofExcept_bind.1 h
  obtain ⟨_, u, filled, h⟩ := yields_bind.1 h
  obtain ⟨-, answers, all, asked, entry⟩ := fillAttributes_inserts found filled
  obtain ⟨_, v, marked, h⟩ := yields_bind.1 h
  rw [blank] at entry
  let inserted : TypeEntry :=
    { before with attributes := .ofList (answers.map AttributeAnswer.place), anyAttribute := l.anyAttribute }
  obtain ⟨mark, entry⟩ : u.Grows 0 v ∧ v.types.get? id = some inserted :=
    entry_of_modifyType entry marked fun _ => rfl
  have rest : v.Grows 0 t ∧ ∃ after, t.types.get? id = some after ∧ inserted.SameAttributes after := by
    split at h
    · next simple =>
      exact ⟨(fillScalar_keeps resolve_adds stable_grows (Nat.zero_le _) simple v (.refl 0 v)).answer h,
        fillScalar_sameAttributes entry h⟩
    · split at h
      · exact ⟨(fillComplex_grows resolve_adds (Nat.zero_le _) v (.refl 0 v)).answer h,
          fillComplex_sameAttributes entry h⟩
      · obtain ⟨-, rfl⟩ := yields_pure.1 h
        exact ⟨.refl 0 v, _, entry, rfl, rfl⟩
  obtain ⟨later, after, here, attributes, any⟩ := rest
  exact ⟨l, answers, after, listed, all, fun a ha => (asked a ha).mono (.refl 0 s) (mark.trans later), here,
    attributes, any⟩

end Filling

section Inheritance

variable {c : ResolveContext} {depth : Nat} {d : TypeDef} {site : Site} {s t : ResolveState} {type : TypeEntry}
  {levels : List DeclarationSet.Level} {l : DeclarationSet.AttributeList} {answers : List AttributeAnswer}

structure Attributed (c : ResolveContext) (depth : Nat) (site : Site) (s t : ResolveState)
    (levels : List DeclarationSet.Level) (type : TypeEntry) : Prop where
  /-- Its attributes are called what the levels list, -/
  names : ∀ name, name ∈ type.attributes.keys ↔
    ∃ level ∈ levels, ∃ r, c.set.Lists level.definition.attributes (name, r)
  /-- each once, -/
  once : type.attributes.keys.Nodup
  /-- those of higher levels first. -/
  order : ∀ above below, levels = above ++ below →
    (above.flatMap DeclarationSet.Level.names).eraseDups <+: type.attributes.keys
  /-- The lowest level that lists an attribute says of what type it is. -/
  typed : ∀ above level below name, levels = above ++ level :: below → name ∈ level.names →
    (∀ lower ∈ below, name ∉ lower.names) →
    ∃ r answer, c.set.Lists level.definition.attributes (name, r) ∧ Asked c depth site s t r answer ∧
      type.attributes.get? name = some answer
  any : type.anyAttribute = true ↔ ∃ level ∈ levels, c.set.AcceptsAny level.definition

theorem DeclarationSet.names_eq (levels : List Level) :
    (levels.flatMap Level.attributes).map Prod.fst = levels.flatMap Level.names := List.map_flatMap

theorem attributed_of_answers (below : c.set.Levels d levels) (of : l.Of c.set levels)
    (all : answers.map Prod.fst = l.attributes) (asked : ∀ a ∈ answers, Asked c depth site s t a.1.2 a.2)
    (attributes : type.attributes = .ofList (answers.map AttributeAnswer.place))
    (any : type.anyAttribute = l.anyAttribute) :
    Attributed c depth site s t levels type := by
  have lists := below.lists
  have keys : type.attributes.keys = (levels.flatMap DeclarationSet.Level.names).eraseDups := by
    rw [attributes, OrderedMap.keys_ofList, ← DeclarationSet.names_eq, ← of.1, ← all, List.map_map, List.map_map]
    rfl
  refine ⟨fun name => ?_, type.attributes.nodup, fun above below split => ?_, ?_, any ▸ of.2⟩
  · rw [keys, List.mem_eraseDups, List.mem_flatMap]
    refine exists_congr fun level => and_congr_right fun listed => ?_
    rw [DeclarationSet.Level.names, List.mem_map, Prod.exists]
    constructor
    · rintro ⟨_, r, listed', rfl⟩
      exact ⟨r, (lists level listed _).1 listed'⟩
    · rintro ⟨r, listed'⟩
      exact ⟨name, r, (lists level listed _).2 listed', rfl⟩
  · rw [keys, split, List.flatMap_append, List.eraseDups_append]
    exact List.prefix_append _ _
  · intro above level lower name split listed last
    rw [of.1, split, List.flatMap_append, List.flatMap_cons, List.map_eq_append_iff] at all
    obtain ⟨first, rest, rfl, -, rest_eq⟩ := all
    obtain ⟨mid, later, rfl, here, behind⟩ := List.map_eq_append_iff.1 rest_eq
    have named (answers : List AttributeAnswer) :
        (answers.map AttributeAnswer.place).map (·.1) = (answers.map Prod.fst).map Prod.fst := by
      rw [List.map_map, List.map_map]
      rfl
    have inside : name ∈ (mid.map AttributeAnswer.place).map (·.1) := by rwa [named, here]
    have outside : name ∉ (later.map AttributeAnswer.place).map (·.1) := by
      rw [named, behind, DeclarationSet.names_eq, List.mem_flatMap]
      rintro ⟨level, hm, hn⟩
      exact last level hm hn
    obtain ⟨answer, placed, found⟩ := OrderedMap.exists_get?_ofList inside outside
    obtain ⟨a, there, same⟩ := List.mem_map.1 placed
    obtain ⟨rfl, rfl⟩ : a.1.1 = name ∧ a.2 = answer := Prod.mk.inj same
    refine ⟨a.1.2, a.2, ?_, asked a (List.mem_append_right _ (List.mem_append_left _ there)), ?_⟩
    · refine (lists level (by simp [split]) a.1).1 ?_
      rw [← here]
      exact List.mem_map_of_mem there
    · rw [attributes, List.map_append, List.map_append, found]

/-- Attributes are inherited.  In a linked set the attributes of every definition can be listed, also where
attribute groups refer to each other in circles.  When an entry has been filled, its attributes are those that
its definition and the definitions that it extends list, by themselves or through groups: each name once, in
the place where it comes up first, from the top of the extensions down, and with the type that the lowest of the
levels gives it.  Any attribute is accepted if a level or a group that it reaches accepts any.  Nothing that is
resolved later changes the entry. -/
theorem attributes_inherited {u set : DeclarationSet} (built : u.Built)
    (linked : result DeclarationSet.link u = .ok set) :
    (∀ d : TypeDef, set.Resolves d.mentions → ∃ l, set.inheritedAttributes [] d = .ok l) ∧
    ∀ (c : ResolveContext) (depth : Nat) (id : TypeId) (d : TypeDef) (site : Site) (before : TypeEntry)
      (s t : ResolveState), c.set = set → s.types.get? id = some before → before.attributes = ∅ →
      Yields (fillTo c (depth + 1) id d site) s () t →
      ∃ levels type, set.Levels d levels ∧ t.types.get? id = some type ∧
        Attributed c depth site s t levels type ∧
        ∀ depth' d' site' context, Keeps (fun w => w.types.get? id = some type)
          (resolveType c (fillTo c depth') d' site' context) := by
  refine ⟨fun d resolves => DeclarationSet.exists_attributes_of_link built linked resolves, ?_⟩
  rintro c depth id d site before s t rfl found blank filled
  obtain ⟨l, answers, type, listed, all, asked, entry, attributes, any⟩ := attributes_of_fillTo found blank filled
  obtain ⟨levels, below, of⟩ := (c.set.attributes_settle d).answer listed
  exact ⟨levels, type, below, entry, attributed_of_answers below of all asked attributes any,
    fun depth' d' site' context => resolve_keeps_entry c depth' d' site' context id type⟩

def clubName (localName : String) : QName := ⟨some "urn:club", localName⟩

/-- The attributes for contact and those for the address include each other.  An officer is a member whose number
is no longer text. -/
def club : SchemaDocument :=
  let declared := fun name typeName => AttributeUse.declared ⟨name, .named (.xsd typeName)⟩
  { targetNamespace := some "urn:club"
    types := [
      ⟨some (clubName "Member"), false,
        .complex ⟨.none, .empty,
          [declared "name" "string", declared "number" "string", .group (clubName "Contact")], false⟩⟩,
      ⟨some (clubName "Officer"), false,
        .complex ⟨.extension (clubName "Member"), .empty,
          [declared "rank" "string", .group (clubName "Address"), declared "number" "decimal"], false⟩⟩]
    attributeGroups := [
      ⟨clubName "Contact", [declared "mail" "string", .group (clubName "Address")], false⟩,
      ⟨clubName "Address", [.group (clubName "Contact"), declared "town" "string"], true⟩] }

theorem officer_attributes :
    ∃ set d t levels type number, result DeclarationSet.link (exec (DeclarationSet.add club) .empty).2 = .ok set ∧
      set.type? (clubName "Officer") = some d ∧ (∃ l, set.inheritedAttributes [] d = .ok l) ∧
      let c : ResolveContext := ⟨set, .ofSet set, {}, {}⟩
      let s := (exec (Resolve.reserve (clubName "Officer") false) .empty).2
      Yields (fillTo c 3 ⟨0⟩ d (siteOfType (clubName "Officer"))) s () t ∧ t.types.get? ⟨0⟩ = some type ∧
        Attributed c 2 (siteOfType (clubName "Officer")) s t levels type ∧
        type.attributes.keys = ["name", "number", "mail", "town", "rank"] ∧ type.anyAttribute = true ∧
        type.attributes.get? "number" = some (some number) ∧
        t.types.lookup (QName.xsd "decimal").clark = some number := by
  have run : ((result DeclarationSet.link (exec (DeclarationSet.add club) .empty).2).toOption.any fun set =>
      (set.type? (clubName "Officer")).any fun d =>
        match exec (fillTo ⟨set, .ofSet set, {}, {}⟩ 3 ⟨0⟩ d (siteOfType (clubName "Officer")))
          (exec (Resolve.reserve (clubName "Officer") false) .empty).2 with
        | (.ok (), t) => (t.types.get? ⟨0⟩).any fun type =>
          decide (type.attributes.keys = ["name", "number", "mail", "town", "rank"]) && type.anyAttribute &&
            (t.types.lookup (QName.xsd "decimal").clark).any fun number =>
              decide (type.attributes.get? "number" = some (some number))
        | (.error _, _) => false) = true := by decide +kernel
  obtain ⟨set, linked, run⟩ := exists_eq_ok_of_any run
  obtain ⟨d, found, run⟩ := (Option.any_eq_true _ _).1 run
  split at run
  · next t filled =>
    obtain ⟨type, entry, run⟩ := (Option.any_eq_true _ _).1 run
    simp only [Bool.and_eq_true, decide_eq_true_eq] at run
    obtain ⟨⟨keys, any⟩, run⟩ := run
    obtain ⟨number, decimal, typed⟩ := (Option.any_eq_true _ _).1 run
    obtain ⟨lists, inherited⟩ := attributes_inherited (.add .empty club) linked
    have checked := (DeclarationSet.checkReferences_of_link linked).2
    obtain ⟨levels, type', -, entry', attributed, -⟩ :=
      inherited ⟨set, .ofSet set, {}, {}⟩ 2 ⟨0⟩ d _ _ _ t rfl rfl rfl filled
    cases entry.symm.trans entry'
    exact ⟨set, d, t, levels, type, number, linked, found, lists d (DeclarationSet.resolves_of_type? checked found),
      filled, entry, attributed, keys, any, of_decide_eq_true typed, decimal⟩
  · cases run

end Inheritance

end SchemaGraph
