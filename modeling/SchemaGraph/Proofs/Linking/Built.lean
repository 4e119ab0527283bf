import SchemaGraph.Linking.Link
import SchemaGraph.Proofs.Outcome

/-! Sets that come from adding and linking documents.  Everything in them stands under its own name, the names that a
document lists are there, and the substitution groups are those of the elements that are there, whatever was rejected on
the way. -/
namespace SchemaGraph

theorem ElementDecl.eta (d : ElementDecl) : ⟨d.name, d.typeRef, d.occurs, d.isAbstract, d.head⟩ = d := by
  cases d
  rfl

namespace DeclarationSet

open Stateful

/-- A set built from nothing by adding and linking, whatever came of each step. -/
inductive Built : DeclarationSet → Prop
  | empty : Built .empty
  | add {s : DeclarationSet} (h : Built s) (doc : SchemaDocument) : Built (exec (add doc) s).2
  | link {s : DeclarationSet} (h : Built s) : Built (exec link s).2

structure Indexed (s : DeclarationSet) : Prop where
  types : ∀ name d, s.types.get? name = some d → d.name = some name
  builtins : ∀ name, (builtinType? name).isSome = true → s.types.get? name = none
  elements : ∀ name d, s.elements.get? name = some d → d.name = name
  attributeGroups : ∀ name d, s.attributeGroups.get? name = some d → d.name = name
  groups : ∀ name d, s.groups.get? name = some d → d.name = name
  members : ∀ head, s.substitutes head = (s.elements.values.filter (·.head == some head)).map (·.name)
  listedTypes : ∀ doc ∈ s.documents, ∀ name ∈ doc.types, s.types.contains name = true
  listedElements : ∀ doc ∈ s.documents, ∀ name ∈ doc.elements, s.elements.contains name = true

/-- `t` has the documents of `s` and at least its types and elements. -/
structure Extends (s t : DeclarationSet) : Prop where
  documents : t.documents = s.documents
  types : ∀ name, s.types.contains name = true → t.types.contains name = true
  elements : ∀ name, s.elements.contains name = true → t.elements.contains name = true

variable {s t u : DeclarationSet}

theorem Extends.refl (s : DeclarationSet) : s.Extends s := ⟨rfl, fun _ => id, fun _ => id⟩

theorem Extends.trans (h : s.Extends t) (h' : t.Extends u) : s.Extends u where
  documents := h'.documents.trans h.documents
  types := fun name hn => h'.types name (h.types name hn)
  elements := fun name hn => h'.elements name (h.elements name hn)

theorem own_insert {α β : Type} {name : α → β} {m : OrderedMap QName α} {k : QName} {a : α}
    {own : QName → β} (h : ∀ k a, m.get? k = some a → name a = own k) (ha : name a = own k) :
    ∀ j b, (m.insert k a).get? j = some b → name b = own j := by
  intro j b hb
  rw [OrderedMap.get?_insert] at hb
  split at hb
  · next hj =>
    cases hb
    exact hj ▸ ha
  · exact h j b hb

theorem Indexed.insertType {name : QName} {d : TypeDef} (h : s.Indexed) (hd : d.name = some name)
    (new : (s.type? name).isSome = false) : Indexed { s with types := s.types.insert name d } :=
  { h with
    types := own_insert h.types hd
    builtins := by
      intro k hk
      rw [OrderedMap.get?_insert]
      split
      · next same =>
        subst same
        rw [type?, h.builtins k hk] at new
        exact absurd hk (by simpa using new)
      · exact h.builtins k hk
    listedTypes := fun doc hdoc name hname =>
      OrderedMap.contains_insert.2 (.inr (h.listedTypes doc hdoc name hname)) }

theorem getD_joinHead (groups : OrderedMap QName (List QName)) (d : ElementDecl) (head : QName) :
    ((joinHead groups d).get? head).getD [] =
      (groups.get? head).getD [] ++ if d.head = some head then [d.name] else [] := by
  unfold joinHead
  cases joins : d.head with
  | none => simp
  | some other =>
    dsimp only
    rw [OrderedMap.get?_insert]
    by_cases same : head = other
    · simp [same]
    · simp [same, Ne.symm same]

theorem Indexed.insertElement {d : ElementDecl} (h : s.Indexed) (new : s.elements.contains d.name = false) :
    Indexed { s with elements := s.elements.insert d.name d, substitutionGroups := joinHead s.substitutionGroups d } :=
  { h with
    elements := own_insert h.elements rfl
    members := by
      intro head
      have known := h.members head
      unfold substitutes at known ⊢
      rw [getD_joinHead, known, OrderedMap.values_insert new, List.filter_append, List.map_append]
      by_cases joins : d.head = some head <;> simp [joins]
    listedElements := fun doc hdoc name hname =>
      OrderedMap.contains_insert.2 (.inr (h.listedElements doc hdoc name hname)) }

theorem addType_ends (d : TypeDef) (h : s.Indexed) :
    Ends (addType d) s (fun _ t => t.Indexed ∧ s.Extends t ∧
      ∀ name, d.name = some name → t.types.contains name = true) fun _ => Indexed := by
  unfold addType
  cases hd : d.name with
  | none => exact h
  | some name =>
    dsimp only
    rw [ends_bind, ends_get]
    split
    · exact h
    · next new =>
      refine ⟨h.insertType hd (Bool.eq_false_iff.2 new), ⟨rfl, fun _ hn => ?_, fun _ => id⟩, ?_⟩
      · exact OrderedMap.contains_insert.2 (.inr hn)
      · rintro _ ⟨⟩
        exact OrderedMap.contains_insert.2 (.inl rfl)

theorem addElement_ends (d : ElementDecl) (h : s.Indexed) :
    Ends (addElement d) s (fun _ t => t.Indexed ∧ s.Extends t ∧ t.elements.contains d.name = true)
      fun _ => Indexed := by
  unfold addElement
  rw [ends_bind, ends_get]
  split
  · exact h
  · next new =>
    refine ⟨h.insertElement (Bool.eq_false_iff.2 new), ⟨rfl, fun _ => id, fun _ hn => ?_⟩, ?_⟩
    · exact OrderedMap.contains_insert.2 (.inr hn)
    · exact OrderedMap.contains_insert.2 (.inl rfl)

theorem addAttribute_ends (name : QName) (d : AttributeDecl) (h : s.Indexed) :
    Ends (addAttribute name d) s (fun _ t => t.Indexed ∧ s.Extends t ∧ True) fun _ => Indexed := by
  have kept : Indexed { s with attributes := s.attributes.insert name d } := { h with }
  unfold addAttribute
  rw [ends_bind, ends_get]
  dsimp only
  rw [ends_bind, ends_modify]
  split
  · exact kept
  · exact ⟨kept, ⟨rfl, fun _ => id, fun _ => id⟩, True.intro⟩

theorem addAttributeGroup_ends (d : AttributeGroupDef) (h : s.Indexed) :
    Ends (addAttributeGroup d) s (fun _ t => t.Indexed ∧ s.Extends t ∧ True) fun _ => Indexed := by
  have kept : Indexed { s with attributeGroups := s.attributeGroups.insert d.name d } :=
    { h with attributeGroups := own_insert h.attributeGroups rfl }
  unfold addAttributeGroup
  rw [ends_bind, ends_get]
  dsimp only
  rw [ends_bind, ends_modify]
  split
  · exact kept
  · exact ⟨kept, ⟨rfl, fun _ => id, fun _ => id⟩, True.intro⟩

theorem addGroup_ends (d : ModelGroupDef) (h : s.Indexed) :
    Ends (addGroup d) s (fun _ t => t.Indexed ∧ s.Extends t ∧ True) fun _ => Indexed := by
  have kept : Indexed { s with groups := s.groups.insert d.name d } :=
    { h with groups := own_insert h.groups rfl }
  unfold addGroup
  rw [ends_bind, ends_get]
  dsimp only
  rw [ends_bind, ends_modify]
  split
  · exact kept
  · exact ⟨kept, ⟨rfl, fun _ => id, fun _ => id⟩, True.intro⟩

theorem forM_ends {α : Type} {g : α → Stateful DeclarationSet DocumentError Unit}
    {P : α → DeclarationSet → Prop} (stable : ∀ a s t, s.Extends t → P a s → P a t)
    (step : ∀ a s, s.Indexed → Ends (g a) s (fun _ t => t.Indexed ∧ s.Extends t ∧ P a t)
      fun _ => Indexed) (l : List α) (h : s.Indexed) :
    Ends (l.forM g) s (fun _ t => t.Indexed ∧ s.Extends t ∧ ∀ a ∈ l, P a t) fun _ => Indexed :=
  Ends.forM_all Extends.refl (fun _ _ _ => Extends.trans) stable l s h step

theorem add_ends (doc : SchemaDocument) (h : s.Indexed) :
    Ends (add doc) s (fun _ => Indexed) fun _ => Indexed := by
  unfold add
  rw [ends_bind]
  refine (forM_ends (fun d s t h hd name hn => h.types name (hd name hn))
    (fun d _ => addType_ends d) doc.types h).mono ?_ fun _ _ => id
  rintro _ s₁ ⟨h₁, -, types⟩
  rw [ends_bind]
  refine (forM_ends (fun d s t h => h.elements d.name)
    (fun d _ => addElement_ends d) doc.elements h₁).mono ?_ fun _ _ => id
  rintro _ s₂ ⟨h₂, e₂, elements⟩
  rw [ends_bind]
  refine (forM_ends (P := fun _ _ => True) (fun _ _ _ _ => id)
    (fun (name, d) _ => addAttribute_ends name d) doc.attributes h₂).mono ?_ fun _ _ => id
  rintro _ s₃ ⟨h₃, e₃, -⟩
  rw [ends_bind]
  refine (forM_ends (P := fun _ _ => True) (fun _ _ _ _ => id)
    (fun d _ => addAttributeGroup_ends d) doc.attributeGroups h₃).mono ?_ fun _ _ => id
  rintro _ s₄ ⟨h₄, e₄, -⟩
  rw [ends_bind]
  refine (forM_ends (P := fun _ _ => True) (fun _ _ _ _ => id)
    (fun d _ => addGroup_ends d) doc.groups h₄).mono ?_ fun _ _ => id
  rintro _ s₅ ⟨h₅, e₅, -⟩
  have later := (e₃.trans e₄).trans e₅
  rw [ends_modify]
  refine { h₅ with listedTypes := ?_, listedElements := ?_ }
  · intro index hindex name hname
    rcases List.mem_append.1 hindex with hindex | hindex
    · exact h₅.listedTypes index hindex name hname
    · obtain rfl := List.mem_singleton.1 hindex
      obtain ⟨d, hd, hn⟩ := List.mem_filterMap.1 hname
      exact later.types name (e₂.types name (types d hd name hn))
  · intro index hindex name hname
    rcases List.mem_append.1 hindex with hindex | hindex
    · exact h₅.listedElements index hindex name hname
    · obtain rfl := List.mem_singleton.1 hindex
      obtain ⟨d, hd, rfl⟩ := List.mem_map.1 hname
      exact later.elements d.name (elements d hd)

def Retypes (s t : DeclarationSet) : Prop :=
  ∃ typeRef : QName → ElementDecl → TypeRef, t = { s with
    elements := s.elements.mapValues fun name d => { d with typeRef := typeRef name d } }

theorem Retypes.refl (s : DeclarationSet) : s.Retypes s := by
  refine ⟨fun _ d => d.typeRef, ?_⟩
  simp only [ElementDecl.eta, OrderedMap.mapValues_self]

theorem Retypes.trans (h : s.Retypes t) (h' : t.Retypes u) : s.Retypes u := by
  obtain ⟨f, rfl⟩ := h
  obtain ⟨g, rfl⟩ := h'
  exact ⟨fun name d => g name { d with typeRef := f name d }, by rw [OrderedMap.mapValues_mapValues]⟩

theorem retypes_giveType (s : DeclarationSet) (gift : QName × TypeRef) : s.Retypes (s.giveType gift) := by
  refine ⟨fun name d => if name = gift.1 then gift.2 else d.typeRef, ?_⟩
  rw [giveType, OrderedMap.modify_eq_mapValues]
  congr
  funext name d
  by_cases own : name = gift.1 <;> simp [own, d.eta]

theorem retypes_handDown (s : DeclarationSet) : s.Retypes s.handDown :=
  List.foldlRecOn _ _ (.refl s) fun t ht gift _ => ht.trans (retypes_giveType t gift)

theorem retypes_inheritTypes (s : DeclarationSet) : s.Retypes s.inheritTypes := by
  induction s using inheritTypes.induct with
  | case1 s done =>
    rw [inheritTypes, dif_pos done]
    exact .refl s
  | case2 s more ih =>
    rw [inheritTypes, dif_neg more]
    exact (retypes_handDown s).trans ih

theorem Retypes.keys (h : s.Retypes t) : t.elements.keys = s.elements.keys := by
  obtain ⟨_, rfl⟩ := h
  exact OrderedMap.keys_mapValues _ _

theorem Retypes.indexed (h : s.Retypes t) (hs : s.Indexed) : t.Indexed := by
  have keys := h.keys
  obtain ⟨_, rfl⟩ := h
  refine { hs with elements := ?_, members := fun head => (hs.members head).trans ?_, listedElements := ?_ }
  · intro name d found
    obtain ⟨d₀, found₀, rfl⟩ := OrderedMap.get?_mapValues_eq_some found
    exact hs.elements name d₀ found₀
  · simp only [OrderedMap.values, OrderedMap.mapValues, List.map_map, List.filter_map]
    rfl
  · intro doc hdoc name listed
    rw [← OrderedMap.mem_keys_iff, keys, OrderedMap.mem_keys_iff]
    exact hs.listedElements doc hdoc name listed

theorem exec_link (s : DeclarationSet) : exec link s = (s.inheritTypes.checkReferences, s.inheritTypes) := by
  unfold link
  rw [exec_bind]
  change exec (MonadExcept.ofExcept s.inheritTypes.checkReferences) s.inheritTypes = _
  cases s.inheritTypes.checkReferences <;> rfl

theorem Built.indexed (h : s.Built) : s.Indexed := by
  induction h with
  | empty =>
    exact ⟨nofun, fun _ _ => rfl, nofun, nofun, nofun, fun _ => rfl, fun _ h => absurd h List.not_mem_nil,
      fun _ h => absurd h List.not_mem_nil⟩
  | add h doc ih => exact Ends.left (add_ends doc ih)
  | @link s _ ih =>
    rw [exec_link]
    exact (retypes_inheritTypes s).indexed ih

theorem Indexed.name_of_type? (h : s.Indexed) {name : QName} {d : TypeDef}
    (hd : s.type? name = some d) : d.name = some name := by
  unfold type? at hd
  cases declared : s.types.get? name with
  | some d' =>
    rw [declared] at hd
    cases hd
    exact h.types name d declared
  | none =>
    rw [declared] at hd
    exact name_builtinType? hd

theorem Indexed.type?_primitive (h : s.Indexed) (p : Primitive) :
    s.type? (.xsd p.builtinName) = some ⟨some (.xsd p.builtinName), false, .builtin p⟩ := by
  rw [type?, h.builtins _ (by rw [builtinType?_primitive]; rfl)]
  exact builtinType?_primitive p

theorem mem_substitutes_iff (hi : s.Indexed) {name head : QName} :
    name ∈ s.substitutes head ↔ ∃ d, s.element? name = some d ∧ d.head = some head := by
  simp only [hi.members, List.mem_map, List.mem_filter, OrderedMap.mem_values_iff, beq_iff_eq]
  constructor
  · rintro ⟨d, ⟨⟨k, found⟩, joins⟩, rfl⟩
    exact ⟨d, hi.elements k d found ▸ found, joins⟩
  · rintro ⟨d, found, joins⟩
    exact ⟨d, ⟨⟨name, found⟩, joins⟩, hi.elements name d found⟩

theorem nodup_substitutes (hi : s.Indexed) (head : QName) : (s.substitutes head).Nodup := by
  have names : s.elements.values.map (·.name) = s.elements.keys := by
    rw [OrderedMap.values, OrderedMap.keys, List.map_map]
    exact List.map_congr_left fun e he => hi.elements e.1 e.2 ((OrderedMap.mem_entries_iff _ _ _).1 he)
  have distinct : (s.elements.values.map (·.name)).Nodup := names ▸ s.elements.nodup
  rw [hi.members]
  exact distinct.sublist (List.filter_sublist.map _)

theorem checkReferences_of_link (h : result link s = .ok t) :
    t = s.inheritTypes ∧ t.checkReferences = .ok () := by
  have linked := result_eq_ok_iff.1 h
  rw [Yields, exec_link, Prod.mk.injEq] at linked
  obtain ⟨checked, rfl⟩ := linked
  exact ⟨rfl, checked⟩

theorem built_of_link (hs : s.Built) (h : result link s = .ok t) : t.Built := by
  have state : (exec link s).2 = t := congrArg Prod.snd (result_eq_ok_iff.1 h)
  exact state ▸ hs.link

end DeclarationSet

end SchemaGraph
