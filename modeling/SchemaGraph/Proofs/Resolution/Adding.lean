import SchemaGraph.Proofs.Resolution.Growth

/-! Adding to a map of elements.  An element gets the last entry, under its own name, or it is left out with
one remark; below an abstract type the concrete types get the last entries, under theirs. -/
namespace SchemaGraph

open Stateful

namespace OrderedMap

variable {κ α : Type} [DecidableEq κ] {m m' : OrderedMap κ α} {k : κ} {a : α}

theorem entries_modify_insert (new : m.contains k = false) (f : α → α) :
    ((m.insert k a).modify k f).entries = m.entries ++ [(k, f a)] := by
  have absent : m.get? k = none := Option.not_isSome_iff_eq_none.1 (Bool.eq_false_iff.1 new)
  have others : m.mapValues (fun j b => if j = k then f b else b) = m := by
    rw [← modify_eq_mapValues, modify, absent]
  calc
    ((m.insert k a).modify k f).entries
        = (m.insert k a).entries.map fun e => (e.1, if e.1 = k then f e.2 else e.2) := by
          rw [modify_eq_mapValues]
          rfl
    _ = (m.entries.map fun e => (e.1, if e.1 = k then f e.2 else e.2)) ++ [(k, f a)] := by
          rw [entries_insert new, List.map_append]
          simp
    _ = m.entries ++ [(k, f a)] := by rw [show m.entries.map _ = m.entries from congrArg entries others]

end OrderedMap

section Elements

variable (c : ResolveContext) (resolve : ResolveType) (owner : String) (decl : ElementDecl) (site : Site)
  (occurs : Occurs)

/-- An element gets an entry with its type and its repeatability, or it is left out with a remark.  Either
comes after all that resolving its type leaves. -/
inductive ElementAdded (elements : ElementMap) (s : ResolveState) :
    ElementMap → Option String → ResolveState → Prop
  | entered {id : TypeId} {t : ResolveState}
      (typed : Yields (resolveRef c resolve site (some decl.name) decl.typeRef) s (some id) t)
      (new : elements.contains decl.name.clark = false) :
      ElementAdded elements s
        (elements.insert decl.name.clark { typeId := id, isList := occurs.isRepeated })
        (some decl.name.clark) t
  | duplicate {id : TypeId} {t : ResolveState}
      (typed : Yields (resolveRef c resolve site (some decl.name) decl.typeRef) s (some id) t)
      (taken : elements.contains decl.name.clark = true) :
      ElementAdded elements s elements none
        { t with diagnostics := t.diagnostics ++ [⟨.duplicateElement, owner ++ "/" ++ decl.name.clark,
          "element declared twice; keeping the first"⟩] }
  | skipped {t : ResolveState}
      (untyped : Yields (resolveRef c resolve site (some decl.name) decl.typeRef) s none t)
      (header : decl.name ∈ c.options.headerOnly) :
      ElementAdded elements s elements none
        { t with
          skippedHeaders :=
            if t.skippedHeaders.contains decl.name.clark then t.skippedHeaders
            else t.skippedHeaders ++ [decl.name.clark]
          diagnostics := t.diagnostics ++ [⟨.skippedHeaderElement, decl.name.clark,
            "untyped header-only element in " ++ owner⟩] }

variable {c resolve owner decl site occurs} {elements elements' : ElementMap} {key : Option String}
  {s t : ResolveState}

theorem yields_diagnose {kind : DiagnosticKind} {subject message : String} {u : Unit} :
    Yields (Resolve.diagnose kind subject message) s u t ↔
      { s with diagnostics := s.diagnostics ++ [⟨kind, subject, message⟩] } = t := yields_modify

theorem elementAdded_of_addElement
    (h : Yields (addElement c resolve elements decl site occurs owner) s (elements', key) t) :
    ElementAdded c resolve owner decl site occurs elements s elements' key t := by
  unfold addElement at h
  rw [yields_bind] at h
  obtain ⟨answer, u, typed, h⟩ := h
  cases answer with
  | none =>
    dsimp only at h
    split at h
    · next header =>
      simp only [yields_bind, yields_modify, yields_diagnose, yields_pure] at h
      obtain ⟨_, _, rfl, _, _, rfl, h, rfl⟩ := h
      cases h
      exact .skipped typed (by simpa using header)
    · exact absurd h not_yields_throw
  | some id =>
    dsimp only at h
    split at h
    · next taken =>
      simp only [yields_bind, yields_diagnose, yields_pure] at h
      obtain ⟨_, _, rfl, h, rfl⟩ := h
      cases h
      exact .duplicate typed taken
    · next new =>
      rw [yields_pure] at h
      obtain ⟨h, rfl⟩ := h
      cases h
      exact .entered typed (Bool.eq_false_iff.2 new)

theorem typeRef_eq_of_yields {context : Option QName} {r : TypeRef} {answer : Option TypeId}
    (h : Yields (resolveRef c resolve site context r) s answer t) : answer = none ↔ r = .unspecified := by
  cases r with
  | named name =>
    obtain ⟨id, -, rfl⟩ := yields_map.1 h
    exact ⟨nofun, nofun⟩
  | inline d =>
    obtain ⟨id, -, rfl⟩ := yields_map.1 h
    exact ⟨nofun, nofun⟩
  | unspecified =>
    obtain ⟨rfl, -⟩ := yields_pure.1 h
    exact ⟨fun _ => rfl, fun _ => rfl⟩

theorem mem_skip (skipped : List String) (key : String) :
    key ∈ if skipped.contains key then skipped else skipped ++ [key] := by
  split
  · next here => exact List.contains_iff_mem.1 here
  · simp

theorem ElementAdded.entered_or_skipped
    (h : ElementAdded c resolve owner decl site occurs elements s elements' key t) :
    decl.typeRef ≠ .unspecified ∧ decl.name.clark ∈ elements'.keys ∨
      decl.typeRef = .unspecified ∧ decl.name ∈ c.options.headerOnly ∧ decl.name.clark ∈ t.skippedHeaders := by
  simp only [OrderedMap.mem_keys_iff]
  cases h with
  | entered typed _ =>
    exact .inl ⟨mt (typeRef_eq_of_yields typed).2 (Option.some_ne_none _), OrderedMap.contains_insert.2 (.inl rfl)⟩
  | duplicate typed taken => exact .inl ⟨mt (typeRef_eq_of_yields typed).2 (Option.some_ne_none _), taken⟩
  | skipped untyped header => exact .inr ⟨(typeRef_eq_of_yields untyped).1 rfl, header, mem_skip _ _⟩

end Elements

section Subtypes

variable (c : ResolveContext) (resolve : ResolveType) (decl : ElementDecl) (e : ElementDescriptor)

/-- A concrete type gets a copy of the entry `e` with its own type, an abstract one is passed over. -/
inductive SubtypeAdded (name : QName) (elements : ElementMap) (s : ResolveState) : ElementMap → ResolveState → Prop
  | abstract {d : TypeDef} (declared : c.set.type? name = some d) (isAbstract : d.isAbstract = true) :
      SubtypeAdded name elements s elements s
  | entered {d : TypeDef} {id : TypeId} {t : ResolveState} (declared : c.set.type? name = some d)
      (concrete : d.isAbstract = false) (typed : Yields (resolve d (siteOfType name) none) s id t)
      (new : elements.contains name.clark = false) :
      SubtypeAdded name elements s
        (elements.insert name.clark { e.substitute id decl.name with
          serializedName := some (e.serializedName.getD decl.name.localName) }) t

abbrev SubtypesAdded : List QName → ElementMap × ResolveState → ElementMap × ResolveState → Prop :=
  Through fun name p q => SubtypeAdded c resolve decl e name p.1 p.2 q.1 q.2

variable {c resolve decl e} {owner : String} {elements elements' : ElementMap} {s t : ResolveState}

theorem SubtypeAdded.entries_le {name : QName} (h : SubtypeAdded c resolve decl e name elements s elements' t) :
    elements.entries <+: elements'.entries := by
  cases h with
  | abstract => exact List.prefix_rfl
  | entered _ _ _ new =>
    rw [OrderedMap.entries_insert new]
    exact List.prefix_append _ _

theorem SubtypeAdded.grows {name : QName} {n : Nat}
    (hresolve : ∀ d site context, Keeps (s.Grows n) (resolve d site context))
    (h : SubtypeAdded c resolve decl e name elements s elements' t) : s.Grows n t := by
  cases h with
  | abstract => exact .refl n s
  | entered _ _ typed _ => exact (hresolve _ _ _ s (.refl n s)).answer typed

theorem SubtypesAdded.entries_le {l : List QName} {p q : ElementMap × ResolveState}
    (h : SubtypesAdded c resolve decl e l p q) : p.1.entries <+: q.1.entries :=
  h.lift (I := fun p q => p.1.entries <+: q.1.entries) (fun _ => List.prefix_rfl)
    (fun _ _ _ => List.IsPrefix.trans) fun _ _ _ _ => SubtypeAdded.entries_le

theorem subtypeAdded_of_addSubtype {acc acc' : ElementMap × Nat} {name : QName}
    (h : Yields (addSubtype c resolve decl e owner acc name) s acc' t) :
    SubtypeAdded c resolve decl e name acc.1 s acc'.1 t ∧
      acc'.2 + acc.1.entries.length = acc.2 + acc'.1.entries.length := by
  unfold addSubtype at h
  obtain ⟨d, hd, h⟩ := yields_ofExcept_bind.1 h
  have declared := DeclarationSet.type_eq_ok_iff.1 hd
  split at h
  · next isAbstract =>
    obtain ⟨rfl, rfl⟩ := yields_pure.1 h
    exact ⟨.abstract declared isAbstract, rfl⟩
  · next concrete =>
    rw [yields_bind] at h
    obtain ⟨id, u, typed, h⟩ := h
    dsimp only at h
    split at h
    · exact absurd h not_yields_throw_bind
    · next new =>
      obtain ⟨rfl, rfl⟩ := yields_pure.1 h
      have new : acc.1.contains name.clark = false := Bool.eq_false_iff.2 new
      refine ⟨.entered declared (Bool.eq_false_iff.2 concrete) typed new, ?_⟩
      rw [OrderedMap.entries_insert new, List.length_append, List.length_singleton]
      omega

theorem subtypesAdded_of_addConcrete {base : QName}
    (h : Yields (addConcrete c resolve elements decl e base owner) s elements' t) :
    ∃ u, SubtypesAdded c resolve decl e (c.hierarchy.descendants base) (elements, s) (elements', u) ∧
      t = if elements'.size = elements.size then
        { u with diagnostics := u.diagnostics ++ [⟨.noConcreteSubtypes, owner ++ "/" ++ decl.name.clark,
          "abstract type " ++ base.clark ++ " has no concrete subtype"⟩] }
      else u := by
  unfold addConcrete at h
  obtain ⟨⟨added, count⟩, u, hfold, h⟩ := yields_bind.1 h
  have steps := Through.of_foldlM hfold
  have counted : count + elements.entries.length = 0 + added.entries.length := by
    refine steps.lift (I := fun x y => y.1.2 + x.1.1.entries.length = x.1.2 + y.1.1.entries.length)
      (fun _ => rfl) ?_ ?_
    · intro x y z hxy hyz
      omega
    · exact fun _ _ _ _ h => (subtypeAdded_of_addSubtype h).2
  have through : SubtypesAdded c resolve decl e (c.hierarchy.descendants base) (elements, s) (added, u) :=
    steps.map (fun x => (x.1.1, x.2)) fun _ _ _ h => (subtypeAdded_of_addSubtype h).1
  dsimp only at h
  by_cases none : count = 0
  · rw [if_pos none, yields_bind] at h
    obtain ⟨_, _, remark, h⟩ := h
    obtain ⟨rfl, rfl⟩ := yields_pure.1 h
    refine ⟨u, through, ?_⟩
    rw [if_pos (show added.size = elements.size by unfold OrderedMap.size; omega), yields_diagnose.1 remark]
  · rw [if_neg none] at h
    obtain ⟨rfl, rfl⟩ := yields_pure.1 h
    refine ⟨u, through, (if_neg fun same => none ?_).symm⟩
    unfold OrderedMap.size at same
    omega

end Subtypes

end SchemaGraph
