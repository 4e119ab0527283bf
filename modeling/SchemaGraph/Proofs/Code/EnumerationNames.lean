import SchemaGraph.Code.Module
import SchemaGraph.Proofs.Code.Identifiers

/-! The names of enumerations and of their variants.  Names are allotted one after the other, and each is apart from
those in use; what the module declares in front of its tables is in use from the beginning, the prelude's `Option` is
not. -/
namespace SchemaGraph.Code

/-- Items get names one after the other; `R` says which name an item gets while others are taken. -/
inductive Allots {α : Type} (R : List String → α → String → Prop) : List String → List α → List String → Prop
  | nil (taken : List String) : Allots R taken [] []
  | cons {taken names : List String} {items : List α} {a : α} {name : String} : R taken a name →
    Allots R (name :: taken) items names → Allots R taken (a :: items) (name :: names)

section Allots

variable {α : Type} {R : List String → α → String → Prop} {taken names : List String} {items : List α}

theorem Allots.length_eq (h : Allots R taken items names) : names.length = items.length := by
  induction h with
  | nil => rfl
  | cons _ _ ih => rw [List.length_cons, List.length_cons, ih]

theorem Allots.not_mem (h : Allots R taken items names) (free : ∀ taken a name, R taken a name → name ∉ taken) :
    ∀ name ∈ names, name ∉ taken := by
  induction h with
  | nil => exact fun _ hn => absurd hn List.not_mem_nil
  | cons first _ ih =>
    rw [List.forall_mem_cons]
    exact ⟨free _ _ _ first, fun n hn later => ih n hn (List.mem_cons_of_mem _ later)⟩

theorem Allots.nodup (h : Allots R taken items names) (free : ∀ taken a name, R taken a name → name ∉ taken) :
    names.Nodup := by
  induction h with
  | nil => exact List.nodup_nil
  | cons _ rest ih => exact List.nodup_cons.2 ⟨fun again => rest.not_mem free _ again (List.mem_cons_self ..), ih⟩

theorem Allots.forall_mem {P : String → Prop} (h : Allots R taken items names)
    (keeps : ∀ taken a name, R taken a name → P name) : ∀ name ∈ names, P name := by
  induction h with
  | nil => exact fun _ hn => absurd hn List.not_mem_nil
  | cons first _ ih => exact List.forall_mem_cons.2 ⟨keeps _ _ _ first, ih⟩

end Allots

section Variants

def VariantNamed (taken : List String) (literal name : String) : Prop := FirstFree taken (identifier literal) name

theorem allots_variantNames (literals : List String) :
    Allots VariantNamed [] literals (Enumeration.variantNames literals) := by
  unfold Enumeration.variantNames
  generalize ([] : List String) = taken
  induction literals generalizing taken with
  | nil => exact .nil taken
  | cons literal literals ih => exact .cons (firstFree_fresh taken _) (ih _)

end Variants

def localPart (schemaName : String) : String := (splitLabel schemaName).2

def qualifiedPart (schemaName : String) : String := (splitLabel schemaName).1 ++ "_" ++ localPart schemaName

/-- An enumeration is named for the local name of its type, and with the label if that name is taken. -/
def TypeNamed (taken : List String) (t : Artifact.TypeRow) (name : String) : Prop :=
  (identifier (localPart t.name) ∉ taken ∧ name = identifier (localPart t.name)) ∨
    identifier (localPart t.name) ∈ taken ∧ FirstFree taken (identifier (qualifiedPart t.name)) name

theorem TypeNamed.not_mem {taken : List String} {t : Artifact.TypeRow} {name : String} (h : TypeNamed taken t name) :
    name ∉ taken := by
  rcases h with ⟨free, made⟩ | ⟨-, first⟩
  · exact made ▸ free
  · exact first.not_mem

theorem TypeNamed.isIdentifier {taken : List String} {t : Artifact.TypeRow} {name : String} (h : TypeNamed taken t name) :
    IsIdentifier name := by
  rcases h with ⟨-, made⟩ | ⟨-, first⟩
  · exact made ▸ isIdentifier_identifier _
  · exact first.isIdentifier (isIdentifier_identifier _)

theorem enumerationName_eq (taken : List String) (schemaName : String) :
    enumerationName taken schemaName =
      if identifier (localPart schemaName) ∈ taken then fresh taken (identifier (qualifiedPart schemaName))
      else identifier (localPart schemaName) := by
  unfold enumerationName qualifiedPart localPart
  rcases splitLabel schemaName with ⟨label, localName⟩
  simp

theorem typeNamed_enumerationName (taken : List String) (t : Artifact.TypeRow) :
    TypeNamed taken t (enumerationName taken t.name) := by
  rw [enumerationName_eq]
  split
  · next here => exact .inr ⟨here, firstFree_fresh taken _⟩
  · next free => exact .inl ⟨free, rfl⟩

theorem allots_enumerationsFrom (taken : List String) (types : List Artifact.TypeRow) :
    Allots TypeNamed taken (types.filter isEnumeration) ((enumerationsFrom taken types).map (·.name)) := by
  induction types generalizing taken with
  | nil => exact .nil taken
  | cons t types ih =>
    rw [enumerationsFrom, List.filter_cons]
    split
    · exact .cons (typeNamed_enumerationName taken t) (ih _)
    · exact ih taken

theorem exists_row_of_mem {taken : List String} {types : List Artifact.TypeRow} {e : Enumeration}
    (he : e ∈ enumerationsFrom taken types) :
    ∃ t ∈ types, isEnumeration t = true ∧ e = .ofLiterals t.name e.name t.enumValues := by
  induction types generalizing taken with
  | nil => cases he
  | cons t types ih =>
    have later {taken : List String} (he : e ∈ enumerationsFrom taken types) :
        ∃ u ∈ t :: types, isEnumeration u = true ∧ e = .ofLiterals u.name e.name u.enumValues := by
      obtain ⟨u, hu, rest⟩ := ih he
      exact ⟨u, List.mem_cons_of_mem _ hu, rest⟩
    rw [enumerationsFrom] at he
    split at he
    · next enumeration =>
      rcases List.mem_cons.1 he with rfl | he
      · exact ⟨t, List.mem_cons_self .., enumeration, rfl⟩
      · exact later he
    · exact later he

theorem literals_ofLiterals (schemaName name : String) (literals : List String) :
    (Enumeration.ofLiterals schemaName name literals).variants.map (·.2) = literals ∧
      ∀ v ∈ (Enumeration.ofLiterals schemaName name literals).variants, IsIdentifier v.1 := by
  have allots := allots_variantNames literals
  constructor
  · exact List.map_snd_zip (Nat.le_of_eq allots.length_eq.symm)
  · intro v hv
    have valid := allots.forall_mem fun _ literal _ first => first.isIdentifier (isIdentifier_identifier literal)
    exact valid v.1 (List.of_mem_zip hv).1

def declaredName? (line : String) : Option String :=
  ["pub enum ", "pub struct "].findSome? fun keywords =>
    if keywords.toByteArray.data.toList.isPrefixOf line.toByteArray.data.toList then
      some (String.ofList ((line.toList.drop keywords.length).takeWhile (· != ' ')))
    else none

def declaredTypes : List String := declarations.filterMap declaredName?

theorem declaredTypes_eq : declaredTypes = declaredNames := by
  decide +kernel

/-- Every list of literals gets as many names for its variants, and every artifact a name for each of its enumerations:
the numbering ends at the first free one, and the names are distinct and well formed.  Enumerations are not called like
a type that the module declares. -/
theorem names_distinct :
    (∀ literals : List String,
      Allots VariantNamed [] literals (Enumeration.variantNames literals) ∧
        (Enumeration.variantNames literals).length = literals.length ∧
        (Enumeration.variantNames literals).Nodup ∧
        ∀ name ∈ Enumeration.variantNames literals, IsIdentifier name) ∧
      ∀ a : Artifact,
        Allots TypeNamed declaredTypes (a.types.filter isEnumeration) ((enumerations a).map (·.name)) ∧
          ((enumerations a).map (·.name)).Nodup ∧
          ∀ e ∈ enumerations a, IsIdentifier e.name ∧ e.name ∉ declaredTypes := by
  constructor
  · intro literals
    have allots := allots_variantNames literals
    refine ⟨allots, allots.length_eq, allots.nodup fun _ _ _ => FirstFree.not_mem, allots.forall_mem ?_⟩
    exact fun _ literal _ first => first.isIdentifier (isIdentifier_identifier literal)
  · intro a
    have allots := allots_enumerationsFrom declaredNames a.types
    have free := allots.not_mem fun _ _ _ => TypeNamed.not_mem
    have valid := allots.forall_mem fun _ _ _ => TypeNamed.isIdentifier
    rw [declaredTypes_eq]
    refine ⟨allots, allots.nodup fun _ _ _ => TypeNamed.not_mem, fun e he => ?_⟩
    have named := List.mem_map_of_mem (f := Enumeration.name) he
    exact ⟨valid e.name named, free e.name named⟩

def enumerationRow (name : String) (literals : List String) : Artifact.TypeRow where
  name
  jsonType := none
  elements := []
  attributes := []
  extraProperties := []
  isList := false
  isAbstract := false
  simpleKind := some .enum
  anyAttribute := false
  textAttribute := none
  listName := none
  enumValues := literals
  listItemType := none

def prints : Artifact :=
  ⟨[enumerationRow "m:Tone" ["8bit", "grey/scale", "Grey-Scale", "", "self"], enumerationRow "t:Tone" ["a"],
    enumerationRow "t:TypeDef" ["b"], enumerationRow "t:tone" ["c"]], [], none, none, []⟩

theorem prints_named :
    (enumerations prints).map (·.name) = ["Tone", "TTone", "TTypeDef", "TTone2"] ∧
      ((enumerations prints).map (·.variants.map (·.1))).head? =
        some ["V8bit", "GreyScale", "GreyScale2", "Empty", "Self_"] ∧
      ((enumerations prints).map (·.name)).Nodup ∧
      ∀ e ∈ enumerations prints, IsIdentifier e.name ∧ e.name ∉ declaredTypes :=
  ⟨by decide +kernel, by decide +kernel, (names_distinct.2 prints).2⟩

section Shadowing

variable {taken : List String} {types : List Artifact.TypeRow} {name : String}

def takenAfter (taken : List String) (types : List Artifact.TypeRow) : List String :=
  ((enumerationsFrom taken types).map (·.name)).reverse ++ taken

/-- A type reads as a name: by its local name, or by its label and its local name if the local name is taken. -/
def ReadsAs (taken : List String) (schemaName name : String) : Prop :=
  identifier (localPart schemaName) = name ∨
    identifier (localPart schemaName) ∈ taken ∧ identifier (qualifiedPart schemaName) = name

theorem fresh_eq_iff {base : String} (plain : name.toList.getLast?.any Char.isDigit = false) (free : name ∉ taken) :
    fresh taken base = name ↔ base = name := by
  obtain ⟨n, made, -, before⟩ := firstFree_fresh taken base
  rw [made]
  cases n with
  | zero => exact Iff.rfl
  | succ n =>
    constructor
    · exact fun same => absurd same (numbered_succ_ne plain n)
    · rintro rfl
      exact absurd (before 0 (Nat.succ_pos n)) free

theorem enumerationName_eq_iff {schemaName : String} (plain : name.toList.getLast?.any Char.isDigit = false)
    (free : name ∉ taken) : enumerationName taken schemaName = name ↔ ReadsAs taken schemaName name := by
  rw [enumerationName_eq, ReadsAs]
  split
  · next here =>
    have other : identifier (localPart schemaName) ≠ name := fun same => free (same ▸ here)
    rw [fresh_eq_iff plain free]
    simp [other, here]
  · next absent => simp [absent]

theorem takenAfter_cons (t : Artifact.TypeRow) :
    takenAfter taken (t :: types) =
      if isEnumeration t then takenAfter (enumerationName taken t.name :: taken) types else takenAfter taken types := by
  unfold takenAfter
  rw [enumerationsFrom]
  split
  · simp [Enumeration.ofLiterals]
  · rfl

theorem takenAfter_nil : takenAfter taken [] = taken := rfl

theorem exists_split_cons_iff {α : Type} {a : α} {l : List α} {P : List α → α → Prop} :
    (∃ before b after, a :: l = before ++ b :: after ∧ P before b) ↔
      P [] a ∨ ∃ before b after, l = before ++ b :: after ∧ P (a :: before) b := by
  constructor
  · rintro ⟨before, b, after, cut, holds⟩
    cases before with
    | nil =>
      obtain ⟨rfl, rfl⟩ := List.cons.inj cut
      exact .inl holds
    | cons c before =>
      obtain ⟨rfl, rest⟩ := List.cons.inj cut
      exact .inr ⟨before, b, after, rest, holds⟩
  · rintro (holds | ⟨before, b, after, rfl, holds⟩)
    · exact ⟨[], a, l, rfl, holds⟩
    · exact ⟨a :: before, b, after, rfl, holds⟩

theorem mem_names_iff (plain : name.toList.getLast?.any Char.isDigit = false) (free : name ∉ taken) :
    name ∈ (enumerationsFrom taken types).map (·.name) ↔
      ∃ before t after, types = before ++ t :: after ∧ isEnumeration t = true ∧
        ReadsAs (takenAfter taken before) t.name name := by
  -- The names in use grow along the types, and the name stays free until a type gets it.
  induction types generalizing taken with
  | nil => simp [enumerationsFrom]
  | cons t types ih =>
    rw [exists_split_cons_iff (P := fun before u => isEnumeration u = true ∧ ReadsAs (takenAfter taken before) u.name name),
      enumerationsFrom, takenAfter_nil]
    simp only [takenAfter_cons]
    split
    · next enumeration =>
      rw [List.map_cons, List.mem_cons, ← enumerationName_eq_iff plain free]
      change name = enumerationName taken t.name ∨ _ ↔ _
      by_cases same : enumerationName taken t.name = name
      · exact iff_of_true (.inl same.symm) (.inl ⟨enumeration, same⟩)
      · have still : name ∉ enumerationName taken t.name :: taken := by
          rw [List.mem_cons, not_or]
          exact ⟨Ne.symm same, free⟩
        rw [ih still]
        simp [same, Ne.symm same]
    · next other =>
      rw [ih free]
      simp [other]

def usedTypes : List String := declaredTypes ++ ["Option"]

/-- Of the types that the code of the module refers to, enumerations can only shadow the one of the prelude, and one of
them does just if its type reads so. -/
theorem shadows_just_prelude (a : Artifact) :
    (∀ e ∈ enumerations a, e.name ∈ usedTypes → e.name = "Option") ∧
      ((∃ e ∈ enumerations a, e.name = "Option") ↔
        ∃ before t after, a.types = before ++ t :: after ∧ isEnumeration t = true ∧
          ReadsAs (takenAfter declaredTypes before) t.name "Option") := by
  constructor
  · intro e he used
    have named := List.mem_map_of_mem (f := Enumeration.name) he
    have free := (allots_enumerationsFrom declaredNames a.types).not_mem (fun _ _ _ => TypeNamed.not_mem) e.name named
    rw [usedTypes, declaredTypes_eq, List.mem_append] at used
    exact List.mem_singleton.1 (used.resolve_left free)
  · rw [declaredTypes_eq, ← mem_names_iff (by decide) (by decide), List.mem_map]
    rfl

def choices : Artifact := ⟨[enumerationRow "t:Option" ["A"]], [], none, none, []⟩

theorem choices_shadow : ∃ e ∈ enumerations choices, e.name ∈ usedTypes ∧ e.name = "Option" := by
  have reads : ReadsAs (takenAfter declaredTypes []) "t:Option" "Option" := .inl (by decide +kernel)
  obtain ⟨e, he, same⟩ := (shadows_just_prelude choices).2.2 ⟨[], _, [], rfl, rfl, reads⟩
  exact ⟨e, he, by simp [usedTypes, same], same⟩

end Shadowing

end SchemaGraph.Code
