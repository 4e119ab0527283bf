import SchemaGraph.DeclarationSet

/-! An element without a type takes the type of the head of its substitution group.  The head may be
an element without a type itself, so types are handed down in rounds until a round has none to give. -/
namespace SchemaGraph

def ElementDecl.isUntyped (d : ElementDecl) : Bool :=
  match d.typeRef with
  | .unspecified => true
  | .named _ | .inline _ => false

@[simp] theorem ElementDecl.isUntyped_iff {d : ElementDecl} :
    d.isUntyped = true ↔ d.typeRef = .unspecified := by
  unfold isUntyped
  cases d.typeRef <;> simp

namespace DeclarationSet

/-- The heads of substitution groups, in the order in which elements name them. -/
def heads (s : DeclarationSet) : List QName := s.substitutionGroups.keys

/-- The members of the group of `head` that have no type, each with the type of the head if that has
one. -/
def handedDownBy (s : DeclarationSet) (head : QName) : List (QName × TypeRef) :=
  match s.element? head with
  | none => []
  | some decl =>
    if decl.isUntyped then []
    else
      ((s.substitutes head).filter fun member => (s.element? member).any (·.isUntyped)).map
        fun member => (member, decl.typeRef)

/-- What a round hands down.  Types that come in the same round are not handed on. -/
def handedDown (s : DeclarationSet) : List (QName × TypeRef) := s.heads.flatMap s.handedDownBy

def giveType (s : DeclarationSet) (gift : QName × TypeRef) : DeclarationSet :=
  { s with elements := s.elements.modify gift.1 fun d => { d with typeRef := gift.2 } }

/-- One round of handing types down. -/
def handDown (s : DeclarationSet) : DeclarationSet := s.handedDown.foldl giveType s

def untypedCount (s : DeclarationSet) : Nat := s.elements.entries.countP (·.2.isUntyped)

section Termination

variable {s : DeclarationSet} {name : QName} {r : TypeRef}

theorem mem_handedDownBy_iff {head : QName} :
    (name, r) ∈ s.handedDownBy head ↔ r ≠ .unspecified ∧
      (∃ decl, s.element? head = some decl ∧ decl.typeRef = r) ∧ name ∈ s.substitutes head ∧
      ∃ d, s.element? name = some d ∧ d.typeRef = .unspecified := by
  unfold handedDownBy
  cases found : s.element? head with
  | none => simp
  | some decl =>
    dsimp only
    by_cases untyped : decl.typeRef = .unspecified
    · rw [if_pos (ElementDecl.isUntyped_iff.2 untyped)]
      refine ⟨nofun, ?_⟩
      rintro ⟨typed, ⟨_, ⟨rfl⟩, same⟩, -⟩
      exact absurd (same.symm.trans untyped) typed
    · rw [if_neg (by simpa using untyped)]
      simp only [List.mem_map, List.mem_filter, Option.any_eq_true, ElementDecl.isUntyped_iff,
        Prod.mk.injEq]
      constructor
      · rintro ⟨member, ⟨joins, free⟩, rfl, rfl⟩
        exact ⟨untyped, ⟨decl, rfl, rfl⟩, joins, free⟩
      · rintro ⟨-, ⟨_, ⟨rfl⟩, rfl⟩, joins, free⟩
        exact ⟨name, ⟨joins, free⟩, rfl, rfl⟩

theorem of_mem_handedDown (h : (name, r) ∈ s.handedDown) :
    r ≠ .unspecified ∧ ∃ d, s.element? name = some d ∧ d.typeRef = .unspecified := by
  obtain ⟨head, -, h⟩ := List.mem_flatMap.1 h
  obtain ⟨typed, -, -, free⟩ := mem_handedDownBy_iff.1 h
  exact ⟨typed, free⟩

theorem untypedCount_giveType (s : DeclarationSet) (typed : r ≠ .unspecified) :
    (s.giveType (name, r)).untypedCount =
      ((s.elements.entries.filter (·.2.isUntyped)).filter (·.1 != name)).length := by
  rw [untypedCount, giveType, OrderedMap.modify_eq_mapValues, OrderedMap.mapValues, List.countP_map,
    List.filter_filter, ← List.countP_eq_length_filter]
  apply List.countP_congr
  intro e _
  by_cases own : e.1 = name <;> simp [own, typed]

theorem untypedCount_giveType_le (typed : r ≠ .unspecified) :
    (s.giveType (name, r)).untypedCount ≤ s.untypedCount := by
  rw [untypedCount_giveType s typed, untypedCount, List.countP_eq_length_filter]
  exact List.length_filter_le _ _

theorem untypedCount_giveType_lt (typed : r ≠ .unspecified) {d : ElementDecl}
    (found : s.element? name = some d) (untyped : d.typeRef = .unspecified) :
    (s.giveType (name, r)).untypedCount < s.untypedCount := by
  have declared : (name, d) ∈ s.elements.entries := (OrderedMap.mem_entries_iff _ _ _).2 found
  have counted : (name, d) ∈ s.elements.entries.filter (·.2.isUntyped) :=
    List.mem_filter.2 ⟨declared, ElementDecl.isUntyped_iff.2 untyped⟩
  rw [untypedCount_giveType s typed, untypedCount, List.countP_eq_length_filter,
    List.length_filter_lt_length_iff_exists]
  exact ⟨(name, d), counted, by simp⟩

theorem untypedCount_foldl_le (gifts : List (QName × TypeRef))
    (typed : ∀ gift ∈ gifts, gift.2 ≠ .unspecified) :
    (gifts.foldl giveType s).untypedCount ≤ s.untypedCount := by
  induction gifts generalizing s with
  | nil => exact Nat.le_refl _
  | cons gift rest ih =>
    rw [List.forall_mem_cons] at typed
    exact Nat.le_trans (ih typed.2) (untypedCount_giveType_le typed.1)

theorem untypedCount_handDown_lt (some_gift : s.handedDown ≠ []) :
    s.handDown.untypedCount < s.untypedCount := by
  obtain ⟨⟨name, r⟩, rest, gifts⟩ := List.exists_cons_of_ne_nil some_gift
  have fair : ∀ gift ∈ s.handedDown, gift.2 ≠ .unspecified := fun gift h => (of_mem_handedDown h).1
  rw [gifts, List.forall_mem_cons] at fair
  obtain ⟨typed, d, found, untyped⟩ := of_mem_handedDown (s := s) (gifts ▸ List.mem_cons_self)
  calc s.handDown.untypedCount = (rest.foldl giveType (s.giveType (name, r))).untypedCount := by
        rw [handDown, gifts, List.foldl_cons]
    _ ≤ (s.giveType (name, r)).untypedCount := untypedCount_foldl_le rest fair.2
    _ < s.untypedCount := untypedCount_giveType_lt typed found untyped

end Termination

def inheritTypes (s : DeclarationSet) : DeclarationSet :=
  if _h : s.handedDown = [] then s else s.handDown.inheritTypes
termination_by s.untypedCount
decreasing_by exact untypedCount_handDown_lt _h

end DeclarationSet

end SchemaGraph
