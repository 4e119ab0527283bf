/-! Walks that never come to the same name twice end: each step leaves fewer names to visit.  A walk that
also goes into what stands under a name ends because the sizes of all that is left to visit add up. -/
namespace SchemaGraph

variable {α : Type} [DecidableEq α]

/-- The total size of the `names` that are not on `path`, each counted with one more than its own. -/
def unvisitedSize (size : α → Nat) (names path : List α) : Nat :=
  names.foldr (fun a n => (if a ∈ path then 0 else size a + 1) + n) 0

theorem unvisitedSize_le (size : α → Nat) (names : List α) {path path' : List α}
    (h : path ⊆ path') : unvisitedSize size names path' ≤ unvisitedSize size names path := by
  induction names with
  | nil => simp [unvisitedSize]
  | cons b r ih =>
    simp only [unvisitedSize, List.foldr_cons] at ih ⊢
    by_cases hb : b ∈ path
    · simp only [hb, h hb, ↓reduceIte]
      omega
    · simp only [hb, ↓reduceIte]
      split <;> omega

theorem unvisitedSize_lt (size : α → Nat) {names path path' : List α} {a : α} (h : path ⊆ path')
    (hn : a ∈ names) (hp : a ∉ path) (hp' : a ∈ path') :
    unvisitedSize size names path' + size a < unvisitedSize size names path := by
  induction names with
  | nil => simp at hn
  | cons b r ih =>
    have mono := unvisitedSize_le size r h
    simp only [unvisitedSize, List.foldr_cons, List.mem_cons] at mono ih hn ⊢
    rcases hn with rfl | hr
    · simp only [hp, hp', ↓reduceIte]
      omega
    · have := ih hr
      by_cases hb : b ∈ path
      · simp only [hb, h hb, ↓reduceIte]
        omega
      · simp only [hb, ↓reduceIte]
        split <;> omega

theorem unvisitedSize_cons_lt (size : α → Nat) {names path : List α} {a : α} (hn : a ∈ names)
    (hp : a ∉ path) :
    unvisitedSize size names (a :: path) + size a < unvisitedSize size names path :=
  unvisitedSize_lt size (List.subset_cons_self a path) hn hp List.mem_cons_self

def unvisited (names path : List α) : Nat := unvisitedSize (fun _ => 0) names path

theorem unvisited_le_length (names path : List α) : unvisited names path ≤ names.length := by
  unfold unvisited
  induction names with
  | nil => exact Nat.le_refl _
  | cons a r ih =>
    simp only [unvisitedSize, List.foldr_cons, List.length_cons] at ih ⊢
    split <;> omega

theorem unvisited_lt {names path path' : List α} {a : α} (h : path ⊆ path') (hn : a ∈ names)
    (hp : a ∉ path) (hp' : a ∈ path') : unvisited names path' < unvisited names path := by
  simpa [unvisited] using unvisitedSize_lt (fun _ => 0) h hn hp hp'

theorem unvisited_cons_lt {names path : List α} {a : α} (hn : a ∈ names) (hp : a ∉ path) :
    unvisited names (a :: path) < unvisited names path :=
  unvisited_lt (List.subset_cons_self a path) hn hp List.mem_cons_self

end SchemaGraph
