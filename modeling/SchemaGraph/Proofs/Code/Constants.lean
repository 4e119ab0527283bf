import SchemaGraph.Proofs.Code.Tokens

/-! Constants of generated code, as they are read from its tokens.  Each way of writing one has a lemma that says
what is read, so that a table is read row by row and field by field.  `initializer?_declared`: what a static
is initialized with is found where it is declared. -/
namespace SchemaGraph.Code

inductive Constant
  | text (s : String)
  /-- A name, with the names that qualify it. -/
  | name (path : String)
  | call (function : String) (argument : Constant)
  | list (items : List Constant)
  | record (type : String) (fields : List (String × Constant))

def path (w : String) : List Token → String × List Token
  | .mark ':' :: .mark ':' :: .word v :: r => path (w ++ "::" ++ v) r
  | r => (w, r)

mutual

/-- The constant at the head of the tokens, and what follows.  The number bounds the depth of nesting. -/
def constant? : Nat → List Token → Option (Constant × List Token)
  | _, .text s :: r => some (.text s, r)
  | n + 1, .mark '&' :: .mark '[' :: r => (items? n r).map fun (items, r) => (.list items, r)
  | n + 1, .word w :: r =>
    match path w r with
    | (function, .mark '(' :: r) =>
      match constant? n r with
      | some (argument, .mark ')' :: r) => some (.call function argument, r)
      | _ => none
    | (type, .mark '{' :: r) => (fields? n r).map fun (fields, r) => (.record type fields, r)
    | (name, r) => some (.name name, r)
  | _, _ => none

def items? : Nat → List Token → Option (List Constant × List Token)
  | _, .mark ']' :: r => some ([], r)
  | n + 1, l =>
    match constant? n l with
    | some (c, .mark ',' :: r) => (items? n r).map fun (items, r) => (c :: items, r)
    | some (c, .mark ']' :: r) => some ([c], r)
    | _ => none
  | 0, _ => none

def fields? : Nat → List Token → Option (List (String × Constant) × List Token)
  | _, .mark '}' :: r => some ([], r)
  | n + 1, .word key :: .mark ':' :: l =>
    match constant? n l with
    | some (c, .mark ',' :: r) => (fields? n r).map fun (fields, r) => ((key, c) :: fields, r)
    | some (c, .mark '}' :: r) => some ([(key, c)], r)
    | _ => none
  | _, _ => none

end

def initial? (l : List Token) : Option Constant :=
  match l.dropWhile (· != .mark '=') with
  | _ :: r =>
    match constant? r.length r with
    | some (c, .mark ';' :: _) => some c
    | _ => none
  | [] => none

def initializer? (name : String) : List Token → Option Constant
  | [] => none
  | t :: r =>
    if (t = .word "static" ∨ t = .word "const") ∧ r.head? = some (.word name) then initial? r
    else initializer? name r

def constantOf? (s : String) : Option Constant :=
  match constant? (tokens s).length (tokens s) with
  | some (c, []) => some c
  | _ => none

def Ends (r : List Token) : Prop := r.head?.all (· ∉ [.mark ':', .mark '(', .mark '{']) = true

theorem path_of_head {w : String} {r : List Token} (h : r.head? ≠ some (.mark ':')) : path w r = (w, r) := by
  unfold path
  split
  · exact absurd rfl h
  · rfl

theorem path_of_ends {w : String} {r : List Token} (h : Ends r) : path w r = (w, r) := by
  apply path_of_head
  intro colon
  simp [Ends, colon] at h

def Reads (ts : List Token) (c : Constant) : Prop :=
  ∀ n r, ts.length ≤ n → Ends r → constant? n (ts ++ r) = some (c, r)

def ReadsItems (ts : List Token) (items : List Constant) : Prop :=
  ∀ n r, ts.length < n → items? n (ts ++ Token.mark ']' :: r) = some (items, r)

def ReadsFields (ts : List Token) (fields : List (String × Constant)) : Prop :=
  ∀ n r, ts.length < n → fields? n (ts ++ Token.mark '}' :: r) = some (fields, r)

section Reads

variable {ts ts' : List Token} {c : Constant} {items : List Constant} {fields : List (String × Constant)} {w : String}

theorem reads_text (s : String) : Reads [.text s] (.text s) := by
  intro n r _ _
  cases n <;> simp [constant?]

theorem reads_of_path {p : String} (h : ∀ r, Ends r → path w (ts ++ r) = (p, r)) : Reads (.word w :: ts) (.name p) := by
  intro n r fuel ends
  cases n with
  | zero => simp at fuel
  | succ n =>
    simp only [List.cons_append, constant?, h r ends]
    split
    all_goals simp_all [Ends]

theorem reads_name (w : String) : Reads [.word w] (.name w) := reads_of_path fun _ => path_of_ends

theorem reads_qualified (w v : String) :
    Reads [.word w, .mark ':', .mark ':', .word v] (.name (w ++ "::" ++ v)) :=
  reads_of_path fun _ => path_of_ends

theorem Reads.call (h : Reads ts c) (w : String) :
    Reads (.word w :: .mark '(' :: (ts ++ [Token.mark ')'])) (.call w c) := by
  intro n r fuel _
  cases n with
  | zero => simp at fuel
  | succ n =>
    have argument := h n (.mark ')' :: r) (by simp at fuel; omega) (by simp [Ends])
    have whole : path w (.mark '(' :: (ts ++ [Token.mark ')'] ++ r)) = (w, _) := path_of_head (by simp)
    rw [List.append_cons ts] at argument
    simp only [List.cons_append, constant?, whole, argument]

theorem Reads.list (h : ReadsItems ts items) :
    Reads (.mark '&' :: .mark '[' :: (ts ++ [Token.mark ']'])) (.list items) := by
  intro n r fuel _
  cases n with
  | zero => simp at fuel
  | succ n =>
    have inner := h n r (by simp at fuel; omega)
    rw [List.append_cons ts] at inner
    simp only [List.cons_append, constant?, inner, Option.map_some]

theorem Reads.record (h : ReadsFields ts fields) (w : String) :
    Reads (.word w :: .mark '{' :: (ts ++ [Token.mark '}'])) (.record w fields) := by
  intro n r fuel _
  cases n with
  | zero => simp at fuel
  | succ n =>
    have inner := h n r (by simp at fuel; omega)
    have whole : path w (.mark '{' :: (ts ++ [Token.mark '}'] ++ r)) = (w, _) := path_of_head (by simp)
    rw [List.append_cons ts] at inner
    simp only [List.cons_append, constant?, whole, inner, Option.map_some]

theorem readsItems_nil : ReadsItems [] [] := by
  intro n r _
  cases n <;> simp [items?]

theorem ne_bracket_of_constant {n : Nat} {l r : List Token} {p : Constant × List Token} (h : constant? n l = some p) :
    l ≠ .mark ']' :: r := by
  rintro rfl
  cases n <;> simp [constant?] at h

theorem Reads.last (h : Reads ts c) : ReadsItems ts [c] := by
  intro n r fuel
  cases n with
  | zero => omega
  | succ n =>
    have first := h n (.mark ']' :: r) (by omega) (by simp [Ends])
    rw [items?, first]
    · rfl
    · exact fun _ => ne_bracket_of_constant first

theorem Reads.item (h : Reads ts c) (h' : ReadsItems ts' items) :
    ReadsItems (ts ++ Token.mark ',' :: ts') (c :: items) := by
  intro n r fuel
  rw [List.length_append, List.length_cons] at fuel
  cases n with
  | zero => omega
  | succ n =>
    have first := h n (.mark ',' :: (ts' ++ Token.mark ']' :: r)) (by omega) (by simp [Ends])
    rw [List.append_assoc, List.cons_append, items?, first]
    · simp only [h' n r (by omega), Option.map_some]
    · exact fun _ => ne_bracket_of_constant first

theorem readsFields_nil : ReadsFields [] [] := by
  intro n r _
  cases n <;> simp [fields?]

theorem Reads.lastField (h : Reads ts c) (w : String) : ReadsFields (.word w :: .mark ':' :: ts) [(w, c)] := by
  intro n r fuel
  rw [List.length_cons, List.length_cons] at fuel
  cases n with
  | zero => omega
  | succ n => simp only [List.cons_append, fields?, h n (.mark '}' :: r) (by omega) (by simp [Ends])]

theorem Reads.field (h : Reads ts c) (h' : ReadsFields ts' fields) (w : String) :
    ReadsFields (.word w :: .mark ':' :: (ts ++ Token.mark ',' :: ts')) ((w, c) :: fields) := by
  intro n r fuel
  simp only [List.length_cons, List.length_append] at fuel
  cases n with
  | zero => omega
  | succ n =>
    have value := h n (.mark ',' :: (ts' ++ Token.mark '}' :: r)) (by omega) (by simp [Ends])
    simp only [List.cons_append, List.append_assoc, fields?, value, h' n r (by omega), Option.map_some]

def declared (keyword name : String) (type ts : List Token) : List Token :=
  .word "pub" :: .word keyword :: .word name :: (type ++ Token.mark '=' :: (ts ++ [Token.mark ';']))

theorem initializer?_append {name : String} {before behind : List Token} (absent : .word name ∉ before)
    (apart : behind.head? ≠ some (.word name)) : initializer? name (before ++ behind) = initializer? name behind := by
  induction before with
  | nil => rfl
  | cons t before ih =>
    rw [List.mem_cons, not_or] at absent
    rw [List.cons_append, initializer?, if_neg, ih absent.2]
    rintro ⟨-, next⟩
    cases before with
    | nil => exact apart next
    | cons u before => exact absent.2 (by simpa using Or.inl (by simpa using next.symm))

theorem initializer?_declared {keyword name : String} {type : List Token} (h : Reads ts c)
    (kept : keyword = "static" ∨ keyword = "const") (unequal : .mark '=' ∉ type) (behind : List Token) :
    initializer? name (declared keyword name type ts ++ behind) = some c := by
  have skipped :
      (.word name :: (type ++ Token.mark '=' :: (ts ++ Token.mark ';' :: behind))).dropWhile (· != .mark '=') =
        .mark '=' :: (ts ++ Token.mark ';' :: behind) := by
    have passed : ∀ t ∈ .word name :: type, (t != .mark '=') = true := by
      simp only [List.forall_mem_cons, bne_iff_ne]
      exact ⟨nofun, fun t ht same => unequal (same ▸ ht)⟩
    rw [← List.cons_append, List.dropWhile_append_of_pos passed]
    simp
  have read := h (ts ++ Token.mark ';' :: behind).length (.mark ';' :: behind) (by simp) (by simp [Ends])
  have found : initial? (.word name :: (type ++ Token.mark '=' :: (ts ++ Token.mark ';' :: behind))) = some c := by
    simp only [initial?, skipped, read]
  have spelled : declared keyword name type ts ++ behind =
      .word "pub" :: .word keyword :: .word name :: (type ++ Token.mark '=' :: (ts ++ Token.mark ';' :: behind)) := by
    simp [declared]
  rw [spelled, initializer?, if_neg (by simp), initializer?, if_pos (by simpa using kept), found]

theorem constantOf?_of_reads {s : String} (h : Reads ts c) (spelled : tokens s = ts) : constantOf? s = some c := by
  have read := h ts.length [] (Nat.le_refl _) rfl
  rw [List.append_nil] at read
  rw [constantOf?, spelled, read]

end Reads

end SchemaGraph.Code
