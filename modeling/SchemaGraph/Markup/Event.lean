import SchemaGraph.Markup.Attribute

/-! Markup as a sequence of tags.  Text, comments, processing instructions, character data sections and
a document type declaration say nothing here; they only have to be closed. -/
namespace SchemaGraph.Markup

/-- What stands after the first occurrence of `mark`. -/
def after (mark : List Char) (s : List Char) : Option (List Char) :=
  if mark.isPrefixOf s then some (s.drop mark.length)
  else
    match s with
    | [] => none
    | _ :: r => after mark r

theorem length_after {mark s r : List Char} (h : after mark s = some r) : r.length ≤ s.length := by
  induction s with
  | nil =>
    unfold after at h
    split at h
    · simp only [List.drop_nil, Option.some.injEq] at h
      simp [← h]
    · simp at h
  | cons c t ih =>
    unfold after at h
    split at h
    · simp only [Option.some.injEq] at h
      rw [← h, List.length_drop]
      omega
    · have := ih h
      simp only [List.length_cons]
      omega

/-- Splits at the first closing angle bracket outside quotes; `quote` is the open quote. -/
def tagEnd (quote : Option Char) : List Char → Option (List Char × List Char)
  | [] => none
  | c :: r =>
    match quote with
    | some q => (tagEnd (if c = q then none else quote) r).map fun p => (c :: p.1, p.2)
    | none =>
      if c = '>' then some ([], r)
      else
        (tagEnd (if c = '"' ∨ c = '\'' then some c else none) r).map fun p => (c :: p.1, p.2)

theorem length_tagEnd {quote : Option Char} {s a r : List Char}
    (h : tagEnd quote s = some (a, r)) : r.length < s.length := by
  induction s generalizing quote a r with
  | nil => simp [tagEnd] at h
  | cons c t ih =>
    unfold tagEnd at h
    split at h
    · obtain ⟨u, hu, he⟩ := Option.map_eq_some_iff.1 h
      simp only [Prod.mk.injEq] at he
      exact Nat.lt_succ_of_lt (he.2 ▸ ih hu)
    · split at h
      · simp only [Option.some.injEq, Prod.mk.injEq] at h
        simp [← h.2]
      · obtain ⟨u, hu, he⟩ := Option.map_eq_some_iff.1 h
        simp only [Prod.mk.injEq] at he
        exact Nat.lt_succ_of_lt (he.2 ▸ ih hu)

inductive DoctypePart
  /-- Before the internal subset. -/
  | outside
  | subset
  /-- Inside a declaration that can hold quoted texts. -/
  | declaration

/-- Whether the text after an opening bracket is a declaration that can hold quoted texts.  Whatever else
stands in a subset ends at the first closing bracket. -/
def holdsQuotes (s : List Char) : Bool :=
  ["!ENTITY", "!ATTLIST", "!NOTATION"].any fun keyword => keyword.toList.isPrefixOf s

/-- What follows a document type declaration, given the text after its keyword.  Closing brackets
inside comments, instructions and quotes do not count; behind the internal subset there are no quotes. -/
def afterDoctype (part : DoctypePart) : List Char → Option (List Char)
  | [] => none
  | c :: r =>
    match part with
    | .subset =>
      if c = ']' then after ['>'] r
      else if c = '<' then
        match r with
        | '!' :: '-' :: '-' :: t =>
          match _h : after ['-', '-', '>'] t with
          | some u => afterDoctype .subset u
          | none => none
        | '?' :: t =>
          match _h : after ['?', '>'] t with
          | some u => afterDoctype .subset u
          | none => none
        | t =>
          if holdsQuotes t then afterDoctype .declaration t
          else
            match _h : after ['>'] t with
            | some u => afterDoctype .subset u
            | none => none
      else afterDoctype .subset r
    | .outside =>
      if c = '>' then some r
      else if c = '"' ∨ c = '\'' then
        match _h : Text.cut c r with
        | some (_, t) => afterDoctype .outside t
        | none => none
      else afterDoctype (if c = '[' then .subset else .outside) r
    | .declaration =>
      if c = '"' ∨ c = '\'' then
        match _h : Text.cut c r with
        | some (_, t) => afterDoctype .declaration t
        | none => none
      else afterDoctype (if c = '>' then .subset else .declaration) r
termination_by s => s.length
decreasing_by
  all_goals simp_wf
  · have := length_after _h
    omega
  · have := length_after _h
    omega
  · have := length_after _h
    omega
  · have := Text.length_cut _h
    omega
  · have := Text.length_cut _h
    omega

theorem length_afterDoctype {part : DoctypePart} {s r : List Char}
    (h : afterDoctype part s = some r) : r.length < s.length := by
  fun_induction afterDoctype part s with
  | case3 | case5 | case8 =>
    have := length_after ‹after _ _ = some _›
    grind
  | case2 =>
    have := length_after h
    grind
  | case12 | case15 =>
    have := Text.length_cut ‹Text.cut _ _ = some _›
    grind
  | _ => grind

/-- A tag as written; `attributes` is all that follows the name. -/
inductive Event
  | opening (name attributes : List Char)
  | leaf (name attributes : List Char)
  | closing (name : List Char)
deriving DecidableEq

def Event.ofStart (content : List Char) : Event :=
  let leaf := content.getLast? == some '/'
  let content := if leaf then content.dropLast else content
  let name := content.takeWhile (!isSpace ·)
  let rest := content.dropWhile (!isSpace ·)
  if leaf then .leaf name rest else .opening name rest

/-- The end tag with the text `content` after its slash.  Blanks after a name do not count. -/
def Event.ofEnd (content : List Char) : Event :=
  let name := (content.reverse.dropWhile isSpace).reverse
  .closing (if name.isEmpty then content else name)

inductive Step
  | next (event : Option Event) (rest : List Char)
  | malformed

def Step.ofDeclaration (s : List Char) : Step :=
  let skip := fun rest => (rest.map (Step.next none)).getD .malformed
  match s with
  | '-' :: '-' :: r => skip (after ['-', '-', '>'] r)
  | '[' :: 'C' :: 'D' :: 'A' :: 'T' :: 'A' :: '[' :: r => skip (after [']', ']', '>'] r)
  | _ =>
    if (s.take 7).map Char.toUpper = ['D', 'O', 'C', 'T', 'Y', 'P', 'E'] then
      match (s.drop 7).dropWhile isSpace with
      | '>' :: _ => .malformed
      | _ => skip (afterDoctype .outside (s.drop 7))
    else .malformed

def Step.ofText (c : Char) (r : List Char) : Step :=
  if c = '<' then
    match r with
    | '!' :: t => .ofDeclaration t
    | '?' :: '>' :: _ => .malformed
    | '?' :: t => ((after ['?', '>'] t).map (.next none)).getD .malformed
    | '/' :: t =>
      match tagEnd none t with
      | some (content, rest) => .next (some (.ofEnd content)) rest
      | none => .malformed
    | _ =>
      match tagEnd none r with
      | some (content, rest) => .next (some (.ofStart content)) rest
      | none => .malformed
  else if c = '&' then
    match r.dropWhile (fun d => d != ';' && d != '&' && d != '<') with
    | ';' :: t => .next none t
    | _ => .malformed
  else .next none (r.dropWhile (fun d => d != '<' && d != '&'))

theorem Step.length_ofDeclaration {s rest : List Char} {e : Option Event}
    (h : ofDeclaration s = .next e rest) : rest.length ≤ s.length := by
  unfold ofDeclaration at h
  split at h
  · rename_i r
    cases ha : after ['-', '-', '>'] r with
    | none => simp [ha] at h
    | some t =>
      simp only [ha, Option.map_some, Option.getD_some, Step.next.injEq] at h
      have := length_after ha
      simp only [← h.2, List.length_cons]
      omega
  · rename_i r
    cases ha : after [']', ']', '>'] r with
    | none => simp [ha] at h
    | some t =>
      simp only [ha, Option.map_some, Option.getD_some, Step.next.injEq] at h
      have := length_after ha
      simp only [← h.2, List.length_cons]
      omega
  · split at h
    · split at h
      · simp at h
      · cases ha : afterDoctype .outside (s.drop 7) with
        | none => simp [ha] at h
        | some t =>
          simp only [ha, Option.map_some, Option.getD_some, Step.next.injEq] at h
          have := length_afterDoctype ha
          simp only [List.length_drop] at this
          rw [← h.2]
          omega
    · simp at h

theorem Step.length_ofText {c : Char} {r rest : List Char} {e : Option Event}
    (h : ofText c r = .next e rest) : rest.length ≤ r.length := by
  unfold ofText at h
  split at h
  · split at h
    · have := length_ofDeclaration h
      simp only [List.length_cons]
      omega
    · simp at h
    · rename_i t _
      cases ha : after ['?', '>'] t with
      | none => simp [ha] at h
      | some u =>
        simp only [ha, Option.map_some, Option.getD_some, Step.next.injEq] at h
        have := length_after ha
        simp only [← h.2, List.length_cons]
        omega
    · split at h
      · rename_i t content u ha
        have := length_tagEnd ha
        simp only [Step.next.injEq] at h
        simp only [← h.2, List.length_cons] at *
        omega
      · simp at h
    · split at h
      · rename_i content u ha
        have := length_tagEnd ha
        simp only [Step.next.injEq] at h
        simp only [← h.2] at *
        omega
      · simp at h
  · split at h
    · split at h
      · rename_i t ht
        have := (List.dropWhile_sublist
          (p := fun d => d != ';' && d != '&' && d != '<') (l := r)).length_le
        rw [ht] at this
        simp only [Step.next.injEq] at h
        simp only [← h.2, List.length_cons] at *
        omega
      · simp at h
    · simp only [Step.next.injEq] at h
      rw [← h.2]
      exact (List.dropWhile_sublist _).length_le

/-- The tags of a text up to its end or to the first piece that is malformed. -/
structure Tags where
  events : List Event
  complete : Bool

def Tags.ofText : List Char → Tags
  | [] => ⟨[], true⟩
  | c :: r =>
    match _h : Step.ofText c r with
    | .malformed => ⟨[], false⟩
    | .next event rest =>
      let tail := ofText rest
      ⟨event.toList ++ tail.events, tail.complete⟩
termination_by s => s.length
decreasing_by
  have := Step.length_ofText _h
  simp only [List.length_cons]
  omega

end SchemaGraph.Markup
