import SchemaGraph.Markup.Reference
import SchemaGraph.Proofs.Code.Enclosure

/-! Generated code as a sequence of tokens.  A scanner goes through the characters one by one, so that a text
that is put together from parts gives the tokens of its parts; a string literal gives its value.
`settles_literal`: the literal of a text is the one token of that text; it stays on its line and has no quote inside
that is not escaped. -/
namespace SchemaGraph.Code

inductive Token
  | word (s : String)
  /-- A string literal, by its value. -/
  | text (s : String)
  | mark (c : Char)
  /-- A string literal that has no value. -/
  | fault
deriving DecidableEq

/-- Where a scanner is, with what it has read of an unfinished token. -/
inductive Scanner
  | code
  | word (w : List Char)
  /-- Behind a slash that a second one makes a comment. -/
  | slash
  | comment
  | text (s : List Char)
  /-- In a string literal, behind a backslash. -/
  | escape (s : List Char)
  /-- In a string literal, behind a backslash and a `u`. -/
  | number (s : List Char)
  /-- In a string literal, among the digits of a code point. -/
  | digits (s ds : List Char)
  /-- Behind a fault. -/
  | lost
deriving DecidableEq

def escape? (c : Char) : Option Char :=
  match c with
  | 'n' => some '\n'
  | 'r' => some '\r'
  | 't' => some '\t'
  | '0' => some '\x00'
  | '\x27' => some '\x27'
  | '"' => some '"'
  | '\\' => some '\\'
  | _ => none

def codePoint? (ds : List Char) : Option Char :=
  if ds.length ≤ 6 then
    (Markup.numeral 16 ds).bind fun n => if n.isValidChar then some (Char.ofNat n) else none
  else none

def isWordChar (c : Char) : Bool := c.isAlphanum || c == '_'

namespace Scanner

def begin (c : Char) : List Token × Scanner :=
  if isWordChar c then ([], word [c])
  else if c = '"' then ([], text [])
  else if c = '/' then ([], slash)
  else if c.isWhitespace then ([], code)
  else ([.mark c], code)

def next : Scanner → Char → List Token × Scanner
  | code, c => begin c
  | word w, c =>
    if isWordChar c then ([], word (w ++ [c])) else (.word (String.ofList w) :: (begin c).1, (begin c).2)
  | slash, c => if c = '/' then ([], comment) else (.mark '/' :: (begin c).1, (begin c).2)
  | comment, c => if c = '\n' then ([], code) else ([], comment)
  | text s, c =>
    if c = '"' then ([.text (String.ofList s)], code)
    else if c = '\\' then ([], escape s) else ([], text (s ++ [c]))
  | escape s, c =>
    if c = 'u' then ([], number s) else
      match escape? c with
      | some d => ([], text (s ++ [d]))
      | none => ([.fault], lost)
  | number s, c => if c = '{' then ([], digits s []) else ([.fault], lost)
  | digits s ds, c =>
    if c = '}' then
      match codePoint? ds with
      | some d => ([], text (s ++ [d]))
      | none => ([.fault], lost)
    else ([], digits s (ds ++ [c]))
  | lost, _ => ([], lost)

def finish : Scanner → List Token
  | word w => [.word (String.ofList w)]
  | slash => [.mark '/']
  | text _ | escape _ | number _ | digits _ _ => [.fault]
  | code | comment | lost => []

def run (z : Scanner) : List Char → List Token × Scanner
  | [] => ([], z)
  | c :: l => ((z.next c).1 ++ ((z.next c).2.run l).1, ((z.next c).2.run l).2)

@[simp] theorem run_nil (z : Scanner) : z.run [] = ([], z) := rfl

theorem run_cons (z : Scanner) (c : Char) (l : List Char) :
    z.run (c :: l) = ((z.next c).1 ++ ((z.next c).2.run l).1, ((z.next c).2.run l).2) := rfl

theorem run_append (z : Scanner) (l r : List Char) :
    z.run (l ++ r) = ((z.run l).1 ++ ((z.run l).2.run r).1, ((z.run l).2.run r).2) := by
  induction l generalizing z with
  | nil => rfl
  | cons c l ih => rw [List.cons_append, run_cons, run_cons, ih, List.append_assoc]

theorem run_append_of {z z' z'' : Scanner} {l r : List Char} {ts ts' : List Token} (h : z.run l = (ts, z'))
    (h' : z'.run r = (ts', z'')) : z.run (l ++ r) = (ts ++ ts', z'') := by
  rw [run_append, h, h']

theorem run_comment {l : List Char} (h : '\n' ∉ l) : comment.run l = ([], comment) := by
  induction l with
  | nil => rfl
  | cons c l ih =>
    rw [List.mem_cons, not_or] at h
    rw [run_cons, next, if_neg (Ne.symm h.1), ih h.2]
    rfl

theorem run_word (w : List Char) {l : List Char} (h : ∀ c ∈ l, isWordChar c = true) :
    (word w).run l = ([], word (w ++ l)) := by
  induction l generalizing w with
  | nil => simp
  | cons c l ih =>
    rw [List.forall_mem_cons] at h
    rw [run_cons, next, if_pos h.1, ih _ h.2]
    simp

end Scanner

def tokens (s : String) : List Token :=
  (Scanner.code.run s.toList).1 ++ (Scanner.code.run s.toList).2.finish

def value? (s : String) : Option String :=
  match tokens s with
  | [.text value] => some value
  | _ => none

/-- A text has these tokens, and no token is unfinished behind it. -/
def Settles (s : String) (ts : List Token) : Prop := Scanner.code.run s.toList = (ts, .code)

/-- A text has these tokens if no word goes on behind it. -/
def Spells (s : String) (ts : List Token) : Prop :=
  ∀ c, isWordChar c = false →
    Scanner.code.run (s.toList ++ [c]) = (ts ++ (Scanner.begin c).1, (Scanner.begin c).2)

section Parts

variable {s s' : String} {ts ts' : List Token}

theorem Settles.spells (h : Settles s ts) : Spells s ts := by
  intro c _
  apply Scanner.run_append_of h
  simp [Scanner.run_cons, Scanner.next]

/-- For texts that are spelled out: the characters are known without looking at the bytes. -/
theorem settles_of_run {l : List Char} (h : Scanner.code.run l = (ts, .code)) : Settles (String.ofList l) ts := by
  rw [Settles, String.toList_ofList, h]

theorem settles_line_of_run {l : List Char} (h : Scanner.code.run (l ++ ['\n']) = (ts, .code)) :
    Settles (String.ofList l ++ "\n") ts := by
  rw [Settles, String.toList_append, String.toList_ofList, ← h]
  rfl

theorem settles_empty : Settles "" [] := rfl

theorem Settles.append (h : Settles s ts) (h' : Settles s' ts') : Settles (s ++ s') (ts ++ ts') := by
  rw [Settles, String.toList_append]
  exact Scanner.run_append_of h h'

theorem Settles.append_spells (h : Settles s ts) (h' : Spells s' ts') : Spells (s ++ s') (ts ++ ts') := by
  intro c hc
  rw [String.toList_append, List.append_assoc, List.append_assoc]
  exact Scanner.run_append_of h (h' c hc)

theorem Spells.append (h : Spells s ts) (h' : Settles s' ts')
    (apart : s'.toList.head?.any (!isWordChar ·) = true) : Settles (s ++ s') (ts ++ ts') := by
  cases first : s'.toList with
  | nil => simp [first] at apart
  | cons c l =>
    have other : isWordChar c = false := by simpa [first] using apart
    have own : ((Scanner.begin c).1 ++ ((Scanner.begin c).2.run l).1, ((Scanner.begin c).2.run l).2) = (ts', .code) := by
      rw [← h', first]
      rfl
    obtain ⟨made, ends⟩ := Prod.mk.inj own
    rw [Settles, String.toList_append, first, List.append_cons, Scanner.run_append, h c other, ← made, ← ends,
      List.append_assoc]

theorem Settles.tokens_append (h : Settles s ts) (r : String) : tokens (s ++ r) = ts ++ tokens r := by
  rw [tokens, String.toList_append, Scanner.run_append, h, tokens, List.append_assoc]

theorem Settles.tokens_eq (h : Settles s ts) : tokens s = ts := by
  rw [tokens, h]
  exact List.append_nil ts

theorem spells_word {w : String} (some : w ≠ "") (h : w.toList.all isWordChar = true) : Spells w [.word w] := by
  intro c hc
  cases first : w.toList with
  | nil => exact absurd (String.toList_eq_nil_iff.1 first) some
  | cons d l =>
    rw [first, List.all_eq_true, List.forall_mem_cons] at h
    have begins : Scanner.code.next d = ([], .word [d]) := by rw [Scanner.next, Scanner.begin, if_pos h.1]
    have whole : String.ofList ([d] ++ l) = w := by rw [List.singleton_append, ← first, String.ofList_toList]
    rw [List.cons_append, Scanner.run_cons, begins, Scanner.run_append, Scanner.run_word _ h.2, Scanner.run_cons,
      Scanner.next, if_neg (by simp [hc]), whole]
    simp

theorem lines_cons (l : String) (ls : List String) : lines (l :: ls) = l ++ "\n" ++ lines ls := by simp [lines]

theorem lines_append (ls ls' : List String) : lines (ls ++ ls') = lines ls ++ lines ls' := by simp [lines]

theorem settles_no_lines : Settles (lines []) [] := rfl

theorem Settles.line {ls : List String} (h : Settles (s ++ "\n") ts) (h' : Settles (lines ls) ts') :
    Settles (lines (s :: ls)) (ts ++ ts') := by
  rw [lines_cons]
  exact h.append h'

theorem Settles.lines_append {ls ls' : List String} (h : Settles (lines ls) ts) (h' : Settles (lines ls') ts') :
    Settles (lines (ls ++ ls')) (ts ++ ts') := by
  rw [Code.lines_append]
  exact h.append h'

theorem settles_comment (h : '\n' ∉ s.toList) : Settles ("//" ++ s ++ "\n") [] := by
  have opened : Scanner.code.run ['/', '/'] = ([], .comment) := rfl
  have closed : Scanner.comment.run ['\n'] = ([], .code) := rfl
  rw [Settles, String.toList_append, String.toList_append]
  exact Scanner.run_append_of (Scanner.run_append_of opened (Scanner.run_comment h)) closed

end Parts

section Literals

theorem digitValue_digitChar {d : Nat} (h : d < 16) : Markup.digitValue 16 (Nat.digitChar d) = some d := by
  revert d
  decide

theorem numeral_toDigits (n : Nat) : Markup.numeral 16 (Nat.toDigits 16 n) = some n := by
  have digits : (Nat.toDigits 16 n).foldlM (fun n c => (Markup.digitValue 16 c).map (n * 16 + ·)) 0 = some n := by
    induction n using Nat.strongRecOn with
    | ind n ih =>
      rw [Nat.toDigits_eq_if (by decide)]
      split
      · next small => simp [digitValue_digitChar small]
      · next large =>
        rw [List.foldlM_append, ih (n / 16) (Nat.div_lt_self (by omega) (by decide))]
        simp [digitValue_digitChar (Nat.mod_lt n (by decide : 0 < 16)), Nat.div_add_mod']
  unfold Markup.numeral
  rw [if_neg (by simp), digits]

theorem codePoint?_toDigits (c : Char) : codePoint? (Nat.toDigits 16 c.toNat) = some c := by
  have valid : c.toNat.isValidChar := c.valid
  have short : (Nat.toDigits 16 c.toNat).length ≤ 6 := by
    rw [Nat.length_toDigits_le_iff (by decide) (by decide)]
    rcases valid with low | ⟨-, high⟩ <;> omega
  rw [codePoint?, if_pos short, numeral_toDigits, Option.bind_some, if_pos valid, Char.ofNat_toNat]

theorem run_digits (s ds : List Char) {l : List Char} (h : '}' ∉ l) :
    (Scanner.digits s ds).run l = ([], .digits s (ds ++ l)) := by
  induction l generalizing ds with
  | nil => simp
  | cons c l ih =>
    rw [List.mem_cons, not_or] at h
    rw [Scanner.run_cons, Scanner.next, if_neg (Ne.symm h.1), ih _ h.2]
    simp

theorem run_escaped (s : List Char) (c : Char) : (Scanner.text s).run (escaped c) = ([], .text (s ++ [c])) := by
  unfold escaped
  split
  case h_7 quote backslash =>
    split
    · have digits : '}' ∉ Nat.toDigits 16 c.toNat := by
        intro digit
        obtain ⟨d, same⟩ := exists_digitChar_of_mem digit
        exact Nat.digitChar_ne '}' (by decide) same.symm
      have opened : (Scanner.text s).run ['\\', 'u', '{'] = ([], .digits s []) := rfl
      have closed : (Scanner.digits s (Nat.toDigits 16 c.toNat)).run ['}'] = ([], .text (s ++ [c])) := by
        rw [Scanner.run_cons, Scanner.next, if_pos rfl, codePoint?_toDigits]
        rfl
      exact Scanner.run_append_of (Scanner.run_append_of opened (run_digits s [] digits)) closed
    · rw [Scanner.run_cons, Scanner.next, if_neg quote, if_neg backslash]
      rfl
  all_goals rfl

theorem run_flatMap_escaped (s l : List Char) :
    (Scanner.text s).run (l.flatMap escaped) = ([], .text (s ++ l)) := by
  induction l generalizing s with
  | nil => simp
  | cons c l ih =>
    rw [List.flatMap_cons, List.append_cons s c l]
    exact Scanner.run_append_of (run_escaped s c) (ih _)

theorem toList_literal (s : String) : (literal s).toList = ['"'] ++ s.toList.flatMap escaped ++ ['"'] := by
  simp [literal]

theorem settles_literal (s : String) : Settles (literal s) [.text s] := by
  have opened : Scanner.code.run ['"'] = ([], .text []) := by decide
  have inside : (Scanner.text []).run (s.toList.flatMap escaped) = ([], .text s.toList) :=
    run_flatMap_escaped [] s.toList
  have closed : (Scanner.text s.toList).run ['"'] = ([.text s], .code) := by
    rw [Scanner.run_cons, Scanner.next, if_pos rfl, String.ofList_toList]
    rfl
  rw [Settles, toList_literal]
  exact Scanner.run_append_of (Scanner.run_append_of opened inside) closed

theorem value?_literal (s : String) : value? (literal s) = some s := by
  rw [value?, (settles_literal s).tokens_eq]

end Literals

section Lines

def isLineBreak (c : Char) : Bool := [0x0A, 0x0B, 0x0C, 0x0D, 0x85, 0x2028, 0x2029].contains c.toNat

def isEscaped (before : List Char) : Bool := (before.reverse.takeWhile (· == '\\')).length % 2 == 1

theorem isEscaped_concat (l : List Char) (c : Char) : isEscaped (l ++ [c]) = (c == '\\' && !isEscaped l) := by
  unfold isEscaped
  rw [List.reverse_append, List.reverse_singleton, List.singleton_append, List.takeWhile_cons]
  by_cases backslash : c = '\\'
  · have parity (n : Nat) : ((n + 1) % 2 == 1) = !(n % 2 == 1) := by grind
    simp [backslash, parity]
  · simp [backslash]

/-- A reader of a string literal is behind an escaping backslash just if the next character is escaped. -/
theorem after_text_eq {l : List Char} (h : Marked.Encloses .text (l.map (·, true))) :
    Zone.after .text l = if isEscaped l then .escape else .text := by
  induction l using List.reverseRecOn with
  | nil => rfl
  | append_singleton l c ih =>
    rw [List.map_append, Marked.encloses_append] at h
    have before := ih h.1
    have held : (Zone.after .text l).holds c = true := by
      simpa [Marked.erase, Function.comp_def, Marked.Encloses] using h.2
    rw [before] at held
    rw [Zone.after_append, before, isEscaped_concat]
    cases escaped : isEscaped l <;> by_cases backslash : c = '\\' <;> by_cases quote : c = '"' <;>
      simp_all [Zone.next, Zone.holds]

theorem isEscaped_of_quote {l before behind : List Char} (h : StaysOpen l) (cut : l = before ++ '"' :: behind) :
    isEscaped before = true := by
  obtain ⟨inside, -⟩ := h
  rw [cut, List.map_append, Marked.encloses_append] at inside
  obtain ⟨front, quote, -⟩ := inside
  have held : (Zone.after .text before).holds '"' = true := by simpa [Marked.erase, Function.comp_def] using quote
  rw [after_text_eq front] at held
  by_contra plain
  rw [if_neg plain] at held
  exact absurd held (by decide)

theorem StaysOpen.not_isEscaped {l : List Char} (h : StaysOpen l) : isEscaped l = false := by
  have behind := h.2
  rw [after_text_eq h.1] at behind
  by_contra escaped
  rw [Bool.not_eq_false] at escaped
  rw [if_pos escaped] at behind
  exact absurd behind (by decide)

theorem isInvisible_of_isLineBreak {c : Char} (h : isLineBreak c = true) : Text.isInvisible c = true := by
  rw [isLineBreak, List.contains_iff_mem] at h
  unfold Text.isInvisible
  generalize c.toNat = n at h
  revert n
  decide +kernel

theorem isLineBreak_digitChar (n : Nat) : isLineBreak (Nat.digitChar n) = false := by
  by_contra feed
  rw [Bool.not_eq_false] at feed
  refine Nat.digitChar_ne (Nat.digitChar n) ?_ rfl
  generalize Nat.digitChar n = c at feed
  simp only [Bool.and_eq_true, bne_iff_ne]
  and_intros
  all_goals
    rintro rfl
    exact absurd feed (by decide +kernel)

theorem isLineBreak_of_mem_escaped {c d : Char} (h : d ∈ escaped c) : isLineBreak d = false := by
  have plain {l : List Char} (all : l.all (!isLineBreak ·) = true) (here : d ∈ l) : isLineBreak d = false := by
    simpa using List.all_eq_true.1 all d here
  unfold escaped at h
  split at h
  case h_7 =>
    split at h
    · rw [List.mem_append, List.mem_append] at h
      rcases h with (opened | digit) | closed
      · exact plain (by decide +kernel) opened
      · obtain ⟨n, rfl⟩ := exists_digitChar_of_mem digit
        exact isLineBreak_digitChar n
      · exact plain (by decide +kernel) closed
    · next visible =>
      rw [List.mem_singleton] at h
      rw [← Bool.not_eq_true]
      exact fun feed => visible (h ▸ isInvisible_of_isLineBreak feed)
  all_goals exact plain (by decide +kernel) h

end Lines

end SchemaGraph.Code
