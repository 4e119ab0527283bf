import SchemaGraph.Proofs.Code.EnumerationNames

/-! Where the texts of a schema stand in the code of an enumeration.  In string literals they are escaped, so that they
never get out of them; in comments they stand as they are, and a line feed ends the comment.  A reader of code that
knows comments and string literals tells both apart. -/
namespace SchemaGraph.Code

inductive Zone
  | code
  /-- Behind a slash that a second one makes a comment. -/
  | slash
  | comment
  /-- A string literal. -/
  | text
  /-- A string literal, behind a backslash. -/
  | escape
deriving DecidableEq

namespace Zone

def next : Zone → Char → Zone
  | comment, c => if c = '\n' then code else comment
  | text, c => if c = '"' then code else if c = '\\' then escape else text
  | escape, _ => text
  | z, c => if c = '"' then text else if c = '/' then (if z = slash then comment else slash) else code

def after (z : Zone) (l : List Char) : Zone := l.foldl next z

def holds (z : Zone) (c : Char) : Bool :=
  match z, z.next c with
  | comment, comment | text, text | text, escape | escape, text => true
  | _, _ => false

@[simp] theorem after_nil (z : Zone) : z.after [] = z := rfl

@[simp] theorem after_cons (z : Zone) (c : Char) (l : List Char) : z.after (c :: l) = (z.next c).after l := rfl

@[simp] theorem after_append (z : Zone) (l r : List Char) : z.after (l ++ r) = (z.after l).after r :=
  List.foldl_append

def isPlain (c : Char) : Bool := c != '"' && c != '/'

theorem after_code {l : List Char} (plain : l.all isPlain = true) : code.after l = code := by
  induction l with
  | nil => rfl
  | cons c l ih =>
    simp only [List.all_cons, isPlain, Bool.and_eq_true, bne_iff_ne] at plain
    rw [after_cons, next, if_neg plain.1.1, if_neg plain.1.2]
    · exact ih plain.2
    all_goals simp

theorem after_comment {l : List Char} (h : '\n' ∉ l) : comment.after l = comment := by
  induction l with
  | nil => rfl
  | cons c l ih =>
    rw [List.mem_cons, not_or] at h
    rw [after_cons, next, if_neg (Ne.symm h.1)]
    exact ih h.2

end Zone

/-- Characters, each with whether it comes from the schema. -/
abbrev Marked := List (Char × Bool)

namespace Marked

def own (s : String) : Marked := s.toList.map (·, false)

def given (s : String) : Marked := s.toList.map (·, true)

def erase (m : Marked) : String := String.ofList (m.map (·.1))

@[simp] theorem erase_own (s : String) : erase (own s) = s := by
  simp [erase, own, Function.comp_def]

@[simp] theorem erase_given (s : String) : erase (given s) = s := by
  simp [erase, given, Function.comp_def]

@[simp] theorem erase_append (m n : Marked) : erase (m ++ n) = erase m ++ erase n := by
  simp [erase]

theorem own_append (s t : String) : own s ++ own t = own (s ++ t) := by
  simp [own]

/-- What comes from the schema is inside comments and string literals. -/
def Encloses : Zone → Marked → Prop
  | _, [] => True
  | z, (c, given) :: m => (given = true → z.holds c = true) ∧ Encloses (z.next c) m

theorem encloses_append {z : Zone} {m n : Marked} :
    Encloses z (m ++ n) ↔ Encloses z m ∧ Encloses (z.after (erase m).toList) n := by
  induction m generalizing z with
  | nil => simp [Encloses, erase]
  | cons c m ih =>
    rw [List.cons_append, Encloses, Encloses, ih, and_assoc]
    simp [erase]

@[simp] theorem encloses_own (z : Zone) (s : String) : Encloses z (own s) := by
  unfold own
  induction s.toList generalizing z with
  | nil => trivial
  | cons c l ih => exact ⟨nofun, ih _⟩

theorem encloses_given_comment {s : String} : Encloses .comment (given s) ↔ '\n' ∉ s.toList := by
  unfold given
  induction s.toList with
  | nil => simp [Encloses]
  | cons c l ih =>
    rw [List.map_cons, Encloses, List.mem_cons, not_or]
    by_cases feed : c = '\n'
    · simp [feed, Zone.holds, Zone.next]
    · simp [Ne.symm feed, feed, Zone.holds, Zone.next, ih]

end Marked

section Literals

theorem exists_digitChar_of_mem {c : Char} {n : Nat} (h : c ∈ Nat.toDigits 16 n) : ∃ d, c = Nat.digitChar d := by
  induction n using Nat.strongRecOn with
  | ind n ih =>
    rw [Nat.toDigits_eq_if (by decide)] at h
    split at h
    · exact ⟨n, List.mem_singleton.1 h⟩
    · next large =>
      rcases List.mem_append.1 h with before | last
      · exact ih (n / 16) (Nat.div_lt_self (by omega) (by decide)) before
      · exact ⟨n % 16, List.mem_singleton.1 last⟩

theorem holds_plain {c : Char} (quote : c ≠ '"') (backslash : c ≠ '\\') :
    Zone.holds .text c = true ∧ Zone.next .text c = .text := by
  simp [Zone.holds, Zone.next, quote, backslash]

/-- Characters of a string literal that are read inside it, and behind which it is still open. -/
def StaysOpen (l : List Char) : Prop :=
  Marked.Encloses .text (l.map (·, true)) ∧ Zone.after .text l = .text

theorem StaysOpen.nil : StaysOpen [] := ⟨trivial, rfl⟩

theorem StaysOpen.append {l r : List Char} (h : StaysOpen l) (h' : StaysOpen r) : StaysOpen (l ++ r) := by
  refine ⟨?_, by rw [Zone.after_append, h.2, h'.2]⟩
  rw [List.map_append, Marked.encloses_append]
  refine ⟨h.1, ?_⟩
  simpa [Marked.erase, Function.comp_def, h.2] using h'.1

theorem StaysOpen.cons {c : Char} {l : List Char} (quote : c ≠ '"') (backslash : c ≠ '\\') (h : StaysOpen l) :
    StaysOpen (c :: l) := by
  obtain ⟨holds, next⟩ := holds_plain quote backslash
  refine ⟨⟨fun _ => holds, ?_⟩, by rw [Zone.after_cons, next, h.2]⟩
  rw [next]
  exact h.1

theorem StaysOpen.escape {c : Char} {l : List Char} (h : StaysOpen l) : StaysOpen ('\\' :: c :: l) := by
  have first : Zone.holds .text '\\' = true ∧ Zone.next .text '\\' = .escape := by decide
  have second : Zone.holds .escape c = true ∧ Zone.next .escape c = .text := by simp [Zone.holds, Zone.next]
  refine ⟨⟨fun _ => first.1, ?_⟩, by rw [Zone.after_cons, first.2, Zone.after_cons, second.2, h.2]⟩
  rw [first.2]
  refine ⟨fun _ => second.1, ?_⟩
  rw [second.2]
  exact h.1

theorem staysOpen_digits (n : Nat) : StaysOpen (Nat.toDigits 16 n) := by
  have plain : ∀ c ∈ Nat.toDigits 16 n, c ≠ '"' ∧ c ≠ '\\' := by
    intro c hc
    obtain ⟨d, rfl⟩ := exists_digitChar_of_mem hc
    exact ⟨Nat.digitChar_ne '"' (by decide), Nat.digitChar_ne '\\' (by decide)⟩
  generalize Nat.toDigits 16 n = l at plain
  induction l with
  | nil => exact .nil
  | cons c l ih =>
    rw [List.forall_mem_cons] at plain
    exact .cons plain.1.1 plain.1.2 (ih plain.2)

theorem staysOpen_escaped (c : Char) : StaysOpen (escaped c) := by
  unfold escaped
  split
  -- All but the last case are a backslash and one character.
  case h_7 c _ _ _ _ quote backslash =>
    split
    · rw [List.append_assoc]
      exact .escape (.cons (by decide) (by decide) ((staysOpen_digits _).append (.cons (by decide) (by decide) .nil)))
    · exact .cons quote backslash .nil
  all_goals exact .escape .nil

theorem feed_not_mem_escaped (c : Char) : '\n' ∉ escaped c := by
  unfold escaped
  split
  case h_7 c _ _ _ feed _ _ =>
    split
    · simp only [List.mem_append, not_or]
      refine ⟨⟨by decide, fun digit => ?_⟩, by decide⟩
      obtain ⟨d, same⟩ := exists_digitChar_of_mem digit
      exact Nat.digitChar_ne '\n' (by decide) same.symm
    · simpa using Ne.symm feed
  all_goals decide

theorem staysOpen_flatMap_escaped (l : List Char) : StaysOpen (l.flatMap escaped) := by
  induction l with
  | nil => exact .nil
  | cons c l ih =>
    rw [List.flatMap_cons]
    exact (staysOpen_escaped c).append ih

theorem feed_not_mem_literal (s : String) : '\n' ∉ (literal s).toList := by
  simp [literal, feed_not_mem_escaped]

end Literals

namespace Marked

def ofLiteral (s : String) : Marked := own "\"" ++ given (String.ofList (s.toList.flatMap escaped)) ++ own "\""

@[simp] theorem erase_ofLiteral (s : String) : erase (ofLiteral s) = literal s := by
  simp [ofLiteral, literal, String.append_assoc]

theorem encloses_ofLiteral (s : String) :
    Encloses .code (ofLiteral s) ∧ Zone.after .code (literal s).toList = .code := by
  obtain ⟨inside, behind⟩ := staysOpen_flatMap_escaped s.toList
  have quote : Zone.after .code ("\"" : String).toList = .text := by decide
  have quote' : Zone.after .text ("\"" : String).toList = .code := by decide
  constructor
  · rw [ofLiteral, encloses_append, encloses_append]
    refine ⟨⟨encloses_own _ _, ?_⟩, encloses_own _ _⟩
    rw [erase_own, quote]
    simpa [given] using inside
  · rw [literal, String.toList_append, String.toList_append, Zone.after_append, Zone.after_append, quote,
      String.toList_ofList, behind, quote']

end Marked

namespace Enumeration

open Marked (own given ofLiteral erase Encloses)

def steadyLines : List String :=
  ["#[derive(Debug, Clone, Copy, PartialEq, Eq, Hash)]", "\x7d", "", "    /// Returns the schema literal.",
    "    #[must_use]", "    pub const fn as_str(self) -> &'static str \x7b", "        match self \x7b", "        \x7d",
    "    \x7d", "    /// Parses a schema literal.", "    pub fn parse(value: &str) -> Option<Self> \x7b",
    "        match value \x7b", "            _ => None,"]

def variantComment (v : String × String) : Marked := own "    /// `" ++ given v.2 ++ own "`."

def variantLine (v : String × String) : Marked := own ("    " ++ v.1 ++ ",")

def markedLiteralCase (v : String × String) : Marked :=
  own ("            Self::" ++ v.1 ++ " => ") ++ ofLiteral v.2 ++ own ","

def markedVariantCase (v : String × String) : Marked :=
  own "            " ++ ofLiteral v.2 ++ own " => Some(Self::" ++ own v.1 ++ own "),"

def typeComment (e : Enumeration) : Marked := own "/// Values of `" ++ given e.schemaName ++ own "`."

def markedLines (e : Enumeration) : List Marked :=
  [e.typeComment, own "#[derive(Debug, Clone, Copy, PartialEq, Eq, Hash)]", own ("pub enum " ++ e.name ++ " \x7b")] ++
  e.variants.flatMap (fun v => [variantComment v, variantLine v]) ++
  [own "\x7d", own "", own ("impl " ++ e.name ++ " \x7b"),
    own "    /// Returns the schema literal.", own "    #[must_use]",
    own "    pub const fn as_str(self) -> &'static str \x7b", own "        match self \x7b"] ++
  e.variants.map markedLiteralCase ++
  [own "        \x7d", own "    \x7d", own "",
    own "    /// Parses a schema literal.", own "    #[must_use]",
    own "    pub fn parse(value: &str) -> Option<Self> \x7b", own "        match value \x7b"] ++
  e.variants.map markedVariantCase ++
  [own "            _ => None,", own "        \x7d", own "    \x7d", own "\x7d", own ""]

theorem forall_mem_markedLines {e : Enumeration} {P : Marked → Prop} (above : P e.typeComment)
    (enumeration : P (own ("pub enum " ++ e.name ++ " \x7b"))) (functions : P (own ("impl " ++ e.name ++ " \x7b")))
    (steady : ∀ s ∈ steadyLines, P (own s))
    (variants : ∀ v ∈ e.variants,
      (P (variantComment v) ∧ P (variantLine v)) ∧ P (markedLiteralCase v) ∧ P (markedVariantCase v)) :
    ∀ m ∈ e.markedLines, P m := by
  simp only [steadyLines, List.forall_mem_cons] at steady
  obtain ⟨derived, closed, blank, writer, used, toText, self, closed₂, closed₁, reader, ofText, value, none, -⟩ := steady
  simp only [markedLines, List.forall_mem_append, List.forall_mem_cons, List.forall_mem_flatMap, List.forall_mem_map]
  exact ⟨⟨⟨⟨⟨⟨⟨above, derived, enumeration, nofun⟩, fun v hv => ⟨(variants v hv).1.1, (variants v hv).1.2, nofun⟩⟩,
    closed, blank, functions, writer, used, toText, self, nofun⟩, fun v hv => (variants v hv).2.1⟩,
    closed₂, closed₁, blank, reader, used, ofText, value, nofun⟩, fun v hv => (variants v hv).2.2⟩,
    none, closed₂, closed₁, closed, blank, nofun⟩

theorem text_eq_lines (e : Enumeration) : e.text = lines (e.markedLines.map erase) := by
  simp only [markedLines, typeComment, variantComment, variantLine, List.map_append, List.map_cons,
    List.map_nil, List.map_flatMap, List.map_map, Function.comp_def, Marked.erase_append, Marked.erase_own,
    Marked.erase_given, Marked.erase_ofLiteral, markedLiteralCase, markedVariantCase]
  rfl

def marked (e : Enumeration) : Marked := e.markedLines.flatMap (· ++ own "\n")

theorem erase_marked (e : Enumeration) : erase e.marked = e.text := by
  rw [text_eq_lines, marked]
  induction e.markedLines with
  | nil => rfl
  | cons m ls ih =>
    rw [List.flatMap_cons, Marked.erase_append, Marked.erase_append, Marked.erase_own, ih]
    simp [lines]

/-- A line that encloses what it has from the schema is over at its end. -/
def Returns (m : Marked) : Prop := Encloses .code m → Zone.after .code ((erase m).toList ++ ['\n']) = .code

theorem encloses_lines_iff {ls : List Marked} (returns : ∀ m ∈ ls, Returns m) :
    Encloses .code (ls.flatMap (· ++ own "\n")) ↔ ∀ m ∈ ls, Encloses .code m := by
  -- A line that encloses is over at its end, so that the lines behind it are read from `code` again.
  induction ls with
  | nil => simp [Encloses]
  | cons m ls ih =>
    rw [List.forall_mem_cons] at returns ⊢
    rw [List.flatMap_cons, Marked.encloses_append, Marked.encloses_append, Marked.erase_append, Marked.erase_own,
      String.toList_append, ← ih returns.2]
    constructor
    · rintro ⟨⟨first, -⟩, rest⟩
      refine ⟨first, ?_⟩
      rwa [show ("\n" : String).toList = ['\n'] from rfl, returns.1 first] at rest
    · rintro ⟨first, rest⟩
      refine ⟨⟨first, Marked.encloses_own _ _⟩, ?_⟩
      rwa [show ("\n" : String).toList = ['\n'] from rfl, returns.1 first]

theorem returns_own {s : String} (h : Zone.after .code (s.toList ++ ['\n']) = .code) : Returns (own s) := by
  intro _
  rwa [Marked.erase_own]

theorem returns_comment {before text behind : String} (comment : Zone.after .code before.toList = .comment)
    (short : '\n' ∉ behind.toList) :
    (Encloses .code (own before ++ given text ++ own behind) ↔ '\n' ∉ text.toList) ∧
      Returns (own before ++ given text ++ own behind) := by
  have inside : Encloses .code (own before ++ given text ++ own behind) ↔ '\n' ∉ text.toList := by
    simp [Marked.encloses_append, comment, Marked.encloses_given_comment]
  refine ⟨inside, fun enclosed => ?_⟩
  simp only [Marked.erase_append, Marked.erase_own, Marked.erase_given, String.toList_append, Zone.after_append, comment,
    Zone.after_comment (inside.1 enclosed), Zone.after_comment short]
  rfl

theorem returns_literal {before text behind : String} (plain : before.toList.all Zone.isPlain = true)
    (plain' : behind.toList.all Zone.isPlain = true) :
    Encloses .code (own before ++ ofLiteral text ++ own behind) ∧ Returns (own before ++ ofLiteral text ++ own behind) := by
  obtain ⟨inside, closed⟩ := Marked.encloses_ofLiteral text
  have first := Zone.after_code plain
  constructor
  · rw [Marked.encloses_append, Marked.encloses_append, Marked.erase_own, first]
    exact ⟨⟨Marked.encloses_own _ _, inside⟩, Marked.encloses_own _ _⟩
  · intro _
    simp only [Marked.erase_append, Marked.erase_own, Marked.erase_ofLiteral, String.toList_append, Zone.after_append,
      first, closed, Zone.after_code plain']
    rfl

theorem settled_steadyLines :
    ∀ s ∈ steadyLines, Zone.after .code (s.toList ++ ['\n']) = .code ∧ '\n' ∉ s.toList := by
  decide +kernel

theorem plain_of_isIdentifier {s : String} (h : IsIdentifier s) : ∀ c ∈ s.toList, Zone.isPlain c = true ∧ c ≠ '\n' := by
  obtain ⟨⟨first, rest, name, upper, letters⟩, -⟩ := h
  have plain {c : Char} (h : c.isAlphanum = true ∨ c = '_') : Zone.isPlain c = true ∧ c ≠ '\n' := by
    simp only [Zone.isPlain, Bool.and_eq_true, bne_iff_ne]
    refine ⟨⟨?_, ?_⟩, ?_⟩ <;> rintro rfl <;> simp at h
  rw [name, List.forall_mem_cons]
  exact ⟨plain (.inl (isAlphanum_of_isUpper upper)), fun c hc => plain (letters c hc)⟩

theorem plain_around {before name behind : String} (valid : IsIdentifier name)
    (plain : (before.toList ++ behind.toList).all Zone.isPlain = true) :
    (before ++ name ++ behind).toList.all Zone.isPlain = true := by
  have middle : name.toList.all Zone.isPlain = true := List.all_eq_true.2 fun c hc => (plain_of_isIdentifier valid c hc).1
  rw [List.all_append, Bool.and_eq_true] at plain
  rw [String.toList_append, String.toList_append, List.all_append, List.all_append, plain.1, middle, plain.2]
  rfl

theorem returns_plain {s : String} (plain : s.toList.all Zone.isPlain = true) : Returns (own s) := by
  apply returns_own
  rw [Zone.after_append, Zone.after_code plain]
  rfl

variable {e : Enumeration}

theorem encloses_typeComment (e : Enumeration) :
    (Encloses .code e.typeComment ↔ '\n' ∉ e.schemaName.toList) ∧ Returns e.typeComment :=
  returns_comment (by decide +kernel) (by decide)

theorem encloses_variantComment (v : String × String) :
    (Encloses .code (variantComment v) ↔ '\n' ∉ v.2.toList) ∧ Returns (variantComment v) :=
  returns_comment (by decide +kernel) (by decide)

theorem encloses_markedLiteralCase {v : String × String} (valid : IsIdentifier v.1) :
    Encloses .code (markedLiteralCase v) ∧ Returns (markedLiteralCase v) :=
  returns_literal (plain_around valid (by decide +kernel)) (by decide)

theorem encloses_markedVariantCase {v : String × String} (valid : IsIdentifier v.1) :
    Encloses .code (markedVariantCase v) ∧ Returns (markedVariantCase v) := by
  have joined : markedVariantCase v = own "            " ++ ofLiteral v.2 ++ own (" => Some(Self::" ++ v.1 ++ "),") := by
    simp only [markedVariantCase, Marked.own_append, List.append_assoc]
  rw [joined]
  exact returns_literal (by decide +kernel) (plain_around valid (by decide +kernel))

theorem returns_markedLines (name : IsIdentifier e.name) (variants : ∀ v ∈ e.variants, IsIdentifier v.1) :
    ∀ m ∈ e.markedLines, Returns m := by
  apply forall_mem_markedLines
  case above => exact (encloses_typeComment e).2
  case enumeration => exact returns_plain (plain_around name (by decide +kernel))
  case functions => exact returns_plain (plain_around name (by decide +kernel))
  case steady => exact fun s hs => returns_own (settled_steadyLines s hs).1
  case variants =>
    intro v hv
    have valid := variants v hv
    have line : Returns (variantLine v) := returns_plain (plain_around valid (by decide +kernel))
    exact ⟨⟨(encloses_variantComment v).2, line⟩, (encloses_markedLiteralCase valid).2,
      (encloses_markedVariantCase valid).2⟩

theorem encloses_marked_iff (name : IsIdentifier e.name) (variants : ∀ v ∈ e.variants, IsIdentifier v.1) :
    Encloses .code e.marked ↔ '\n' ∉ e.schemaName.toList ∧ ∀ v ∈ e.variants, '\n' ∉ v.2.toList := by
  rw [marked, encloses_lines_iff (returns_markedLines name variants)]
  constructor
  · intro enclosed
    refine ⟨(encloses_typeComment e).1.1 (enclosed _ (by simp [markedLines])), fun v hv => ?_⟩
    refine (encloses_variantComment v).1.1 (enclosed _ ?_)
    simp only [markedLines, List.mem_append, List.mem_flatMap]
    exact .inl (.inl (.inl (.inl (.inl (.inr ⟨v, hv, List.mem_cons_self ..⟩)))))
  · rintro ⟨above, literals⟩
    apply forall_mem_markedLines
    case above => exact (encloses_typeComment e).1.2 above
    case enumeration => exact Marked.encloses_own _ _
    case functions => exact Marked.encloses_own _ _
    case steady => exact fun s _ => Marked.encloses_own _ s
    case variants =>
      intro v hv
      have valid := variants v hv
      exact ⟨⟨(encloses_variantComment v).1.2 (literals v hv), Marked.encloses_own _ _⟩,
        (encloses_markedLiteralCase valid).1, (encloses_markedVariantCase valid).1⟩

/-- A line of the code behind its indentation: a comment, an attribute, or code that is made of the names of the
enumeration and of its variants and of string literals. -/
inductive CodeLine (e : Enumeration) : String → Prop
  | comment (s : String) : CodeLine e ("/// " ++ s)
  | attribute (s : String) : CodeLine e ("#[" ++ s ++ "]")
  | enumeration : CodeLine e ("pub enum " ++ e.name ++ " \x7b")
  | functions : CodeLine e ("impl " ++ e.name ++ " \x7b")
  | variant {v : String × String} : v ∈ e.variants → CodeLine e (v.1 ++ ",")
  | literalCase {v : String × String} : v ∈ e.variants → CodeLine e ("Self::" ++ v.1 ++ " => " ++ literal v.2 ++ ",")
  | variantCase {v : String × String} : v ∈ e.variants → CodeLine e (literal v.2 ++ " => Some(Self::" ++ v.1 ++ "),")
  | fixed {s : String} :
    s ∈ ["", "\x7d", "pub const fn as_str(self) -> &'static str \x7b", "match self \x7b",
      "pub fn parse(value: &str) -> Option<Self> \x7b", "match value \x7b", "_ => None,"] → CodeLine e s

def indent (n : Nat) : String := String.ofList (List.replicate n ' ')

/-- An indented line on its own. -/
def IsLine (e : Enumeration) (l : String) : Prop := '\n' ∉ l.toList ∧ ∃ n s, l = indent n ++ s ∧ CodeLine e s

def Laid (e : Enumeration) : Prop := ∃ ls, e.text = lines ls ∧ ∀ l ∈ ls, e.IsLine l

theorem isLine_steadyLines : ∀ s ∈ steadyLines, e.IsLine s := by
  intro s hs
  refine ⟨(settled_steadyLines s hs).2, ?_⟩
  revert s
  simp only [steadyLines, List.forall_mem_cons]
  refine ⟨⟨0, _, by decide +kernel, .attribute "derive(Debug, Clone, Copy, PartialEq, Eq, Hash)"⟩,
    ⟨0, "\x7d", rfl, .fixed (by decide)⟩, ⟨0, "", rfl, .fixed (by decide)⟩,
    ⟨4, _, by decide +kernel, .comment "Returns the schema literal."⟩, ⟨4, _, by decide +kernel, .attribute "must_use"⟩,
    ⟨4, "pub const fn as_str(self) -> &'static str \x7b", by decide +kernel, .fixed (by decide)⟩,
    ⟨8, "match self \x7b", by decide +kernel, .fixed (by decide)⟩, ⟨8, "\x7d", by decide +kernel, .fixed (by decide)⟩,
    ⟨4, "\x7d", by decide +kernel, .fixed (by decide)⟩,
    ⟨4, _, by decide +kernel, .comment "Parses a schema literal."⟩,
    ⟨4, "pub fn parse(value: &str) -> Option<Self> \x7b", by decide +kernel, .fixed (by decide)⟩,
    ⟨8, "match value \x7b", by decide +kernel, .fixed (by decide)⟩,
    ⟨12, "_ => None,", by decide +kernel, .fixed (by decide)⟩, nofun⟩

theorem isLine_indent (n : Nat) {s : String} (short : '\n' ∉ s.toList) (line : CodeLine e s) : e.IsLine (indent n ++ s) := by
  refine ⟨?_, n, s, rfl, line⟩
  rw [String.toList_append, List.mem_append, not_or, indent, String.toList_ofList]
  exact ⟨fun feed => absurd (List.eq_of_mem_replicate feed) (by decide), short⟩

theorem laid_of_short (name : IsIdentifier e.name) (variants : ∀ v ∈ e.variants, IsIdentifier v.1)
    (above : '\n' ∉ e.schemaName.toList) (literals : ∀ v ∈ e.variants, '\n' ∉ v.2.toList) : e.Laid := by
  refine ⟨_, text_eq_lines e, ?_⟩
  rw [List.forall_mem_map]
  have stays {s : String} (valid : IsIdentifier s) : '\n' ∉ s.toList := fun feed => (plain_of_isIdentifier valid _ feed).2 rfl
  apply forall_mem_markedLines
  case above =>
    have line := isLine_indent 0 (by simp [above]) (.comment (e := e) ("Values of `" ++ e.schemaName ++ "`."))
    have same : erase e.typeComment = indent 0 ++ ("/// " ++ ("Values of `" ++ e.schemaName ++ "`.")) := by
      simp [typeComment, indent, ← String.toList_inj]
    exact same ▸ line
  case enumeration =>
    rw [Marked.erase_own]
    have line := isLine_indent 0 (by simp [stays name]) (CodeLine.enumeration (e := e))
    simpa [indent] using line
  case functions =>
    rw [Marked.erase_own]
    have line := isLine_indent 0 (by simp [stays name]) (CodeLine.functions (e := e))
    simpa [indent] using line
  case steady =>
    intro s hs
    rw [Marked.erase_own]
    exact isLine_steadyLines s hs
  case variants =>
    intro v hv
    have free := stays (variants v hv)
    have escapes := feed_not_mem_literal v.2
    refine ⟨⟨?_, ?_⟩, ?_, ?_⟩
    · have line := isLine_indent 4 (by simp [literals v hv]) (.comment (e := e) ("`" ++ v.2 ++ "`."))
      have same : erase (variantComment v) = indent 4 ++ ("/// " ++ ("`" ++ v.2 ++ "`.")) := by
        simp [variantComment, indent, ← String.toList_inj]
      exact same ▸ line
    · have line := isLine_indent 4 (by simp [free]) (.variant hv)
      have same : erase (variantLine v) = indent 4 ++ (v.1 ++ ",") := by
        simp [variantLine, indent, ← String.toList_inj]
      exact same ▸ line
    · have line := isLine_indent 12 (by simp [free, escapes]) (.literalCase hv)
      have same : erase (markedLiteralCase v) = indent 12 ++ ("Self::" ++ v.1 ++ " => " ++ literal v.2 ++ ",") := by
        simp [markedLiteralCase, indent, ← String.toList_inj]
      exact same ▸ line
    · have line := isLine_indent 12 (by simp [free, escapes]) (.variantCase hv)
      have same : erase (markedVariantCase v) = indent 12 ++ (literal v.2 ++ " => Some(Self::" ++ v.1 ++ "),") := by
        simp [markedVariantCase, indent, ← String.toList_inj]
      exact same ▸ line

end Enumeration

open Marked (erase Encloses ofLiteral)

/-- The code of an enumeration is laid out in lines, and encloses what it has from the schema in comments and string
literals, just if neither the name of the type nor a literal has a line feed: these stand in comments as they are.  What
stands in string literals never leaves them. -/
theorem enclosed_just_without_feeds (a : Artifact) (e : Enumeration) (he : e ∈ enumerations a) :
    ∃ t ∈ a.types, isEnumeration t = true ∧ e.schemaName = t.name ∧ e.variants.map (·.2) = t.enumValues ∧
      erase e.marked = e.text ∧
      ((e.Laid ∧ Encloses .code e.marked) ↔ '\n' ∉ t.name.toList ∧ ∀ s ∈ t.enumValues, '\n' ∉ s.toList) ∧
      ∀ s ∈ t.enumValues, Encloses .code (ofLiteral s) ∧ erase (ofLiteral s) = literal s ∧
        Zone.after .code (literal s).toList = .code ∧ '\n' ∉ (literal s).toList := by
  obtain ⟨t, ht, enumeration, made⟩ := exists_row_of_mem he
  have name : IsIdentifier e.name := by
    have allots := allots_enumerationsFrom declaredNames a.types
    exact allots.forall_mem (fun _ _ _ => TypeNamed.isIdentifier) e.name (List.mem_map_of_mem he)
  obtain ⟨literals, variants⟩ := literals_ofLiterals t.name e.name t.enumValues
  rw [← made] at literals variants
  have schemaName : e.schemaName = t.name := congrArg Enumeration.schemaName made
  refine ⟨t, ht, enumeration, schemaName, literals, e.erase_marked, ?_, fun s _ => ?_⟩
  · have enclosed := Enumeration.encloses_marked_iff name variants
    rw [← schemaName, ← literals, List.forall_mem_map]
    constructor
    · exact fun both => enclosed.1 both.2
    · exact fun short => ⟨Enumeration.laid_of_short name variants short.1 short.2, enclosed.2 short⟩
  · have inside := Marked.encloses_ofLiteral s
    exact ⟨inside.1, Marked.erase_ofLiteral s, inside.2, feed_not_mem_literal s⟩

def signs : Artifact :=
  ⟨[enumerationRow "t:Mark" ["say \"a\""], enumerationRow "t:Sign" ["say \"a\"", "a\nb"]], [], none, none, []⟩

theorem signs_enclosed :
    ∃ e e', enumerations signs = [e, e'] ∧ (e.Laid ∧ Encloses .code e.marked) ∧
      ¬ (e'.Laid ∧ Encloses .code e'.marked) := by
  refine ⟨_, _, rfl, ?_, ?_⟩
  · obtain ⟨t, -, -, name, literals, -, enclosed, -⟩ := enclosed_just_without_feeds signs _ (List.mem_cons_self ..)
    rw [← name, ← literals] at enclosed
    exact enclosed.2 (by decide +kernel)
  · obtain ⟨t, -, -, -, literals, -, enclosed, -⟩ :=
      enclosed_just_without_feeds signs _ (List.mem_cons_of_mem _ (List.mem_cons_self ..))
    rw [← literals] at enclosed
    exact fun both => absurd (enclosed.1 both).2 (by decide +kernel)

end SchemaGraph.Code
