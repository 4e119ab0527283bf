import SchemaGraph.Markup.Event
import SchemaGraph.Markup.Reference

/-! How tags can be written: the names of XML, values between quotes, attributes between blanks, and any text, comments
and instructions around the tags.  The reader finds in a written text the tags that were written (`ofText_spells`). -/
namespace SchemaGraph.Markup

section Names

def isNameStart (c : Char) : Bool :=
  let n := c.toNat
  c.isAlpha || c == '_' || (0xC0 ≤ n && n ≤ 0xD6) || (0xD8 ≤ n && n ≤ 0xF6) || (0xF8 ≤ n && n ≤ 0x2FF) ||
    (0x370 ≤ n && n ≤ 0x37D) || (0x37F ≤ n && n ≤ 0x1FFF) || (0x200C ≤ n && n ≤ 0x200D) ||
    (0x2070 ≤ n && n ≤ 0x218F) || (0x2C00 ≤ n && n ≤ 0x2FEF) || (0x3001 ≤ n && n ≤ 0xD7FF) ||
    (0xF900 ≤ n && n ≤ 0xFDCF) || (0xFDF0 ≤ n && n ≤ 0xFFFD) || (0x10000 ≤ n && n ≤ 0xEFFFF)

def isNameChar (c : Char) : Bool :=
  let n := c.toNat
  isNameStart c || c == '-' || c == '.' || c.isDigit || n == 0xB7 || (0x300 ≤ n && n ≤ 0x36F) ||
    (0x203F ≤ n && n ≤ 0x2040)

@[ext] structure Word where
  chars : List Char
  starts : chars.head?.any isNameStart = true
  continues : chars.all isNameChar = true

structure TagName where
  label : Option Word
  localName : Word

def TagName.chars (n : TagName) : List Char :=
  match n.label with
  | some label => label.chars ++ ':' :: n.localName.chars
  | none => n.localName.chars

def isTagChar (c : Char) : Bool := isNameChar c || c == ':'

theorem Word.chars_eq_cons (w : Word) : ∃ c s, w.chars = c :: s ∧ isNameStart c = true := by
  obtain ⟨chars, starts, continues⟩ := w
  cases chars with
  | nil => cases starts
  | cons c s => exact ⟨c, s, rfl, starts⟩

theorem Word.isNameChar_of_mem (w : Word) {c : Char} (h : c ∈ w.chars) : isNameChar c = true :=
  List.all_eq_true.1 w.continues c h

theorem Word.colon_not_mem (w : Word) : ':' ∉ w.chars := by
  intro h
  have := w.isNameChar_of_mem h
  revert this
  decide

namespace TagName

variable (n : TagName)

theorem chars_eq_cons : ∃ c s, n.chars = c :: s ∧ isNameStart c = true := by
  unfold chars
  split
  · next label _ =>
    obtain ⟨c, s, whole, starts⟩ := label.chars_eq_cons
    exact ⟨c, s ++ ':' :: n.localName.chars, by simp [whole], starts⟩
  · exact n.localName.chars_eq_cons

theorem isTagChar_of_mem {c : Char} (h : c ∈ n.chars) : isTagChar c = true := by
  unfold isTagChar
  rw [Bool.or_eq_true, beq_iff_eq]
  unfold chars at h
  split at h
  · next label _ =>
    rcases List.mem_append.1 h with h | h
    · exact .inl (label.isNameChar_of_mem h)
    rcases List.mem_cons.1 h with h | h
    · exact .inr h
    · exact .inl (n.localName.isNameChar_of_mem h)
  · exact .inl (n.localName.isNameChar_of_mem h)

theorem not_mem_chars {c : Char} (other : isTagChar c = false) : c ∉ n.chars := by
  intro h
  rw [n.isTagChar_of_mem h] at other
  cases other

theorem not_isSpace_of_mem {c : Char} (h : c ∈ n.chars) : isSpace c = false := by
  have named := n.isTagChar_of_mem h
  rw [Bool.eq_false_iff]
  intro space
  simp only [isSpace, Bool.or_eq_true, beq_iff_eq] at space
  rcases space with ((rfl | rfl) | rfl) | rfl <;> revert named <;> decide

theorem plain_of_mem {c : Char} (h : c ∈ n.chars) : c ≠ '>' ∧ c ≠ '"' ∧ c ≠ '\'' := by
  have named := n.isTagChar_of_mem h
  refine ⟨?_, ?_, ?_⟩ <;> rintro rfl <;> revert named <;> decide

theorem splitTag_chars :
    Text.cut ':' n.chars = n.label.map fun label => (label.chars, n.localName.chars) := by
  unfold chars
  split
  · next label found =>
    rw [found]
    exact Text.cut_append label.colon_not_mem _
  · next found =>
    rw [found]
    exact Text.cut_eq_none_iff.2 n.localName.colon_not_mem

theorem chars_injective {n n' : TagName} (h : n.chars = n'.chars) : n = n' := by
  have split := n.splitTag_chars
  rw [h, n'.splitTag_chars] at split
  obtain ⟨label, localName⟩ := n
  obtain ⟨label', localName'⟩ := n'
  cases label with
  | none =>
    cases label' with
    | none =>
      congr 1
      exact Word.ext h
    | some label' => cases split
  | some label =>
    cases label' with
    | none => cases split
    | some label' =>
      simp only [Option.map_some, Option.some.injEq, Prod.mk.injEq] at split
      rw [Word.ext split.1, Word.ext split.2]

end TagName

end Names

section Values

def namedCharacters : List (Char × List Char) :=
  [('<', ['l', 't']), ('>', ['g', 't']), ('&', ['a', 'm', 'p']), ('\'', ['a', 'p', 'o', 's']),
    ('"', ['q', 'u', 'o', 't'])]

/-- How a value can stand between quotes: an ampersand, a left angle bracket and the quote itself as references, any
other character as it is, or as a reference if it has one. -/
inductive Quoted (quote : Char) : List Char → List Char → Prop
  | nil : Quoted quote [] []
  | plain {c : Char} {value raw : List Char} : c ≠ '&' → c ≠ '<' → c ≠ quote → Quoted quote value raw →
    Quoted quote (c :: value) (c :: raw)
  | named {c : Char} {name value raw : List Char} : (c, name) ∈ namedCharacters → Quoted quote value raw →
    Quoted quote (c :: value) ('&' :: (name ++ ';' :: raw))

variable {quote c : Char} {name value raw : List Char}

theorem character_of_named (h : (c, name) ∈ namedCharacters) : character name = some c ∧ ';' ∉ name := by
  simp only [namedCharacters, List.mem_cons, Prod.mk.injEq, List.not_mem_nil, or_false] at h
  rcases h with ⟨rfl, rfl⟩ | ⟨rfl, rfl⟩ | ⟨rfl, rfl⟩ | ⟨rfl, rfl⟩ | ⟨rfl, rfl⟩ <;> decide

theorem quotes_not_mem_named (h : (c, name) ∈ namedCharacters) : '"' ∉ name ∧ '\'' ∉ name := by
  simp only [namedCharacters, List.mem_cons, Prod.mk.injEq, List.not_mem_nil, or_false] at h
  rcases h with ⟨rfl, rfl⟩ | ⟨rfl, rfl⟩ | ⟨rfl, rfl⟩ | ⟨rfl, rfl⟩ | ⟨rfl, rfl⟩ <;> decide

theorem unescape_of_quoted (h : Quoted quote value raw) : unescape raw = some value := by
  induction h with
  | nil => rw [unescape]
  | plain noAmpersand _ _ _ ih =>
    rw [unescape, if_neg noAmpersand, ih]
    rfl
  | @named c name value raw known _ ih =>
    obtain ⟨reads, plain⟩ := character_of_named known
    have found : Text.cut ';' (name ++ ';' :: raw) = some (name, raw) := Text.cut_append plain raw
    rw [unescape, if_pos rfl]
    split
    · next found' =>
      cases found.symm.trans found'
      rw [reads, ih]
      rfl
    · next missing => cases found.symm.trans missing

theorem quote_not_mem (isQuote : quote = '"' ∨ quote = '\'') (h : Quoted quote value raw) : quote ∉ raw := by
  induction h with
  | nil => exact List.not_mem_nil
  | plain _ _ other _ ih => simp [other.symm, ih]
  | @named c name value raw known _ ih =>
    obtain ⟨double, single⟩ := quotes_not_mem_named known
    rcases isQuote with rfl | rfl
    · simp [double, ih]
    · simp [single, ih]

theorem quoted_escape (isQuote : quote = '"' ∨ quote = '\'') (value : List Char) :
    Quoted quote value (escape value) := by
  induction value with
  | nil => exact .nil
  | cons c value ih =>
    have named (name : List Char) (known : (c, name) ∈ namedCharacters) :
        Quoted quote (c :: value) ('&' :: (name ++ ';' :: escape value)) := .named known ih
    unfold escape
    split
    · exact named ['l', 't'] (by decide)
    · exact named ['g', 't'] (by decide)
    · exact named ['a', 'm', 'p'] (by decide)
    · exact named ['a', 'p', 'o', 's'] (by decide)
    · exact named ['q', 'u', 'o', 't'] (by decide)
    · next bracket _ ampersand single double =>
      refine .plain ampersand bracket ?_ ih
      rcases isQuote with rfl | rfl
      · exact double
      · exact single

end Values

section Attributes

def Spaces (s : List Char) : Prop := ∀ c ∈ s, isSpace c = true

theorem spaces_nil : Spaces [] := nofun

theorem spaces_blank : Spaces [' '] := by
  intro c h
  rw [List.mem_singleton.1 h]
  rfl

/-- How attributes can stand behind the name of a tag: with white space before each and perhaps around the sign of
equality and at the end, and with quotes of either kind. -/
inductive AttributesText : List (TagName × List Char) → List Char → Prop
  | nil {gap : List Char} : Spaces gap → AttributesText [] gap
  | cons {gap before after value raw s : List Char} {quote : Char} {rest : List (TagName × List Char)}
    (name : TagName) : Spaces gap → gap ≠ [] → Spaces before → Spaces after → (quote = '"' ∨ quote = '\'') →
    Quoted quote value raw → AttributesText rest s →
    AttributesText ((name, value) :: rest)
      (gap ++ (name.chars ++ (before ++ '=' :: (after ++ quote :: (raw ++ quote :: s)))))

variable {seen : List (List Char)} {gap before after raw s : List Char} {quote c : Char}

theorem dropWhile_spaces (spaces : Spaces gap) (other : isSpace c = false) :
    (gap ++ c :: s).dropWhile isSpace = c :: s := by
  rw [List.dropWhile_append_of_pos spaces, List.dropWhile_cons_of_neg (by simp [other])]

theorem attributes_spaces (spaces : Spaces gap) : attributes seen gap = [] := by
  have gone : (gap ++ []).dropWhile isSpace = [] := List.dropWhile_append_of_pos spaces
  rw [List.append_nil] at gone
  rw [attributes]
  split
  · rfl
  · next more => cases gone.symm.trans more

theorem attributes_of_parts {k : Char} {key r t u rest : List Char} (first : s.dropWhile isSpace = k :: r)
    (inKey : r.takeWhile (fun c => c != '=' && !isSpace c) = key)
    (sign : (r.dropWhile fun c => c != '=' && !isSpace c).dropWhile isSpace = '=' :: t) (new : k :: key ∉ seen)
    (opens : t.dropWhile isSpace = quote :: u) (isQuote : quote = '"' ∨ quote = '\'')
    (closes : Text.cut quote u = some (raw, rest)) :
    attributes seen s = (k :: key, raw) :: attributes ((k :: key) :: seen) rest := by
  rw [attributes]
  split
  · next found => cases first.symm.trans found
  next found =>
    cases first.symm.trans found
    dsimp only
    split
    · next found => cases sign.symm.trans found
    next found =>
      cases sign.symm.trans found
      rw [inKey, if_pos rfl, if_neg new]
      split
      · next found => cases opens.symm.trans found
      next found =>
        cases opens.symm.trans found
        rw [if_pos isQuote]
        split
        · next found =>
          cases closes.symm.trans found
          rfl
        · next found => cases closes.symm.trans found

theorem attributes_cons (name : TagName) (new : name.chars ∉ seen) (spaces : Spaces gap) (spacesBefore : Spaces before)
    (spacesAfter : Spaces after) (isQuote : quote = '"' ∨ quote = '\'') (plain : quote ∉ raw) :
    attributes seen (gap ++ (name.chars ++ (before ++ '=' :: (after ++ quote :: (raw ++ quote :: s))))) =
      (name.chars, raw) :: attributes (name.chars :: seen) s := by
  obtain ⟨k, key, whole, -⟩ := name.chars_eq_cons
  have inName : ∀ c ∈ key, (c != '=' && !isSpace c) = true := by
    intro c h
    have named : c ∈ name.chars := whole ▸ List.mem_cons_of_mem k h
    have other : c ≠ '=' := by
      rintro rfl
      exact name.not_mem_chars (by decide) named
    simp [other, name.not_isSpace_of_mem named]
  have behind : (before ++ '=' :: (after ++ quote :: (raw ++ quote :: s))).takeWhile
        (fun c => c != '=' && !isSpace c) = [] ∧
      (before ++ '=' :: (after ++ quote :: (raw ++ quote :: s))).dropWhile (fun c => c != '=' && !isSpace c) =
        before ++ '=' :: (after ++ quote :: (raw ++ quote :: s)) := by
    cases before with
    | nil => simp
    | cons c before => simp [spacesBefore c List.mem_cons_self]
  have notSpace : isSpace k = false := name.not_isSpace_of_mem (whole ▸ List.mem_cons_self)
  have notQuoteSpace : isSpace quote = false := by
    rcases isQuote with rfl | rfl <;> decide
  have inKey : (key ++ (before ++ '=' :: (after ++ quote :: (raw ++ quote :: s)))).takeWhile
      (fun c => c != '=' && !isSpace c) = key := by
    rw [List.takeWhile_append_of_pos inName, behind.1, List.append_nil]
  have sign : ((key ++ (before ++ '=' :: (after ++ quote :: (raw ++ quote :: s)))).dropWhile
      fun c => c != '=' && !isSpace c).dropWhile isSpace = '=' :: (after ++ quote :: (raw ++ quote :: s)) := by
    rw [List.dropWhile_append_of_pos inName, behind.2]
    exact dropWhile_spaces spacesBefore (by decide)
  rw [whole] at new ⊢
  exact attributes_of_parts (dropWhile_spaces spaces notSpace) inKey sign new
    (dropWhile_spaces spacesAfter notQuoteSpace) isQuote (Text.cut_append plain s)

theorem AttributesText.head_isSpace {attrs : List (TagName × List Char)} (h : AttributesText attrs s) :
    s = [] ∨ ∃ c t, s = c :: t ∧ isSpace c = true := by
  cases h with
  | nil spaces =>
    cases s with
    | nil => exact .inl rfl
    | cons c t => exact .inr ⟨c, t, rfl, spaces c List.mem_cons_self⟩
  | @cons gap _ _ _ _ _ _ _ name spaces nonempty =>
    cases gap with
    | nil => exact absurd rfl nonempty
    | cons c gap => exact .inr ⟨c, _, rfl, spaces c List.mem_cons_self⟩

theorem AttributesText.getLast_ne {attrs : List (TagName × List Char)} (h : AttributesText attrs s) :
    s.getLast? ≠ some '/' := by
  induction h with
  | nil spaces =>
    intro last
    have := spaces '/' (List.mem_of_getLast? last)
    revert this
    decide
  | @cons gap before after value raw s quote rest name _ _ _ _ isQuote _ _ ih =>
    have last : (gap ++ (name.chars ++ (before ++ '=' :: (after ++ quote :: (raw ++ quote :: s))))).getLast? =
        s.getLast?.or (some quote) := by
      simp [List.getLast?_append, List.getLast?_cons]
    rw [last]
    cases found : s.getLast? with
    | none => rcases isQuote with rfl | rfl <;> simp
    | some c => simpa [found] using ih

end Attributes

section Tags

variable {a s raw : List Char} {quote : Char}

theorem tagEnd_plain (plain : ∀ c ∈ a, c ≠ '>' ∧ c ≠ '"' ∧ c ≠ '\'') :
    tagEnd none (a ++ s) = (tagEnd none s).map fun p => (a ++ p.1, p.2) := by
  induction a with
  | nil => simp
  | cons c a ih =>
    obtain ⟨bracket, double, single⟩ := plain c List.mem_cons_self
    have rest := ih fun d h => plain d (List.mem_cons_of_mem c h)
    simp [tagEnd, bracket, double, single, rest, Function.comp_def]

theorem tagEnd_quoted (plain : quote ∉ raw) :
    tagEnd (some quote) (raw ++ quote :: s) = (tagEnd none s).map fun p => (raw ++ quote :: p.1, p.2) := by
  induction raw with
  | nil => simp [tagEnd]
  | cons c raw ih =>
    rw [List.mem_cons, not_or] at plain
    have other : c ≠ quote := Ne.symm plain.1
    simp [tagEnd, other, ih plain.2, Function.comp_def]

/-- A bracket inside a quoted value does not end the tag. -/
theorem tagEnd_attributes {attrs : List (TagName × List Char)} {text : List Char} (h : AttributesText attrs text) :
    tagEnd none (text ++ s) = (tagEnd none s).map fun p => (text ++ p.1, p.2) := by
  have spacesPlain {gap : List Char} (spaces : Spaces gap) : ∀ c ∈ gap, c ≠ '>' ∧ c ≠ '"' ∧ c ≠ '\'' := by
    intro c h
    have space := spaces c h
    refine ⟨?_, ?_, ?_⟩ <;> rintro rfl <;> revert space <;> decide
  induction h with
  | nil spaces => exact tagEnd_plain (spacesPlain spaces)
  | @cons gap before after value raw text quote rest name spaces _ spacesBefore spacesAfter isQuote quoted _ ih =>
    have start : ∀ c ∈ gap ++ (name.chars ++ (before ++ '=' :: after)), c ≠ '>' ∧ c ≠ '"' ∧ c ≠ '\'' := by
      intro c h
      simp only [List.mem_append, List.mem_cons] at h
      rcases h with h | h | h | rfl | h
      · exact spacesPlain spaces c h
      · exact name.plain_of_mem h
      · exact spacesPlain spacesBefore c h
      · decide
      · exact spacesPlain spacesAfter c h
    have opens : tagEnd none (quote :: (raw ++ quote :: (text ++ s))) =
        (tagEnd none s).map fun p => (quote :: (raw ++ quote :: (text ++ p.1)), p.2) := by
      have inside := tagEnd_quoted (s := text ++ s) (quote_not_mem isQuote quoted)
      rw [ih] at inside
      rcases isQuote with rfl | rfl <;> simp [tagEnd, inside, Function.comp_def]
    have whole := tagEnd_plain (s := quote :: (raw ++ quote :: (text ++ s))) start
    rw [opens] at whole
    simpa [Function.comp_def] using whole

variable {attrs : List (TagName × List Char)} {text gap : List Char} (name : TagName)

theorem tagEnd_start (h : AttributesText attrs text) :
    tagEnd none (name.chars ++ (text ++ '>' :: s)) = some (name.chars ++ text, s) := by
  rw [tagEnd_plain fun c => name.plain_of_mem, tagEnd_attributes h]
  simp [tagEnd]

theorem tagEnd_leaf (h : AttributesText attrs text) :
    tagEnd none (name.chars ++ (text ++ '/' :: '>' :: s)) = some (name.chars ++ text ++ ['/'], s) := by
  rw [tagEnd_plain fun c => name.plain_of_mem, tagEnd_attributes h]
  simp [tagEnd]

theorem tagEnd_end (spaces : Spaces gap) :
    tagEnd none (name.chars ++ (gap ++ '>' :: s)) = some (name.chars ++ gap, s) :=
  tagEnd_start name (.nil spaces)

theorem takeWhile_name (h : AttributesText attrs text) :
    (name.chars ++ text).takeWhile (!isSpace ·) = name.chars ∧
      (name.chars ++ text).dropWhile (!isSpace ·) = text := by
  have inName : ∀ c ∈ name.chars, (!isSpace c) = true := by
    intro c h
    simp [name.not_isSpace_of_mem h]
  rw [List.takeWhile_append_of_pos inName, List.dropWhile_append_of_pos inName]
  rcases h.head_isSpace with rfl | ⟨c, t, rfl, space⟩
  · simp
  · simp [space]

theorem ofStart_opening (h : AttributesText attrs text) :
    Event.ofStart (name.chars ++ text) = .opening name.chars text := by
  have last : (name.chars ++ text).getLast? ≠ some '/' := by
    rw [List.getLast?_append]
    cases found : text.getLast? with
    | none =>
      intro slash
      exact name.not_mem_chars (by decide) (List.mem_of_getLast? slash)
    | some c => simpa [found] using h.getLast_ne
  obtain ⟨taken, dropped⟩ := takeWhile_name name h
  unfold Event.ofStart
  simp only [beq_eq_false_iff_ne.2 last, Bool.false_eq_true, if_false, taken, dropped]

theorem ofStart_leaf (h : AttributesText attrs text) :
    Event.ofStart (name.chars ++ text ++ ['/']) = .leaf name.chars text := by
  obtain ⟨taken, dropped⟩ := takeWhile_name name h
  unfold Event.ofStart
  simp only [List.getLast?_concat, beq_self_eq_true, if_true, List.dropLast_concat, taken, dropped]

theorem ofEnd_closing (spaces : Spaces gap) : Event.ofEnd (name.chars ++ gap) = .closing name.chars := by
  have trimmed : ((name.chars ++ gap).reverse.dropWhile isSpace).reverse = name.chars := by
    have backwards : ∀ c ∈ gap.reverse, isSpace c = true := fun c h => spaces c (List.mem_reverse.1 h)
    rw [List.reverse_append, List.dropWhile_append_of_pos backwards]
    cases whole : name.chars.reverse with
    | nil =>
      rw [List.reverse_eq_nil_iff] at whole
      simp [whole]
    | cons c rest =>
      have last : isSpace c = false := by
        apply name.not_isSpace_of_mem
        rw [← List.mem_reverse, whole]
        exact List.mem_cons_self
      rw [List.dropWhile_cons_of_neg (by simp [last]), ← whole, List.reverse_reverse]
  obtain ⟨c, rest, whole, -⟩ := name.chars_eq_cons
  unfold Event.ofEnd
  rw [trimmed, whole]
  rfl

end Tags

section Texts

theorem after_append (init : List Char) (z : Char) {content s : List Char} (last : z ∉ init)
    (absent : ¬ init ++ [z] <:+: content) :
    after (init ++ [z]) (content ++ (init ++ [z] ++ s)) = some s := by
  induction content with
  | nil =>
    rw [List.nil_append, after.eq_def, if_pos (List.isPrefixOf_iff_prefix.2 (List.prefix_append _ _)),
      List.drop_left]
  | cons c content ih =>
    have notHere : ¬ (init ++ [z]).isPrefixOf (c :: (content ++ (init ++ [z] ++ s))) = true := by
      rw [List.isPrefixOf_iff_prefix]
      intro here
      have content_here : c :: content <+: c :: (content ++ (init ++ [z] ++ s)) := List.prefix_append (c :: content) _
      by_cases short : (init ++ [z]).length ≤ (c :: content).length
      · exact absent (List.prefix_of_prefix_length_le here content_here short).isInfix
      -- A mark that begins in the content and ends behind it would have its last character twice.
      obtain ⟨tail, split⟩ := List.prefix_of_prefix_length_le content_here here (by omega)
      have moved : c :: (content ++ tail) <+: c :: (content ++ (init ++ [z] ++ s)) := by
        rw [← List.cons_append, split]
        exact here
      have tail_here : tail <+: init ++ [z] ++ s :=
        (List.prefix_append_right_inj content).1 (List.cons_prefix_cons.1 moved).2
      have lengths := congrArg List.length split
      simp only [List.length_append, List.length_cons, List.length_nil] at lengths short
      have inside : tail <+: init := by
        apply List.prefix_of_prefix_length_le tail_here _ (by omega)
        rw [List.append_assoc]
        exact List.prefix_append init _
      have ends := congrArg List.getLast? split
      rw [List.getLast?_append, List.getLast?_concat] at ends
      cases found : tail.getLast? with
      | none =>
        rw [List.getLast?_eq_none_iff.1 found, List.length_nil] at lengths
        omega
      | some d =>
        rw [found, Option.some_or, Option.some.injEq] at ends
        exact last (inside.subset (ends ▸ List.mem_of_getLast? found))
    have later : ¬ init ++ [z] <:+: content := fun h => absent (h.trans (List.suffix_cons c content).isInfix)
    rw [List.cons_append, after, if_neg notHere]
    exact ih later

/-- How tags can be written one after the other, with text, comments and instructions around them. -/
inductive Spells : List Event → List Char → Prop
  | nil : Spells [] []
  | text {events : List Event} {s : List Char} {c : Char} : c ≠ '<' → c ≠ '&' → Spells events s →
    Spells events (c :: s)
  | comment {events : List Event} {content s : List Char} : ¬ ['-', '-', '>'] <:+: content → Spells events s →
    Spells events ('<' :: '!' :: '-' :: '-' :: (content ++ ('-' :: '-' :: '>' :: s)))
  | instruction {events : List Event} {data s : List Char} (target : Word) : ¬ ['?', '>'] <:+: target.chars ++ data →
    Spells events s → Spells events ('<' :: '?' :: (target.chars ++ data ++ ('?' :: '>' :: s)))
  | opening {events : List Event} {attrs : List (TagName × List Char)} {text s : List Char} (name : TagName) :
    AttributesText attrs text → Spells events s →
    Spells (.opening name.chars text :: events) ('<' :: (name.chars ++ (text ++ '>' :: s)))
  | leaf {events : List Event} {attrs : List (TagName × List Char)} {text s : List Char} (name : TagName) :
    AttributesText attrs text → Spells events s →
    Spells (.leaf name.chars text :: events) ('<' :: (name.chars ++ (text ++ '/' :: '>' :: s)))
  | closing {events : List Event} {gap s : List Char} (name : TagName) : Spaces gap → Spells events s →
    Spells (.closing name.chars :: events) ('<' :: '/' :: (name.chars ++ (gap ++ '>' :: s)))

theorem ofText_cons {c : Char} {r rest : List Char} {event : Option Event} (h : Step.ofText c r = .next event rest) :
    Tags.ofText (c :: r) = ⟨event.toList ++ (Tags.ofText rest).events, (Tags.ofText rest).complete⟩ := by
  rw [Tags.ofText]
  split
  · next malformed => cases h.symm.trans malformed
  · next found =>
    cases h.symm.trans found
    rfl

theorem step_start (name : TagName) (rest : List Char) :
    Step.ofText '<' (name.chars ++ rest) =
      match tagEnd none (name.chars ++ rest) with
      | some (content, rest) => .next (some (.ofStart content)) rest
      | none => .malformed := by
  obtain ⟨c, chars, whole, starts⟩ := name.chars_eq_cons
  have mark : c ≠ '!' ∧ c ≠ '?' ∧ c ≠ '/' := by
    refine ⟨?_, ?_, ?_⟩ <;> rintro rfl <;> revert starts <;> decide
  rw [whole, List.cons_append]
  unfold Step.ofText
  rw [if_pos rfl]
  split
  · next h => exact absurd (List.cons.inj h).1 mark.1
  · next h => exact absurd (List.cons.inj h).1 mark.2.1
  · next h => exact absurd (List.cons.inj h).1 mark.2.1
  · next h => exact absurd (List.cons.inj h).1 mark.2.2
  · rfl

theorem ofText_text {c : Char} {s : List Char} (bracket : c ≠ '<') (ampersand : c ≠ '&') :
    Tags.ofText (c :: s) = Tags.ofText s := by
  have step (c : Char) (s : List Char) (bracket : c ≠ '<') (ampersand : c ≠ '&') :
      Tags.ofText (c :: s) = Tags.ofText (s.dropWhile fun d => d != '<' && d != '&') := by
    have skipped : Step.ofText c s = .next none (s.dropWhile fun d => d != '<' && d != '&') := by
      simp [Step.ofText, bracket, ampersand]
    rw [ofText_cons skipped]
    rfl
  rw [step c s bracket ampersand]
  cases s with
  | nil => rfl
  | cons d s =>
    by_cases text : d ≠ '<' ∧ d ≠ '&'
    · rw [step d s text.1 text.2, List.dropWhile_cons_of_pos (by simp [text.1, text.2])]
    · rw [List.dropWhile_cons_of_neg]
      simpa using text

theorem ofText_spells {events : List Event} {s : List Char} (h : Spells events s) :
    Tags.ofText s = ⟨events, true⟩ := by
  induction h with
  | nil => rw [Tags.ofText]
  | text bracket ampersand _ ih => rw [ofText_text bracket ampersand, ih]
  | @comment events content s plain _ ih =>
    have step : Step.ofText '<' ('!' :: '-' :: '-' :: (content ++ ('-' :: '-' :: '>' :: s))) = .next none s := by
      have found : after ['-', '-', '>'] (content ++ ('-' :: '-' :: '>' :: s)) = some s :=
        after_append ['-', '-'] '>' (by decide) plain
      simp [Step.ofText, Step.ofDeclaration, found]
    rw [ofText_cons step, ih]
    rfl
  | @instruction events data s target plain _ ih =>
    have step : Step.ofText '<' ('?' :: (target.chars ++ data ++ ('?' :: '>' :: s))) = .next none s := by
      have found : after ['?', '>'] (target.chars ++ data ++ ('?' :: '>' :: s)) = some s :=
        after_append ['?'] '>' (by decide) plain
      obtain ⟨c, rest, whole, starts⟩ := target.chars_eq_cons
      have other : c ≠ '>' := by
        rintro rfl
        revert starts
        decide
      rw [whole] at found ⊢
      simp only [List.cons_append, List.append_assoc] at found ⊢
      simp [Step.ofText, other, found]
    rw [ofText_cons step, ih]
    rfl
  | @opening events attrs text s name written _ ih =>
    have step : Step.ofText '<' (name.chars ++ (text ++ '>' :: s)) = .next (some (.opening name.chars text)) s := by
      rw [step_start, tagEnd_start name written]
      simp only [ofStart_opening name written]
    rw [ofText_cons step, ih]
    rfl
  | @leaf events attrs text s name written _ ih =>
    have step : Step.ofText '<' (name.chars ++ (text ++ '/' :: '>' :: s)) =
        .next (some (.leaf name.chars text)) s := by
      rw [step_start, tagEnd_leaf name written]
      simp only [ofStart_leaf name written]
    rw [ofText_cons step, ih]
    rfl
  | @closing events gap s name spaces _ ih =>
    have step : Step.ofText '<' ('/' :: (name.chars ++ (gap ++ '>' :: s))) = .next (some (.closing name.chars)) s := by
      simp [Step.ofText, tagEnd_end name spaces, ofEnd_closing name spaces]
    rw [ofText_cons step, ih]
    rfl

end Texts

end SchemaGraph.Markup
