import SchemaGraph.Yaml.Cursor

/-! The five ways to write a scalar.  A line break inside a plain or quoted scalar is folded: a single one
reads as a space, and of several all but the first count. -/
namespace SchemaGraph.Yaml

inductive Style
  | plain
  /-- A block whose line breaks are kept. -/
  | literal
  /-- Quotes of either kind, and a block whose line breaks are folded. -/
  | other
deriving DecidableEq

def folded : List Char → List Char
  | ['\n'] => [' ']
  | '\n' :: r => r
  | breaks => breaks

def gapText (gap : List Char) : List Char :=
  if gap.any isBreak then folded (gap.filter isBreak) else gap

/-! Plain scalars. -/

/-- Whether a tab stands before column `margin` on one of the lines that begin in `gap`.  On the first
line, which has no column here, tabs can stand anywhere. -/
def tabBefore (margin : Nat) : (column : Option Nat) → (gap : List Char) → Bool
  | _, [] => false
  | column, c :: r =>
    if isBreak c then tabBefore margin (some 0) r
    else
      match column with
      | none => tabBefore margin none r
      | some k => (c == '\t' && k < margin) || tabBefore margin (some (k + 1)) r

/-- The characters up to white space or to what ends a plain scalar.  Inside brackets a colon right
before an indicator is refused. -/
def plainWord (inFlow : Bool) : List Char → Option (List Char)
  | [] => some []
  | c :: r =>
    if isSpace c then some []
    else if inFlow && c == ':' && startsWith [',', '?', '[', ']', '{', '}'] r then none
    else if c == ':' && atSpace r then some []
    else if inFlow && [',', '[', ']', '{', '}'].contains c then some []
    else (plainWord inFlow r).map (c :: ·)

structure PlainScalar where
  text : List Char
  /-- The position behind the scalar and the white space after it. -/
  after : Cursor
  /-- Whether a line ended behind the scalar. -/
  broken : Bool

/-- Reads words while they stand at or behind column `margin`; `gap` is what the white space before the
next word reads as. -/
def plainWords (inFlow : Bool) (margin : Nat) (text gap : List Char) (broken : Bool) (c : Cursor) :
    Option PlainScalar :=
  if c.atDocumentMark || startsWith ['#'] c.rest then some ⟨text, c, broken⟩
  else do
    let word ← plainWord inFlow c.rest
    if word.isEmpty then return ⟨text, c, broken⟩
    let text := text ++ gap ++ word
    let (gap, next) := (c.skip word.length).span isSpace
    if gap.isEmpty then return ⟨text, next, false⟩
    if tabBefore margin none gap then none
    let broken := gap.any isBreak
    if !inFlow && next.column < margin then return ⟨text, next, broken⟩
    if _h : next.rest.length < c.rest.length then
      plainWords inFlow margin text (gapText gap) broken next
    else none
termination_by c.rest.length

def plainScalar (inFlow : Bool) (margin : Nat) (c : Cursor) : Option PlainScalar :=
  plainWords inFlow margin [] [] false c

/-! Quoted scalars. -/

structure QuotedPart where
  text : List Char
  length : Nat
  /-- The part ends in a line break that does not count. -/
  continued : Bool := false

def QuotedPart.cons (c : Char) (width : Nat) (p : QuotedPart) : QuotedPart :=
  { p with text := c :: p.text, length := p.length + width }

def singlePart : List Char → QuotedPart
  | [] => ⟨[], 0, false⟩
  | '\'' :: '\'' :: r => (singlePart r).cons '\'' 2
  | c :: r => if c = '\'' ∨ isSpace c then ⟨[], 0, false⟩ else (singlePart r).cons c 1

def escapes : List (Char × Char) :=
  [('0', '\x00'), ('a', '\x07'), ('b', '\x08'), ('t', '\t'), ('\t', '\t'), ('n', '\n'), ('v', '\x0b'),
    ('f', '\x0c'), ('r', '\r'), ('e', '\x1b'), (' ', ' '), ('"', '"'), ('/', '/'), ('\\', '\\'),
    ('N', '\x85'), ('_', '\xa0'), ('L', '\u2028'), ('P', '\u2029')]

def escapeWidths : List (Char × Nat) := [('x', 2), ('u', 4), ('U', 8)]

def hexDigit? (c : Char) : Option Nat :=
  if c.isDigit then some (c.toNat - 48)
  else if 'a' ≤ c ∧ c ≤ 'f' then some (c.toNat - 87)
  else if 'A' ≤ c ∧ c ≤ 'F' then some (c.toNat - 55)
  else none

def hexNumber? (digits : List Char) : Option Nat :=
  digits.foldlM (fun n c => (hexDigit? c).map (n * 16 + ·)) 0

def scalarValue? (n : Nat) : Option Char :=
  if h : n.isValidChar then some (Char.ofNatAux n h) else none

def doublePart (s : List Char) : Option QuotedPart :=
  match s with
  | [] => some ⟨[], 0, false⟩
  | '\\' :: e :: r =>
    if isBreak e then some ⟨[], 2, true⟩
    else
      match escapes.lookup e with
      | some c => (doublePart r).map (·.cons c 2)
      | none => do
        let width ← escapeWidths.lookup e
        let digits := r.take width
        if digits.length ≠ width then none
        let c ← scalarValue? (← hexNumber? digits)
        return (← doublePart (r.drop width)).cons c (2 + width)
  | ['\\'] => none
  | c :: r => if c = '"' ∨ isSpace c then some ⟨[], 0, false⟩ else (doublePart r).map (·.cons c 1)
termination_by s.length
decreasing_by all_goals (simp; try omega)

def quotedParts (quote : Char) (text : List Char) (c : Cursor) : Option (List Char × Cursor) :=
  if c.atDocumentMark then none
  else do
    let part ← if quote = '"' then doublePart c.rest else some (singlePart c.rest)
    let text := text ++ part.text
    let c' := c.skip part.length
    if startsWith [quote] c'.rest then return (text, c'.next)
    let (gap, next) := c'.span isSpace
    let gap := if part.continued then gap.filter isBreak else gapText gap
    if _h : next.rest.length < c.rest.length then quotedParts quote (text ++ gap) next else none
termination_by c.rest.length

def quotedScalar (quote : Char) (c : Cursor) : Option (List Char × Cursor) :=
  quotedParts quote [] c.next

/-! Block scalars. -/

inductive Chomping
  | strip
  | clip
  | keep

structure BlockHeader where
  chomping : Chomping
  /-- The number of columns by which the block is indented, if it is given. -/
  increment : Option Nat

def chomping? : Char → Option Chomping
  | '+' => some .keep
  | '-' => some .strip
  | _ => none

def increment? (c : Char) : Option Nat :=
  if c.isDigit && c != '0' then some (c.toNat - 48) else none

def blockHeader : List Char → BlockHeader × Nat
  | c :: r =>
    match chomping? c, increment? c with
    | some chomping, _ =>
      match r.head?.bind increment? with
      | some n => (⟨chomping, some n⟩, 2)
      | none => (⟨chomping, none⟩, 1)
    | none, some n =>
      match r.head?.bind chomping? with
      | some chomping => (⟨chomping, some n⟩, 2)
      | none => (⟨.clip, some n⟩, 1)
    | none, none => (⟨.clip, none⟩, 0)
  | [] => (⟨.clip, none⟩, 0)

/-- The line breaks before the next line with text, the widest indentation among the lines up to there,
and the position behind its indentation.  While the indentation is unknown, `indent` is zero. -/
def blockBreaks (indent widest : Nat) (breaks : List Char) (c : Cursor) :
    Option (List Char × Nat × Cursor) :=
  let spaces := (c.rest.takeWhile (· == ' ')).length
  let c' := c.skip (if indent = 0 then spaces else min spaces (indent - c.column))
  let widest := max widest c'.column
  match c'.rest with
  | [] => some (breaks, widest, c')
  | x :: _ =>
    if x = '\t' ∧ (indent = 0 ∨ c'.column < indent) then none
    else if isBreak x then
      if _h : c'.next.rest.length < c.rest.length then
        blockBreaks indent widest (breaks ++ [x]) c'.next
      else none
    else some (breaks, widest, c')
termination_by c.rest.length

structure BlockText where
  text : List Char
  /-- The end of the last line. -/
  lineEnd : List Char
  /-- The ends of the empty lines behind it. -/
  breaks : List Char
  /-- Whether the last line began with a blank. -/
  blank : Bool
  after : Cursor

/-- Reads the lines that begin at column `indent`.  A line that begins with a blank is not folded. -/
def blockLines (literal : Bool) (indent : Nat) (b : BlockText) : Option BlockText :=
  let c := b.after
  if c.column = indent ∧ ¬ c.rest.isEmpty then do
    let blank := startsWith [' ', '\t'] c.rest
    let joint :=
      if !literal && b.lineEnd == ['\n'] && !b.blank && !blank then
        if b.breaks.isEmpty then [' '] else []
      else b.lineEnd
    let (line, c') := c.span (fun x => !isBreak x)
    let (breaks, _, next) ← blockBreaks indent 0 [] c'.next
    if _h : next.rest.length < b.after.rest.length then
      blockLines literal indent ⟨b.text ++ joint ++ b.breaks ++ line, c'.rest.take 1, breaks, blank, next⟩
    else none
  else some b
termination_by b.after.rest.length

/-- Reads a block scalar whose indicator is the next character, inside a block that takes up the columns
before `margin`. -/
def blockScalar (literal : Bool) (margin : Nat) (c : Cursor) : Option (List Char × Cursor) := do
  let c := c.next
  let (header, width) := blockHeader c.rest
  let c := (c.skip width).skipWhile isBlank
  let c := if startsWith ['#'] c.rest then c.skipWhile (fun x => !isBreak x) else c
  if !atSpace c.rest then none
  let given := match header.increment with
    | some n => margin - 1 + n
    | none => 0
  let (breaks, widest, start) ← blockBreaks given 0 [] c.next
  let indent := if given = 0 then max widest (max margin 1) else given
  let b ← blockLines literal indent ⟨[], [], breaks, false, start⟩
  let tail := match header.chomping with
    | .strip => []
    | .clip => b.lineEnd
    | .keep => b.lineEnd ++ b.breaks
  return (b.text ++ tail, b.after)

end SchemaGraph.Yaml
