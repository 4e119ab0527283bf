import SchemaGraph.Yaml.Tag

/-! A YAML text as a sequence of tokens.

Indentation becomes explicit here: a block opens where a key or an entry stands further right than the block
around it, and closes where a line begins further left.  That something is a key shows only at the colon
behind it, so the place where it began is remembered, and the tokens that say so are put in there. -/
namespace SchemaGraph.Yaml

inductive Token
  | version (major minor : Nat)
  | tagHandle (handle : String) (meaning : Octets)
  | documentStart
  | documentEnd
  | blockList
  | blockMap
  | blockEnd
  | flowList
  | flowListEnd
  | flowMap
  | flowMapEnd
  /-- The dash of a list in a block. -/
  | entry
  /-- The comma between brackets. -/
  | comma
  | key
  | value
  | alias (name : String)
  | anchor (name : String)
  | tag (handle : String) (suffix : Octets)
  | scalar (style : Style) (text : String)
deriving DecidableEq

structure KeyStart where
  /-- The number of tokens before it. -/
  place : Nat
  index : Nat
  line : Nat
  column : Nat
  /-- Nothing but a key can stand here. -/
  required : Bool

structure Scanner where
  cursor : Cursor
  /-- The tokens so far, the last one first. -/
  tokens : List Token := []
  count : Nat := 0
  /-- The number of columns that each open block takes up, the innermost first. -/
  margins : List Nat := []
  /-- Where a key may have begun inside the open brackets, the innermost first. -/
  inner : List (Option KeyStart) := []
  /-- Where a key may have begun outside of all brackets. -/
  outer : Option KeyStart := none
  /-- Whether a key may begin at the next token. -/
  keyAllowed : Bool := true

abbrev Scan := StateT Scanner Option

namespace Scanner

def inFlow (s : Scanner) : Bool := !s.inner.isEmpty

/-- The number of columns that the innermost block takes up; nothing is one column less than a block at
column zero. -/
def margin (s : Scanner) : Nat := s.margins.head?.getD 0

def keyStart (s : Scanner) : Option KeyStart :=
  match s.inner with
  | k :: _ => k
  | [] => s.outer

def setKeyStart (s : Scanner) (k : Option KeyStart) : Scanner :=
  match s.inner with
  | _ :: r => { s with inner := k :: r }
  | [] => { s with outer := k }

end Scanner

namespace Scan

def emit (t : Token) : Scan Unit :=
  modify fun s => { s with tokens := t :: s.tokens, count := s.count + 1 }

def emitAt (place : Nat) (t : Token) : Scan Unit :=
  modify fun s =>
    { s with tokens := s.tokens.insertIdx (s.count - place) t, count := s.count + 1 }

def moveTo (c : Cursor) : Scan Unit := modify fun s => { s with cursor := c }

def allowKey (allowed : Bool) : Scan Unit := modify fun s => { s with keyAllowed := allowed }

def dropKey : Scan Unit := do
  match (← get).keyStart with
  | some k => if k.required then failure else modify (·.setKeyStart none)
  | none => pure ()

def noteKey : Scan Unit := do
  let s ← get
  if s.keyAllowed then
    dropKey
    let c := s.cursor
    let required := !s.inFlow && s.margin == c.column + 1
    modify (·.setKeyStart (some ⟨s.count, c.index, c.line, c.column, required⟩))

/-- A key ends on the line on which it began, not more than 1024 octets further on. -/
def isStale (c : Cursor) (k : KeyStart) : Bool := k.line < c.line || k.index + 1024 < c.index

def refresh (c : Cursor) : Option KeyStart → Option (Option KeyStart)
  | some k => if isStale c k then if k.required then none else some none else some (some k)
  | none => some none

def dropStaleKeys : Scan Unit := do
  let s ← get
  let inner ← s.inner.mapM fun k => (refresh s.cursor k : Scan (Option KeyStart))
  let outer ← refresh s.cursor s.outer
  set { s with inner, outer }

def openBlock (column place : Nat) (t : Token) : Scan Unit := do
  let s ← get
  if !s.inFlow && s.margin ≤ column then
    modify fun s => { s with margins := (column + 1) :: s.margins }
    emitAt place t

def closeBlocks (width : Nat) : Scan Unit :=
  modify fun s =>
    if s.inFlow then s
    else
      let closed := s.margins.takeWhile (width < ·)
      { s with
        margins := s.margins.drop closed.length
        tokens := closed.map (fun _ => Token.blockEnd) ++ s.tokens
        count := s.count + closed.length }

def take (n : Nat) (t : Token) : Scan Unit := do
  moveTo ((← get).cursor.skip n)
  emit t

/-! White space, comments and directives. -/

/-- Goes to the next token.  A line end allows a key outside of brackets; as long as a key is allowed
there, tabs are not skipped.  A byte order mark can begin any line. -/
def skipSpace (inFlow allowed : Bool) (c : Cursor) : Bool × Cursor :=
  let start := if c.column = 0 ∧ startsWith ['\ufeff'] c.rest then c.next else c
  let c' := start.skipWhile fun x => x == ' ' || ((inFlow || !allowed) && x == '\t')
  let c' := if startsWith ['#'] c'.rest then c'.skipWhile (fun x => !isBreak x) else c'
  match c'.rest with
  | x :: _ =>
    if isBreak x then
      if _h : c'.next.rest.length < c.rest.length then skipSpace inFlow (allowed || !inFlow) c'.next
      else (allowed, c')
    else (allowed, c')
  | [] => (allowed, c')
termination_by c.rest.length

def toNextToken : Scan Unit := do
  let s ← get
  let (keyAllowed, cursor) := skipSpace s.inFlow s.keyAllowed s.cursor
  set { s with keyAllowed, cursor }

def word (c : Cursor) : Option (String × Cursor) :=
  let (name, c) := c.span isWord
  if name.isEmpty then none else some (String.ofList name, c)

def versionNumber (c : Cursor) : Option (Nat × Cursor) :=
  let (digits, c) := c.span Char.isDigit
  if digits.isEmpty ∨ 9 < digits.length then none
  else some (digits.foldl (fun n d => n * 10 + (d.toNat - 48)) 0, c)

def versionDirective (c : Cursor) : Option (Token × Cursor) := do
  let (major, c) ← versionNumber (c.skipWhile isBlank)
  if !startsWith ['.'] c.rest then none
  let (minor, c) ← versionNumber c.next
  return (.version major minor, c)

def tagDirective (c : Cursor) : Option (Token × Cursor) := do
  let (handle, c) ← tagHandle (c.skipWhile isBlank)
  if handle ≠ "!" ∧ ¬ (handle.endsWith "!") then none
  if !startsWith [' ', '\t'] c.rest then none
  let c := c.skipWhile isBlank
  let (meaning, n) ← tagOctets true 0 c.rest
  if n = 0 ∨ !atSpace (c.rest.drop n) then none
  return (.tagHandle handle meaning, c.skip n)

def directive : Scan Unit := do
  closeBlocks 0
  dropKey
  allowKey false
  let (name, c) ← word (← get).cursor.next
  if !atSpace c.rest then failure
  let (t, c) ←
    match name with
    | "YAML" => versionDirective c
    | "TAG" => tagDirective c
    | _ => failure
  let c := c.skipWhile isBlank
  let c := if startsWith ['#'] c.rest then c.skipWhile (fun x => !isBreak x) else c
  if !atSpace c.rest then failure
  moveTo c.next
  emit t

def documentMark (t : Token) : Scan Unit := do
  closeBlocks 0
  dropKey
  allowKey false
  take 3 t

/-! Indicators. -/

def openFlow (t : Token) : Scan Unit := do
  noteKey
  modify fun s => { s with inner := none :: s.inner }
  allowKey true
  take 1 t

def closeFlow (t : Token) : Scan Unit := do
  dropKey
  modify fun s => { s with inner := s.inner.drop 1 }
  allowKey false
  take 1 t

def comma : Scan Unit := do
  dropKey
  allowKey true
  take 1 .comma

def startBlock (t : Token) : Scan Unit := do
  let s ← get
  if !s.inFlow then
    if !s.keyAllowed then failure
    openBlock s.cursor.column s.count t

def entry : Scan Unit := do
  startBlock .blockList
  dropKey
  allowKey true
  take 1 .entry

def explicitKey : Scan Unit := do
  startBlock .blockMap
  dropKey
  allowKey (!(← get).inFlow)
  take 1 .key

def value : Scan Unit := do
  match (← get).keyStart with
  | some k =>
    emitAt k.place .key
    openBlock k.column k.place .blockMap
    modify (·.setKeyStart none)
    allowKey false
  | none =>
    startBlock .blockMap
    allowKey (!(← get).inFlow)
  take 1 .value

/-! What stands before a value, and scalars. -/

def named (t : String → Token) : Scan Unit := do
  noteKey
  allowKey false
  let (name, c) ← word (← get).cursor.next
  if !(atSpace c.rest || startsWith ['?', ':', ',', ']', '}', '%', '@', '\x60'] c.rest) then failure
  moveTo c
  emit (t name)

/-- A tag in angle brackets stands for itself; others are a handle and a suffix.  An exclamation mark alone
is a tag without a handle. -/
def tagAt (c : Cursor) : Option (Token × Cursor) := do
  match c.rest with
  | '!' :: '<' :: r =>
    let (tag, n) ← tagOctets true 0 r
    let c := c.skip (2 + n)
    if n = 0 ∨ !startsWith ['>'] c.rest then none
    return (.tag "" tag, c.next)
  | _ =>
    let (handle, c) ← tagHandle c
    let (suffix, n) ← tagOctets false 0 c.rest
    let c := c.skip n
    if handle ≠ "!" ∧ handle.endsWith "!" then
      if n = 0 then none
      return (.tag handle suffix, c)
    let suffix := octets (handle.drop 1).toString ++ suffix
    return (if (counting suffix).isEmpty then .tag "" (octets "!") else .tag "!" suffix, c)

def tag : Scan Unit := do
  noteKey
  allowKey false
  let s ← get
  let (t, c) ← tagAt s.cursor
  if !(atSpace c.rest || (s.inFlow && startsWith [','] c.rest)) then failure
  moveTo c
  emit t

def block (style : Style) : Scan Unit := do
  dropKey
  allowKey true
  let s ← get
  let (text, c) ← blockScalar (style == .literal) s.margin s.cursor
  moveTo c
  emit (.scalar style (String.ofList text))

def quoted (quote : Char) : Scan Unit := do
  noteKey
  allowKey false
  let (text, c) ← quotedScalar quote (← get).cursor
  moveTo c
  emit (.scalar .other (String.ofList text))

def plain : Scan Unit := do
  noteKey
  allowKey false
  let s ← get
  let p ← plainScalar s.inFlow s.margin s.cursor
  moveTo p.after
  if p.broken then allowKey true
  emit (.scalar .plain (String.ofList p.text))

def beginsPlain (inFlow : Bool) (c : Char) (r : List Char) : Bool :=
  if isSpace c then false
  else if c = '-' then !startsWith [' ', '\t'] r
  else if c = '?' ∨ c = ':' then !inFlow && !atSpace r
  else
    let special := [',', '[', ']', '{', '}', '#', '&', '*', '!', '|', '>', '\'', '"', '%', '@', '\x60']
    !special.contains c

def token (c : Char) (r : List Char) : Scan Unit := do
  let s ← get
  let inFlow := s.inFlow
  if s.cursor.column = 0 ∧ c = '%' then directive
  else if s.cursor.atMark '-' then documentMark .documentStart
  else if s.cursor.atMark '.' then documentMark .documentEnd
  else if c = '[' then openFlow .flowList
  else if c = '{' then openFlow .flowMap
  else if c = ']' then closeFlow .flowListEnd
  else if c = '}' then closeFlow .flowMapEnd
  else if c = ',' then comma
  else if c = '-' ∧ atSpace r then entry
  else if c = '?' ∧ (inFlow ∨ atSpace r) then explicitKey
  else if c = ':' ∧ (inFlow ∨ atSpace r) then value
  else if c = '*' then named .alias
  else if c = '&' then named .anchor
  else if c = '!' then tag
  else if c = '|' ∧ !inFlow then block .literal
  else if c = '>' ∧ !inFlow then block .other
  else if c = '\'' ∨ c = '"' then quoted c
  else if beginsPlain inFlow c r then plain
  else failure

def step : Scan Unit := do
  toNextToken
  dropStaleKeys
  closeBlocks ((← get).cursor.column + 1)
  match (← get).cursor.rest with
  | [] =>
    closeBlocks 0
    dropKey
  | c :: r => token c r

def run (s : Scanner) : Option (List Token) := do
  let (_, next) ← StateT.run step s
  if next.cursor.rest.isEmpty ∧ s.cursor.rest.isEmpty then return next.tokens.reverse
  if _h : next.cursor.rest.length < s.cursor.rest.length then run next else none
termination_by s.cursor.rest.length

end Scan

def tokensOfText? (text : String) : Option (List Token) :=
  let chars := text.toList
  if chars.all isAllowed then Scan.run { cursor := { rest := lineFeeds chars } } else none

end SchemaGraph.Yaml
