/-! Positions in a YAML text.  Indentation and the reach of a key are matters of columns and lines, so a
position knows both. -/
namespace SchemaGraph.Yaml

def isAllowed (c : Char) : Bool :=
  let n := c.toNat
  n == 9 || n == 10 || n == 13 || (0x20 ≤ n && n ≤ 0x7E) || n == 0x85 || (0xA0 ≤ n && n ≤ 0xFFFD) ||
    0x10000 ≤ n

/-- Writes carriage returns, next-line characters and carriage returns before a line feed as one line
feed. -/
def lineFeeds : List Char → List Char
  | [] => []
  | '\r' :: '\n' :: r => '\n' :: lineFeeds r
  | c :: r => (if c = '\r' ∨ c = '\x85' then '\n' else c) :: lineFeeds r

def isBlank (c : Char) : Bool := c == ' ' || c == '\t'

def isBreak (c : Char) : Bool := c == '\n' || c == '\u2028' || c == '\u2029'

def isSpace (c : Char) : Bool := isBlank c || isBreak c

def isWord (c : Char) : Bool := c.isAlphanum || c == '_' || c == '-'

def atSpace : List Char → Bool
  | [] => true
  | c :: _ => isSpace c

def startsWith (chars : List Char) : List Char → Bool
  | [] => false
  | c :: _ => chars.contains c

structure Cursor where
  rest : List Char
  /-- The number of octets before the position. -/
  index : Nat := 0
  line : Nat := 0
  column : Nat := 0

namespace Cursor

def next (c : Cursor) : Cursor :=
  match c.rest with
  | [] => c
  | x :: r =>
    let index := c.index + x.utf8Size
    if isBreak x then ⟨r, index, c.line + 1, 0⟩ else ⟨r, index, c.line, c.column + 1⟩

def skip (c : Cursor) : Nat → Cursor
  | 0 => c
  | n + 1 => c.next.skip n

def span (p : Char → Bool) (c : Cursor) : List Char × Cursor :=
  let run := c.rest.takeWhile p
  (run, c.skip run.length)

def skipWhile (p : Char → Bool) (c : Cursor) : Cursor := (c.span p).2

/-- Whether a line begins here with `mark` three times and nothing directly after it. -/
def atMark (c : Cursor) (mark : Char) : Bool :=
  c.column == 0 && c.rest.take 3 == [mark, mark, mark] && atSpace (c.rest.drop 3)

def atDocumentMark (c : Cursor) : Bool := c.atMark '-' || c.atMark '.'

end Cursor

end SchemaGraph.Yaml
