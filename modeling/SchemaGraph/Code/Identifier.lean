/-! Identifiers made from arbitrary texts.  Only ASCII letters and digits remain; everything else separates
words. -/
namespace SchemaGraph.Code

def capitalized (start : Bool) : List Char → List Char
  | [] => []
  | c :: r =>
    if c.isAlphanum then (if start then c.toUpper else c) :: capitalized false r
    else capitalized true r

def pascalCase (s : String) : String := String.ofList (capitalized true s.toList)

/-- Appends a text in upper case to `acc`, which is reversed.  An underscore stands between words and before
an upper-case letter behind a lower-case letter or a digit. -/
def screaming (acc : List Char) (lower : Bool) : List Char → List Char
  | [] => acc.reverse
  | c :: r =>
    if c.isAlphanum then
      let acc := if c.isUpper && lower then '_' :: acc else acc
      screaming (c.toUpper :: acc) (c.isLower || c.isDigit) r
    else screaming (if acc.isEmpty || acc.head? == some '_' then acc else '_' :: acc) false r

def screamingCase (s : String) : String := String.ofList (screaming [] false s.toList)

def identifier (s : String) : String :=
  let name := pascalCase s
  match name.toList with
  | [] => "Empty"
  | c :: _ => if c.isDigit then "V" ++ name else if name = "Self" then "Self_" else name

/-- The first of `base`, `base2`, `base3`, … that is not taken.  One more candidate than there are taken
names suffices. -/
def fresh (taken : List String) (base : String) : String :=
  let numbered := (List.range (taken.length + 1)).map fun i => base ++ toString (i + 2)
  ((base :: numbered).find? (!taken.contains ·)).getD base

def freshNames (taken : List String) : List String → List String
  | [] => []
  | base :: rest =>
    let name := fresh taken base
    name :: freshNames (name :: taken) rest

end SchemaGraph.Code
