import SchemaGraph.Proofs.Code.Constants

/-! The statics of a generated module, read as code.  They hold the rows of the tables, with every text as it is.
`texts_read_back`: literals are read back whatever characters they are made from. -/
namespace SchemaGraph.Code

open Artifact (Element Attribute TypeRow OperationRow)

namespace Constant

def ofOption : Option String → Constant
  | some s => .call "Some" (.text s)
  | none => .name "None"

def ofBool (b : Bool) : Constant := .name (if b then "true" else "false")

def ofTexts (l : List String) : Constant := .list (l.map .text)

def ofKind : Option SimpleKind → Constant
  | some k => .call "Some" (.name ("SimpleKind::" ++ kindVariant k))
  | none => .name "None"

def ofElement (e : Element) : Constant :=
  .record "ElementDef" [("xml_name", .text e.xmlName), ("json_name", ofOption e.jsonName),
    ("type_name", .text e.typeName), ("is_list", ofBool e.isList), ("json_hint", ofOption e.jsonHint),
    ("json_default", ofOption (e.jsonDefault.map Json.compact))]

def ofAttribute (a : Attribute) : Constant :=
  .record "AttributeDef" [("name", .text a.name), ("type_name", ofOption a.typeName)]

def ofType (t : TypeRow) : Constant :=
  .record "TypeDef" [("name", .text t.name), ("json_type", ofOption t.jsonType),
    ("elements", .list (t.elements.map ofElement)), ("attributes", .list (t.attributes.map ofAttribute)),
    ("extra_properties", ofTexts t.extraProperties), ("is_list", ofBool t.isList),
    ("is_abstract", ofBool t.isAbstract), ("simple_kind", ofKind t.simpleKind),
    ("any_attribute", ofBool t.anyAttribute), ("text_attribute", ofOption t.textAttribute),
    ("list_name", ofOption t.listName), ("enum_values", ofTexts t.enumValues),
    ("list_item_type", ofOption t.listItemType)]

def ofOperation (o : OperationRow) : Constant :=
  .record "OperationDef" [("name", .text o.name), ("action", .text o.action), ("body_type", .text o.bodyType),
    ("request_type", .text o.requestType), ("request", .text o.request),
    ("response_element", .text o.responseElement), ("response_name", .text o.responseName),
    ("response", .text o.response)]

end Constant

def statics (a : Artifact) : List (String × Constant) :=
  [("TYPES", .list (a.types.map .ofType)), ("REQUEST_HEADERS", .ofOption a.requestHeaders),
    ("RESPONSE_HEADERS", .ofOption a.responseHeaders), ("OPERATIONS", .list (a.operations.map .ofOperation))]

def Token.isOneOf (names : List String) : Token → Bool
  | .word w => names.contains w
  | .text _ | .mark _ | .fault => false

@[simp] theorem isOneOf_word (names : List String) (w : String) : (Token.word w).isOneOf names = names.contains w := rfl

@[simp] theorem isOneOf_mark (names : List String) (c : Char) : (Token.mark c).isOneOf names = false := rfl

def Lacks (names : List String) (ts : List Token) : Prop := ts.all (!·.isOneOf names) = true

@[simp] theorem lacks_append {names : List String} {ts ts' : List Token} :
    Lacks names (ts ++ ts') ↔ Lacks names ts ∧ Lacks names ts' := by
  simp [Lacks]

theorem Lacks.not_mem {names : List String} {ts : List Token} {name : String} (h : Lacks names ts)
    (mem : name ∈ names) : .word name ∉ ts := by
  intro here
  simpa [mem] using List.all_eq_true.1 h _ here

theorem Lacks.mono {names names' : List String} {ts : List Token} (h : Lacks names ts) (fewer : names' ⊆ names) :
    Lacks names' ts := by
  refine List.all_eq_true.2 fun t ht => ?_
  have lacks := List.all_eq_true.1 h t ht
  cases t with
  | word w => simp_all [mt (@fewer w)]
  | _ => rfl

def staticNames : List String := ["TYPES", "REQUEST_HEADERS", "RESPONSE_HEADERS", "OPERATIONS"]

/-- Tokens name none of the statics. -/
abbrev Still (ts : List Token) : Prop := Lacks staticNames ts

def Writes (s : String) (c : Constant) : Prop := ∃ ts, Spells s ts ∧ Reads ts c ∧ Still ts

section Values

theorem writes_literal (s : String) : Writes (literal s) (.text s) :=
  ⟨_, (settles_literal s).spells, reads_text s, rfl⟩

theorem settles_optional (s : String) :
    Settles (optional (some s)) (.word "Some" :: .mark '(' :: ([Token.text s] ++ [Token.mark ')'])) := by
  have opened : Settles "Some(" [.word "Some", .mark '('] := settles_of_run rfl
  have closed : Settles ")" [.mark ')'] := settles_of_run rfl
  exact (opened.append (settles_literal s)).append closed

theorem writes_optional (o : Option String) : Writes (optional o) (.ofOption o) := by
  cases o with
  | none => exact ⟨_, spells_word (w := "None") (by decide) (by decide), reads_name "None", rfl⟩
  | some s => exact ⟨_, (settles_optional s).spells, (reads_text s).call "Some", rfl⟩

theorem writes_truth (b : Bool) : Writes (truth b) (.ofBool b) := by
  cases b with
  | false => exact ⟨_, spells_word (w := "false") (by decide) (by decide), reads_name "false", rfl⟩
  | true => exact ⟨_, spells_word (w := "true") (by decide) (by decide), reads_name "true", rfl⟩

theorem writes_kindText (k : Option SimpleKind) : Writes (kindText k) (.ofKind k) := by
  cases k with
  | none => exact ⟨_, spells_word (w := "None") (by decide) (by decide), reads_name "None", rfl⟩
  | some k =>
    have opened : Settles "Some(SimpleKind::" [.word "Some", .mark '(', .word "SimpleKind", .mark ':', .mark ':'] :=
      settles_of_run rfl
    have closed : Settles ")" [.mark ')'] := settles_of_run rfl
    have kind : Spells (kindVariant k) [.word (kindVariant k)] := by
      cases k <;> exact spells_word (by decide) (by decide)
    refine ⟨_, ((opened.append_spells kind).append closed rfl).spells, (reads_qualified "SimpleKind" _).call "Some", ?_⟩
    cases k <;> rfl

theorem settles_intercalate (l : List String) :
    ∃ ts, Settles (", ".intercalate (l.map literal)) ts ∧ ReadsItems ts (l.map .text) ∧ Still ts := by
  induction l with
  | nil => exact ⟨[], settles_empty, readsItems_nil, rfl⟩
  | cons s l ih =>
    cases l with
    | nil => exact ⟨_, settles_literal s, (reads_text s).last, rfl⟩
    | cons s' l =>
      obtain ⟨ts, rest, reads, still⟩ := ih
      have comma : Settles ", " [.mark ','] := settles_of_run rfl
      have joined : ", ".intercalate ((s :: s' :: l).map literal) =
          literal s ++ ", " ++ ", ".intercalate ((s' :: l).map literal) := by
        simp
      rw [joined]
      refine ⟨_, ((settles_literal s).append comma).append rest, (reads_text s).item reads, ?_⟩
      exact lacks_append.2 ⟨rfl, still⟩

theorem settles_slice (l : List String) :
    ∃ ts, Settles (slice l) ts ∧ Reads ts (.ofTexts l) ∧ Still ts := by
  obtain ⟨ts, inside, reads, still⟩ := settles_intercalate l
  have opened : Settles "&[" [.mark '&', .mark '['] := settles_of_run rfl
  have closed : Settles "]" [.mark ']'] := settles_of_run rfl
  exact ⟨_, (opened.append inside).append closed, .list reads, lacks_append.2 ⟨lacks_append.2 ⟨rfl, still⟩, rfl⟩⟩

theorem writes_slice (l : List String) : Writes (slice l) (.ofTexts l) := by
  obtain ⟨ts, settles, reads, still⟩ := settles_slice l
  exact ⟨ts, settles.spells, reads, still⟩

end Values

section Records

variable {s v sep head key key' type : String} {c c' : Constant} {fields : List (String × Constant)}

/-- A text is the value of a field, and goes on to the brace that closes the record. -/
def Closes (key s : String) (fields : List (String × Constant)) : Prop :=
  ∃ ts, Settles s (ts ++ [Token.mark '}']) ∧ ReadsFields (.word key :: .mark ':' :: ts) fields ∧ Still ts

theorem Writes.closes (h : Writes v c) : Closes key (v ++ " \x7d") [(key, c)] := by
  obtain ⟨ts, spells, reads, still⟩ := h
  have brace : Settles " \x7d" [.mark '}'] := settles_of_run rfl
  exact ⟨ts, spells.append brace rfl, reads.lastField key, still⟩

theorem Writes.field (h : Writes v c) (h' : Closes key' s ((key', c') :: fields))
    (between : Settles sep [.mark ',', .word key', .mark ':']) (apart : sep.toList.head?.any (!isWordChar ·) = true)
    (still' : Still [.word key']) : Closes key (v ++ (sep ++ s)) ((key, c) :: (key', c') :: fields) := by
  obtain ⟨ts, spells, reads, still⟩ := h
  obtain ⟨ts', rest, readsRest, stillRest⟩ := h'
  refine ⟨ts ++ Token.mark ',' :: .word key' :: .mark ':' :: ts', ?_, reads.field readsRest key, ?_⟩
  · rw [← String.append_assoc]
    simpa using (spells.append between apart).append rest
  · simp_all [Lacks]

theorem Closes.record (key : String) (h : Closes key s fields)
    (opened : Settles head [.word type, .mark '{', .word key, .mark ':']) (still' : Still [.word type, .word key]) :
    Writes (head ++ s) (.record type fields) := by
  obtain ⟨ts, rest, reads, still⟩ := h
  refine ⟨_, (opened.append rest).spells, ?_, ?_⟩
  · simpa using Reads.record reads type
  · simp_all [Lacks]

theorem writes_elementText (e : Element) : Writes (elementText e) (.ofElement e) := by
  delta elementText
  simp only [String.append_assoc]
  refine Closes.record "xml_name" ?_ (settles_of_run rfl) rfl
  refine (writes_literal e.xmlName).field ?_ (settles_of_run rfl) rfl rfl
  refine (writes_optional e.jsonName).field ?_ (settles_of_run rfl) rfl rfl
  refine (writes_literal e.typeName).field ?_ (settles_of_run rfl) rfl rfl
  refine (writes_truth e.isList).field ?_ (settles_of_run rfl) rfl rfl
  refine (writes_optional e.jsonHint).field ?_ (settles_of_run rfl) rfl rfl
  exact (writes_optional (e.jsonDefault.map Json.compact)).closes

theorem writes_attributeText (a : Attribute) : Writes (attributeText a) (.ofAttribute a) := by
  delta attributeText
  simp only [String.append_assoc]
  refine Closes.record "name" ?_ (settles_of_run rfl) rfl
  refine (writes_literal a.name).field ?_ (settles_of_run rfl) rfl rfl
  exact (writes_optional a.typeName).closes

end Records

section Rows

variable {ls : List String} {fields : List (String × Constant)}

/-- Lines write a constant, with a comma behind it. -/
def WritesRow (ls : List String) (c : Constant) : Prop :=
  ∃ ts, Settles (lines ls) (ts ++ [Token.mark ',']) ∧ Reads ts c ∧ Still ts

def WritesFields (ls : List String) (fields : List (String × Constant)) : Prop :=
  ∃ ts, Settles (lines ls) ts ∧ ReadsFields ts fields ∧ Still ts

theorem writesFields_nil : WritesFields [] [] := ⟨[], settles_empty, readsFields_nil, rfl⟩

theorem Writes.row {s : String} {c : Constant} (h : Writes s c) : WritesRow ["            " ++ s ++ ","] c := by
  obtain ⟨ts, spells, reads, still⟩ := h
  have margin : Settles "            " [] := settles_of_run rfl
  have comma : Settles ",\n" [.mark ','] := settles_of_run rfl
  refine ⟨ts, ?_, reads, still⟩
  have line : lines ["            " ++ s ++ ","] = "            " ++ s ++ ",\n" := by simp [lines, String.append_assoc]
  rw [line]
  exact (margin.append_spells spells).append comma rfl

theorem settles_rows {α : Type} {f : α → List String} {g : α → Constant} {l : List α}
    (h : ∀ a ∈ l, WritesRow (f a) (g a)) :
    ∃ ts, Settles (lines (l.flatMap f)) ts ∧ ReadsItems ts (l.map g) ∧ Still ts := by
  induction l with
  | nil => exact ⟨[], settles_empty, readsItems_nil, rfl⟩
  | cons a l ih =>
    rw [List.forall_mem_cons] at h
    obtain ⟨ts, first, reads, still⟩ := h.1
    obtain ⟨ts', rest, readsRest, stillRest⟩ := ih h.2
    rw [List.flatMap_cons, lines_append]
    refine ⟨ts ++ Token.mark ',' :: ts', ?_, reads.item readsRest, ?_⟩
    · simpa using first.append rest
    · simp_all [Lacks]

def isKey (key : String) : Bool := key != "" && key.toList.all isWordChar && !staticNames.contains key

theorem settles_key {key : String} (h : isKey key = true) :
    Settles ("        " ++ key ++ ": ") [.word key, .mark ':'] ∧ Still [.word key] := by
  simp only [isKey, Bool.and_eq_true, bne_iff_ne] at h
  have margin : Settles "        " [] := settles_of_run rfl
  have colon : Settles ": " [.mark ':'] := settles_of_run rfl
  exact ⟨(margin.append_spells (spells_word h.1.1 h.1.2)).append colon rfl, by simpa [Lacks] using h.2⟩

theorem WritesFields.field {value : String} {c : Constant} (h' : WritesFields ls fields) (key : String)
    (h : Writes value c) (word : isKey key = true) : WritesFields (field key value :: ls) ((key, c) :: fields) := by
  obtain ⟨name, still'⟩ := settles_key word
  obtain ⟨ts, spells, reads, still⟩ := h
  obtain ⟨ts', rest, readsRest, stillRest⟩ := h'
  have comma : Settles ",\n" [.mark ','] := settles_of_run rfl
  have line : lines (Code.field key value :: ls) = "        " ++ key ++ ": " ++ value ++ ",\n" ++ lines ls := by
    simp [lines, Code.field, String.append_assoc]
  refine ⟨_, ?_, reads.field readsRest key, ?_⟩
  · rw [line]
    simpa using ((name.append_spells spells).append comma rfl).append rest
  · simp_all [Lacks]

theorem settles_rowsField {α : Type} {f : α → String} {l : List α} {key : String} {ts : List Token}
    (name : Settles ("        " ++ key ++ ": ") [.word key, .mark ':'])
    (inside : Settles (lines (l.flatMap fun a => ["            " ++ f a ++ ","])) ts) :
    Settles (lines (rowsField key (l.map f)))
      (.word key :: .mark ':' :: .mark '&' :: .mark '[' :: (ts ++ [Token.mark ']', .mark ','])) := by
  cases l with
  | nil =>
    have brackets : Settles "&[],\n" [.mark '&', .mark '[', .mark ']', .mark ','] := settles_of_run rfl
    have line : lines (rowsField key ([].map f)) = "        " ++ key ++ ": " ++ "&[],\n" := by
      simp [lines, rowsField, String.append_assoc]
    have none : ts = [] := by simpa [Settles, lines] using inside.symm
    rw [line, none]
    exact name.append brackets
  | cons a l =>
    have opened : Settles "&[\n" [.mark '&', .mark '['] := settles_of_run rfl
    have closed : Settles "        ],\n" [.mark ']', .mark ','] := settles_of_run rfl
    have line : lines (rowsField key ((a :: l).map f)) =
        "        " ++ key ++ ": " ++ "&[\n" ++ lines ((a :: l).flatMap fun a => ["            " ++ f a ++ ","]) ++
          "        ],\n" := by
      rw [← List.map_eq_flatMap]
      simp [lines, rowsField, String.append_assoc, Function.comp_def]
    rw [line]
    exact ((name.append opened).append inside).append closed

theorem WritesFields.rows {α : Type} {f : α → String} {g : α → Constant} {l : List α}
    (h' : WritesFields ls fields) (key : String) (h : ∀ a ∈ l, Writes (f a) (g a)) (word : isKey key = true) :
    WritesFields (rowsField key (l.map f) ++ ls) ((key, .list (l.map g)) :: fields) := by
  obtain ⟨name, still'⟩ := settles_key word
  obtain ⟨ts, inside, reads, still⟩ := settles_rows fun a ha => (h a ha).row
  obtain ⟨ts', rest, readsRest, stillRest⟩ := h'
  refine ⟨_, ?_, (Reads.list reads).field readsRest key, ?_⟩
  · simpa using (settles_rowsField name inside).lines_append rest
  · simp_all [Lacks]

theorem WritesFields.record (h : WritesFields ls fields) (head type : String)
    (opened : Settles (head ++ "\n") [.word type, .mark '{']) (still' : Still [.word type]) :
    WritesRow ([head] ++ ls ++ ["    \x7d,"]) (.record type fields) := by
  obtain ⟨ts, inside, reads, still⟩ := h
  have closed : Settles "    \x7d,\n" [.mark '}', .mark ','] := settles_of_run rfl
  have line : lines ([head] ++ ls ++ ["    \x7d,"]) = head ++ "\n" ++ lines ls ++ "    \x7d,\n" := by
    simp [lines, String.append_assoc]
  refine ⟨_, ?_, Reads.record reads type, ?_⟩
  · rw [line]
    simpa using (opened.append inside).append closed
  · simp_all [Lacks]

theorem writesRow_typeLines (t : TypeRow) : WritesRow (typeLines t) (.ofType t) := by
  have fields := writesFields_nil
    |>.field "list_item_type" (writes_optional t.listItemType) rfl
    |>.field "enum_values" (writes_slice t.enumValues) rfl
    |>.field "list_name" (writes_optional t.listName) rfl
    |>.field "text_attribute" (writes_optional t.textAttribute) rfl
    |>.field "any_attribute" (writes_truth t.anyAttribute) rfl
    |>.field "simple_kind" (writes_kindText t.simpleKind) rfl
    |>.field "is_abstract" (writes_truth t.isAbstract) rfl
    |>.field "is_list" (writes_truth t.isList) rfl
    |>.field "extra_properties" (writes_slice t.extraProperties) rfl
    |>.rows "attributes" (l := t.attributes) (fun a _ => writes_attributeText a) rfl
    |>.rows "elements" (l := t.elements) (fun e _ => writes_elementText e) rfl
    |>.field "json_type" (writes_optional t.jsonType) rfl
    |>.field "name" (writes_literal t.name) rfl
  have row := fields.record "    TypeDef \x7b" "TypeDef" (settles_line_of_run rfl) rfl
  simpa [typeLines, Constant.ofType] using row

theorem writesRow_operationLines (o : OperationRow) : WritesRow (operationLines o) (.ofOperation o) := by
  have fields := writesFields_nil
    |>.field "response" (writes_literal o.response) rfl
    |>.field "response_name" (writes_literal o.responseName) rfl
    |>.field "response_element" (writes_literal o.responseElement) rfl
    |>.field "request" (writes_literal o.request) rfl
    |>.field "request_type" (writes_literal o.requestType) rfl
    |>.field "body_type" (writes_literal o.bodyType) rfl
    |>.field "action" (writes_literal o.action) rfl
    |>.field "name" (writes_literal o.name) rfl
  have row := fields.record "    OperationDef \x7b" "OperationDef" (settles_line_of_run rfl) rfl
  simpa [operationLines, OperationRow.fields, Constant.ofOperation] using row

end Rows

section Module

variable {names : List String}

def rowsOf (type : String) : List Token := [.mark ':', .mark '&', .mark '[', .word type, .mark ']']

def optionalText : List Token := [.mark ':', .word "Option", .mark '<', .mark '&', .word "str", .mark '>']

theorem Lacks.list {ts : List Token} (h : Lacks names ts) :
    Lacks names (.mark '&' :: .mark '[' :: (ts ++ [Token.mark ']'])) := by
  simpa [Lacks] using h

theorem settles_of_lines {ls : List String} (h : ∀ l ∈ ls, ∃ ts, Settles (l ++ "\n") ts ∧ Lacks names ts) :
    ∃ ts, Settles (lines ls) ts ∧ Lacks names ts := by
  induction ls with
  | nil => exact ⟨[], settles_no_lines, rfl⟩
  | cons l ls ih =>
    rw [List.forall_mem_cons] at h
    obtain ⟨ts, first, lacks⟩ := h.1
    obtain ⟨ts', rest, lacks'⟩ := ih h.2
    exact ⟨_, first.line rest, lacks_append.2 ⟨lacks, lacks'⟩⟩

theorem exists_line {l : List Char}
    (h : ((Scanner.code.run (l ++ ['\n'])).1.all (!·.isOneOf names) &&
      (Scanner.code.run (l ++ ['\n'])).2 == .code) = true) :
    ∃ ts, Settles (String.ofList l ++ "\n") ts ∧ Lacks names ts := by
  rw [Bool.and_eq_true, beq_iff_eq] at h
  exact ⟨_, settles_line_of_run (Prod.ext rfl h.2), h.1⟩

theorem feed_not_mem_toDigits (n : Nat) : '\n' ∉ Nat.toDigits 10 n := by
  intro digit
  exact absurd (Nat.isDigit_of_mem_toDigits (by decide) (by decide) digit) (by decide)

theorem settles_banner (a : Artifact) : Settles (lines (banner a)) [] := by
  have title : Settles ("// Code generated by xsdgraph; DO NOT EDIT." ++ "\n") [] := settles_line_of_run rfl
  have counts : Settles ("// " ++ toString a.types.length ++ " types, " ++ toString a.operations.length ++
      " operations." ++ "\n") [] := by
    have comment : Settles ("//" ++ (" " ++ toString a.types.length ++ " types, " ++ toString a.operations.length ++
        " operations.") ++ "\n") [] := settles_comment (by simp [feed_not_mem_toDigits])
    simpa [Settles] using comment
  have blank : Settles ("" ++ "\n") [] := settles_line_of_run rfl
  exact title.line (counts.line (blank.line settles_no_lines))

theorem settles_declarations : ∃ ts, Settles (lines declarations) ts ∧ Still ts := by
  apply settles_of_lines
  simp only [declarations, List.forall_mem_cons, List.not_mem_nil, false_implies, implies_true, and_true]
  and_intros
  all_goals exact exists_line (by decide +kernel)

theorem settles_table {above rows below : List String} {ts : List Token} (before type : List Token) (name : String)
    (head : Settles (lines above)
      (before ++ Token.word "pub" :: .word "static" :: .word name :: (type ++ [Token.mark '=', .mark '&', .mark '['])))
    (inside : Settles (lines rows) ts) (behind : ∃ ts, Settles (lines below) ts ∧ Lacks names ts) :
    ∃ behind, Settles (lines (above ++ rows ++ "];" :: below))
        (before ++ (declared "static" name type (.mark '&' :: .mark '[' :: (ts ++ [Token.mark ']'])) ++ behind)) ∧
      Lacks names behind := by
  obtain ⟨ts', below, lacks⟩ := behind
  have closed : Settles ("];" ++ "\n") [.mark ']', .mark ';'] := settles_line_of_run rfl
  refine ⟨ts', ?_, lacks⟩
  simpa [declared] using (head.lines_append inside).lines_append (closed.line below)

theorem settles_typesText (a : Artifact) :
    ∃ ts, Reads ts (.list (a.types.map .ofType)) ∧ Still ts ∧ ∃ behind,
      Settles (typesText a) (declared "static" "TYPES" (rowsOf "TypeDef") ts ++ behind) ∧
      Lacks ["REQUEST_HEADERS", "RESPONSE_HEADERS", "OPERATIONS"] behind := by
  obtain ⟨ts, inside, reads, still⟩ := settles_rows fun t (_ : t ∈ a.types) => writesRow_typeLines t
  have comment : Settles ("/// Every resolved type, sorted by name." ++ "\n") [] := settles_line_of_run rfl
  have head : Settles ("pub static TYPES: &[TypeDef] = &[" ++ "\n")
      (.word "pub" :: .word "static" :: .word "TYPES" :: (rowsOf "TypeDef" ++ [Token.mark '=', .mark '&', .mark '['])) :=
    settles_line_of_run rfl
  have above := comment.line (head.line settles_no_lines)
  refine ⟨_, Reads.list reads, still.list, settles_table [] (rowsOf "TypeDef") "TYPES" above inside ?_⟩
  apply settles_of_lines
  simp only [List.forall_mem_cons, List.not_mem_nil, false_implies, implies_true, and_true]
  and_intros
  all_goals exact exists_line (by decide +kernel)

theorem Spells.constant {s head : String} {ts before : List Token} (h : Spells s ts) (opened : Settles head before) :
    Settles (head ++ s ++ ";" ++ "\n") (before ++ ts ++ [Token.mark ';']) := by
  have closed : Settles (";" ++ "\n") [.mark ';'] := settles_line_of_run rfl
  have line : head ++ s ++ ";" ++ "\n" = head ++ s ++ (";" ++ "\n") := String.append_assoc
  rw [line]
  exact (opened.append_spells h).append closed rfl

theorem settles_operationsText (a : Artifact) :
    ∃ request response ts, Reads request (.ofOption a.requestHeaders) ∧ Still request ∧
      Reads response (.ofOption a.responseHeaders) ∧ Still response ∧
      Reads ts (.list (a.operations.map .ofOperation)) ∧ ∃ behind,
      Settles (operationsText a)
        (declared "const" "REQUEST_HEADERS" optionalText request ++
          declared "const" "RESPONSE_HEADERS" optionalText response ++
          (declared "static" "OPERATIONS" (rowsOf "OperationDef") ts ++ behind)) := by
  obtain ⟨ts, inside, reads, -⟩ := settles_rows fun o (_ : o ∈ a.operations) => writesRow_operationLines o
  obtain ⟨request, spellsRequest, readsRequest, stillRequest⟩ := writes_optional a.requestHeaders
  obtain ⟨response, spellsResponse, readsResponse, stillResponse⟩ := writes_optional a.responseHeaders
  have comment₁ : Settles ("/// Type holding every request header element." ++ "\n") [] := settles_line_of_run rfl
  have head₁ : Settles "pub const REQUEST_HEADERS: Option<&str> = "
      (.word "pub" :: .word "const" :: .word "REQUEST_HEADERS" :: (optionalText ++ [Token.mark '='])) :=
    settles_of_run rfl
  have comment₂ : Settles ("/// Type holding every response header element." ++ "\n") [] := settles_line_of_run rfl
  have head₂ : Settles "pub const RESPONSE_HEADERS: Option<&str> = "
      (.word "pub" :: .word "const" :: .word "RESPONSE_HEADERS" :: (optionalText ++ [Token.mark '='])) :=
    settles_of_run rfl
  have comment₃ : Settles ("/// Every operation, sorted by name." ++ "\n") [] := settles_line_of_run rfl
  have head₃ : Settles ("pub static OPERATIONS: &[OperationDef] = &[" ++ "\n")
      (.word "pub" :: .word "static" :: .word "OPERATIONS" ::
        (rowsOf "OperationDef" ++ [Token.mark '=', .mark '&', .mark '['])) := settles_line_of_run rfl
  have blank : Settles ("" ++ "\n") [] := settles_line_of_run rfl
  have lines₃ := comment₃.line (head₃.line settles_no_lines)
  have lines₂ := comment₂.line ((spellsResponse.constant head₂).line (blank.line lines₃))
  have lines₁ := comment₁.line ((spellsRequest.constant head₁).line (blank.line lines₂))
  refine ⟨request, response, _, readsRequest, stillRequest, readsResponse, stillResponse, Reads.list reads, ?_⟩
  refine (settles_table (declared "const" "REQUEST_HEADERS" optionalText request ++
    declared "const" "RESPONSE_HEADERS" optionalText response) (rowsOf "OperationDef") "OPERATIONS"
    (by simpa [declared] using lines₁) inside ?_).imp fun behind (h : _ ∧ Lacks [] behind) => h.1
  apply settles_of_lines
  simp only [List.forall_mem_cons, List.not_mem_nil, false_implies, implies_true, and_true]
  and_intros
  all_goals exact exists_line (by decide +kernel)

theorem lacks_declared {keyword name : String} {type ts : List Token} (h : Lacks names ts)
    (own : Lacks names (.word "pub" :: .word keyword :: .word name :: type)) :
    Lacks names (declared keyword name type ts) := by
  simp_all [Lacks, declared]

theorem Reads.found {before type ts : List Token} {c : Constant} {keyword name : String} (h : Reads ts c)
    (lacks : Lacks (name :: names) before) (kept : keyword = "static" ∨ keyword = "const") (unequal : .mark '=' ∉ type)
    (other : name ≠ "pub") (behind : List Token) :
    initializer? name (before ++ (declared keyword name type ts ++ behind)) = some c := by
  rw [initializer?_append (lacks.not_mem (List.mem_cons_self ..)) (by simp [declared, Ne.symm other])]
  exact initializer?_declared h kept unequal behind

/-- What the statics hold is read from the tokens of the whole module. -/
theorem initializer?_moduleText (a : Artifact) :
    ∀ s ∈ statics a, initializer? s.1 (tokens (moduleText a)) = some s.2 := by
  obtain ⟨top, settlesTop, stillTop⟩ := settles_declarations
  obtain ⟨types, readsTypes, stillTypes, lookup, settlesTypes, lacks⟩ := settles_typesText a
  obtain ⟨request, response, operations, readsRequest, stillRequest, readsResponse, stillResponse, readsOperations, rest,
    settlesOperations⟩ := settles_operationsText a
  have settled := (((settles_banner a).lines_append settlesTop).append settlesTypes).append settlesOperations
  have spelled := settled.tokens_append (enumerationsText a)
  -- In front of each static stand the ones before it.
  have lacks₂ : Lacks ["REQUEST_HEADERS", "RESPONSE_HEADERS", "OPERATIONS"]
      (top ++ (declared "static" "TYPES" (rowsOf "TypeDef") types ++ lookup)) :=
    lacks_append.2 ⟨stillTop.mono (by decide), lacks_append.2 ⟨lacks_declared (stillTypes.mono (by decide)) rfl, lacks⟩⟩
  have lacks₃ : Lacks ["RESPONSE_HEADERS", "OPERATIONS"]
      (top ++ (declared "static" "TYPES" (rowsOf "TypeDef") types ++ lookup) ++
        declared "const" "REQUEST_HEADERS" optionalText request) :=
    lacks_append.2 ⟨lacks₂.mono (by decide), lacks_declared (stillRequest.mono (by decide)) rfl⟩
  have lacks₄ : Lacks ["OPERATIONS"]
      (top ++ (declared "static" "TYPES" (rowsOf "TypeDef") types ++ lookup) ++
        declared "const" "REQUEST_HEADERS" optionalText request ++
        declared "const" "RESPONSE_HEADERS" optionalText response) :=
    lacks_append.2 ⟨lacks₃.mono (by decide), lacks_declared (stillResponse.mono (by decide)) rfl⟩
  have found₁ := readsTypes.found stillTop (.inl rfl) (by decide : .mark '=' ∉ rowsOf "TypeDef") (by decide)
  have found₂ := readsRequest.found lacks₂ (.inr rfl) (by decide : .mark '=' ∉ optionalText) (by decide)
  have found₃ := readsResponse.found lacks₃ (.inr rfl) (by decide : .mark '=' ∉ optionalText) (by decide)
  have found₄ := readsOperations.found lacks₄ (.inl rfl) (by decide : .mark '=' ∉ rowsOf "OperationDef") (by decide)
  simp only [List.append_assoc] at found₁ found₂ found₃ found₄
  simp only [statics, List.forall_mem_cons, List.not_mem_nil, false_implies, implies_true, and_true, moduleText, spelled,
    List.nil_append, List.append_assoc]
  exact ⟨found₁ _, found₂ _, found₃ _, found₄ _⟩

end Module

section Injective

theorem Constant.ofOption_injective : Function.Injective Constant.ofOption := by
  rintro (_ | s) (_ | s') same <;> simp_all [Constant.ofOption]

theorem Constant.ofTexts_injective : Function.Injective Constant.ofTexts := by
  intro l l' same
  have text : Function.Injective Constant.text := fun _ _ => Constant.text.inj
  exact List.map_injective_iff.2 text (Constant.list.inj same)

theorem constantOf?_optional (o : Option String) : constantOf? (optional o) = some (.ofOption o) := by
  cases o with
  | none => exact constantOf?_of_reads (reads_name "None") rfl
  | some s => exact constantOf?_of_reads ((reads_text s).call "Some") (settles_optional s).tokens_eq

theorem constantOf?_slice (l : List String) : constantOf? (slice l) = some (.ofTexts l) := by
  obtain ⟨ts, settles, reads, -⟩ := settles_slice l
  exact constantOf?_of_reads reads settles.tokens_eq

theorem optional_injective : Function.Injective optional := by
  intro o o' same
  have read := constantOf?_optional o
  rw [same, constantOf?_optional o'] at read
  exact Constant.ofOption_injective (Option.some.inj read).symm

theorem slice_injective : Function.Injective slice := by
  intro l l' same
  have read := constantOf?_slice l
  rw [same, constantOf?_slice l'] at read
  exact Constant.ofTexts_injective (Option.some.inj read).symm

end Injective

/-- The literal of any text stands on one line between its quotes; every quote inside is escaped, the last one is not,
and the literal has the value that it is made from.  Optional texts and slices of texts can be told apart by their
code, and the tables of every module hold the texts of its artifact. -/
theorem texts_read_back :
    (∀ s : String, ∃ body : String, literal s = "\"" ++ body ++ "\"" ∧
        (∀ c ∈ body.toList, isLineBreak c = false) ∧
        (∀ before behind : List Char, body.toList = before ++ '"' :: behind → isEscaped before = true) ∧
        isEscaped body.toList = false ∧ value? (literal s) = some s) ∧
      Function.Injective optional ∧ Function.Injective slice ∧
      ∀ a : Artifact, ∀ s ∈ statics a, initializer? s.1 (tokens (moduleText a)) = some s.2 := by
  refine ⟨fun s => ?_, optional_injective, slice_injective, initializer?_moduleText⟩
  have inside := staysOpen_flatMap_escaped s.toList
  refine ⟨String.ofList (s.toList.flatMap escaped), rfl, ?_, ?_, ?_, value?_literal s⟩
  · simp only [String.toList_ofList, List.forall_mem_flatMap]
    exact fun c _ d => isLineBreak_of_mem_escaped
  · intro before behind cut
    rw [String.toList_ofList] at cut
    exact isEscaped_of_quote inside cut
  · rw [String.toList_ofList]
    exact inside.not_isEscaped

def quotes : Artifact := ⟨[], [], some "\"\\\n\u0301", none, []⟩

theorem quotes_read_back :
    optional quotes.requestHeaders = "Some(\"\\\"\\\\\\n\\u\x7b301\x7d\")" ∧
      initializer? "REQUEST_HEADERS" (tokens (moduleText quotes)) = some (.ofOption quotes.requestHeaders) := by
  constructor
  · decide +kernel
  · exact texts_read_back.2.2.2 quotes ("REQUEST_HEADERS", .ofOption quotes.requestHeaders) (by simp [statics])

end SchemaGraph.Code
