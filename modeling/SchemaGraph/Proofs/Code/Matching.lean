import SchemaGraph.Proofs.Code.Constants

/-! The functions between the variants of an enumeration and its literals, as their code is read.  The cases of a match
are tried in their order, and the first one that covers the value decides; a literal that is repeated has a case that
is never reached.  `inverse_just_without_repeats`: just then a variant is not parsed back from its literal. -/
namespace SchemaGraph.Code

def cases? : Nat → List Token → Option (List (Constant × Constant) × List Token)
  | _, .mark '}' :: r => some ([], r)
  | n + 1, l =>
    match constant? n l with
    | some (pattern, .mark '=' :: .mark '>' :: l) =>
      match constant? n l with
      | some (result, .mark ',' :: r) => (cases? n r).map fun (cases, r) => ((pattern, result) :: cases, r)
      | _ => none
    | _ => none
  | 0, _ => none

/-- The cases of a match that stands alone. -/
def casesOf? (s : String) : Option (List (Constant × Constant)) :=
  match tokens s with
  | .word "match" :: .word _ :: .mark '{' :: l =>
    match cases? l.length l with
    | some (cases, []) => some cases
    | _ => none
  | _ => none

def Constant.covers : Constant → Constant → Bool
  | .name p, .name q => p == "_" || p == q
  | .name p, _ => p == "_"
  | .text s, .text s' => s == s'
  | _, _ => false

/-- The first case that covers a value decides. -/
def select? (cases : List (Constant × Constant)) (value : Constant) : Option Constant :=
  (cases.find? (·.1.covers value)).map (·.2)

section Cases

def ReadsCases (ts : List Token) (cases : List (Constant × Constant)) : Prop :=
  ∀ n r, ts.length < n → cases? n (ts ++ Token.mark '}' :: r) = some (cases, r)

variable {ts : List Token} {cases : List (Constant × Constant)}

theorem readsCases_nil : ReadsCases [] [] := by
  intro n r _
  cases n <;> simp [cases?]

theorem ne_brace_of_constant {n : Nat} {l r : List Token} {p : Constant × List Token} (h : constant? n l = some p) :
    l ≠ .mark '}' :: r := by
  rintro rfl
  cases n <;> simp [constant?] at h

theorem Reads.case {pattern result : List Token} {c d : Constant} (h : Reads pattern c) (h' : Reads result d)
    (others : ReadsCases ts cases) :
    ReadsCases (pattern ++ Token.mark '=' :: .mark '>' :: (result ++ Token.mark ',' :: ts)) ((c, d) :: cases) := by
  intro n r fuel
  simp only [List.length_append, List.length_cons] at fuel
  cases n with
  | zero => omega
  | succ n =>
    have first := h n (.mark '=' :: .mark '>' :: (result ++ Token.mark ',' :: (ts ++ Token.mark '}' :: r))) (by omega)
      (by simp [Ends])
    have second := h' n (.mark ',' :: (ts ++ Token.mark '}' :: r)) (by omega) (by simp [Ends])
    simp only [List.append_assoc, List.cons_append]
    rw [cases?, first]
    · simp only [second, others n r (by omega), Option.map_some]
    · exact fun _ => ne_brace_of_constant first

def WritesCase (l : String) (c : Constant × Constant) : Prop :=
  ∃ pattern result, Settles (l ++ "\n") (pattern ++ Token.mark '=' :: .mark '>' :: (result ++ [Token.mark ','])) ∧
    Reads pattern c.1 ∧ Reads result c.2

theorem settles_cases {α : Type} {f : α → String} {g : α → Constant × Constant} {l : List α} {ls : List String}
    (h : ∀ a ∈ l, WritesCase (f a) (g a)) (h' : ∃ ts, Settles (lines ls) ts ∧ ReadsCases ts cases) :
    ∃ ts, Settles (lines (l.map f ++ ls)) ts ∧ ReadsCases ts (l.map g ++ cases) := by
  induction l with
  | nil => exact h'
  | cons a l ih =>
    rw [List.forall_mem_cons] at h
    obtain ⟨pattern, result, line, reads, reads'⟩ := h.1
    obtain ⟨ts, rest, others⟩ := ih h.2
    refine ⟨_, ?_, reads.case reads' others⟩
    simpa using line.line rest

theorem casesOf?_lines {head : String} {ls : List String} {w : String}
    (opened : Settles (head ++ "\n") [.word "match", .word w, .mark '{'])
    (h : ∃ ts, Settles (lines ls) ts ∧ ReadsCases ts cases) :
    casesOf? (lines (head :: ls ++ ["        \x7d"])) = some cases := by
  obtain ⟨ts, inside, reads⟩ := h
  have closed : Settles ("        \x7d" ++ "\n") [.mark '}'] := settles_line_of_run rfl
  have spelled := ((opened.line inside).lines_append (closed.line settles_no_lines)).tokens_eq
  have read := reads (ts ++ [Token.mark '}']).length [] (by simp)
  simp only [List.cons_append, List.nil_append] at spelled
  simp only [casesOf?, List.cons_append, spelled, read]

end Cases

namespace Enumeration

def literalMatch (e : Enumeration) : String :=
  lines ("        match self \x7b" :: e.variants.map literalCase ++ ["        \x7d"])

def variantMatch (e : Enumeration) : String :=
  lines ("        match value \x7b" :: (e.variants.map variantCase ++ ["            _ => None,"]) ++ ["        \x7d"])

theorem exists_matches (e : Enumeration) :
    ∃ before between behind, e.text = before ++ e.literalMatch ++ between ++ e.variantMatch ++ behind := by
  refine ⟨lines (["/// Values of `" ++ e.schemaName ++ "`.", "#[derive(Debug, Clone, Copy, PartialEq, Eq, Hash)]",
      "pub enum " ++ e.name ++ " \x7b"] ++ e.variants.flatMap variantLines ++
      ["\x7d", "", "impl " ++ e.name ++ " \x7b", "    /// Returns the schema literal.", "    #[must_use]",
        "    pub const fn as_str(self) -> &'static str \x7b"]),
    lines ["    \x7d", "", "    /// Parses a schema literal.", "    #[must_use]",
      "    pub fn parse(value: &str) -> Option<Self> \x7b"],
    lines ["    \x7d", "\x7d", ""], ?_⟩
  unfold text literalMatch variantMatch
  simp only [← lines_append]
  simp

def variantName (v : String) : Constant := .name ("Self::" ++ v)

def ofVariant : Option String → Constant
  | some v => .call "Some" (variantName v)
  | none => .name "None"

theorem spells_variant {v : String} (valid : IsIdentifier v) : Spells v [.word v] := by
  obtain ⟨⟨c, r, name, upper, letters⟩, -⟩ := valid
  apply spells_word
  · rintro rfl
    cases name
  · rw [name, List.all_eq_true, List.forall_mem_cons]
    refine ⟨by simp [isWordChar, isAlphanum_of_isUpper upper], fun d hd => ?_⟩
    simpa [isWordChar] using letters d hd

theorem reads_variantName (v : String) : Reads [.word "Self", .mark ':', .mark ':', .word v] (variantName v) :=
  reads_qualified "Self" v

theorem writesCase_literalCase {v : String × String} (valid : IsIdentifier v.1) :
    WritesCase (literalCase v) (variantName v.1, .text v.2) := by
  have opened : Settles "            Self::" [.word "Self", .mark ':', .mark ':'] := settles_of_run rfl
  have arrow : Settles " => " [.mark '=', .mark '>'] := settles_of_run rfl
  have comma : Settles ",\n" [.mark ','] := settles_of_run rfl
  have line : literalCase v ++ "\n" = "            Self::" ++ v.1 ++ " => " ++ literal v.2 ++ ",\n" := by
    delta literalCase
    simp [String.append_assoc]
  refine ⟨_, _, ?_, reads_variantName v.1, reads_text v.2⟩
  rw [line]
  exact (((opened.append_spells (spells_variant valid)).append arrow rfl).append (settles_literal v.2)).append comma

theorem writesCase_variantCase {v : String × String} (valid : IsIdentifier v.1) :
    WritesCase (variantCase v) (.text v.2, .call "Some" (variantName v.1)) := by
  have margin : Settles "            " [] := settles_of_run rfl
  have opened : Settles " => Some(Self::"
    [.mark '=', .mark '>', .word "Some", .mark '(', .word "Self", .mark ':', .mark ':'] := settles_of_run rfl
  have closed : Settles "),\n" [.mark ')', .mark ','] := settles_of_run rfl
  have line : variantCase v ++ "\n" = "            " ++ literal v.2 ++ " => Some(Self::" ++ v.1 ++ "),\n" := by
    delta variantCase
    simp [String.append_assoc]
  refine ⟨_, _, ?_, reads_text v.2, (reads_variantName v.1).call "Some"⟩
  rw [line]
  exact (((margin.append (settles_literal v.2)).append opened).append_spells (spells_variant valid)).append closed rfl

variable {e : Enumeration}

theorem casesOf?_literalMatch (valid : ∀ v ∈ e.variants, IsIdentifier v.1) :
    casesOf? e.literalMatch = some (e.variants.map fun v => (variantName v.1, .text v.2)) := by
  have cases := settles_cases (fun v hv => writesCase_literalCase (valid v hv)) ⟨[], settles_no_lines, readsCases_nil⟩
  rw [List.append_nil, List.append_nil] at cases
  exact casesOf?_lines (settles_line_of_run rfl : Settles _ [.word "match", .word "self", .mark '{']) cases

theorem casesOf?_variantMatch (valid : ∀ v ∈ e.variants, IsIdentifier v.1) :
    casesOf? e.variantMatch =
      some (e.variants.map (fun v => (Constant.text v.2, Constant.call "Some" (variantName v.1))) ++
        [(Constant.name "_", Constant.name "None")]) := by
  have none : ∃ ts, Settles (lines ["            _ => None,"]) ts ∧ ReadsCases ts [(.name "_", .name "None")] := by
    have line : Settles ("            _ => None," ++ "\n") [.word "_", .mark '=', .mark '>', .word "None", .mark ','] :=
      settles_line_of_run rfl
    refine ⟨_, line.line settles_no_lines, ?_⟩
    exact (reads_name "_").case (reads_name "None") readsCases_nil
  have cases := settles_cases (fun v hv => writesCase_variantCase (valid v hv)) none
  exact casesOf?_lines (settles_line_of_run rfl : Settles _ [.word "match", .word "value", .mark '{']) cases

def asText? (e : Enumeration) (v : String) : Option Constant :=
  (casesOf? e.literalMatch).bind (select? · (variantName v))

def parse? (e : Enumeration) (s : String) : Option Constant :=
  (casesOf? e.variantMatch).bind (select? · (.text s))

theorem covers_variantName (v w : String) : (variantName v).covers (variantName w) = (v == w) := by
  have other : ("Self::" ++ v == "_") = false := by
    rw [beq_eq_false_iff_ne]
    intro same
    simpa using congrArg String.toList same
  have inner : ("Self::" ++ v == "Self::" ++ w) = (v == w) := by
    rw [Bool.eq_iff_iff, beq_iff_eq, beq_iff_eq, String.append_right_inj]
  rw [variantName, variantName, Constant.covers, other, inner, Bool.false_or]

theorem asText?_eq (valid : ∀ v ∈ e.variants, IsIdentifier v.1) (v : String) :
    e.asText? v = (e.literal? v).map .text := by
  rw [asText?, casesOf?_literalMatch valid, Option.bind_some, literal?]
  induction e.variants with
  | nil => rfl
  | cons w l ih =>
    rw [select?] at ih ⊢
    rw [List.map_cons, List.find?_cons, covers_variantName, List.lookup_cons, Bool.beq_comm]
    cases v == w.1 with
    | true => rfl
    | false => exact ih

theorem parse?_eq (valid : ∀ v ∈ e.variants, IsIdentifier v.1) (s : String) :
    e.parse? s = some (ofVariant (e.variant? s)) := by
  rw [parse?, casesOf?_variantMatch valid, Option.bind_some, select?, variant?, List.find?_append, List.find?_map]
  have covers : ((·.1.covers (.text s)) ∘ fun v : String × String =>
      (Constant.text v.2, Constant.call "Some" (variantName v.1))) = (·.2 == s) := rfl
  rw [covers]
  cases e.variants.find? (·.2 == s) <;> rfl

theorem ofVariant_injective : Function.Injective ofVariant := by
  rintro (_ | v) (_ | v') same
  all_goals simp_all [ofVariant, variantName]

section Laws

variable {v s : String}

theorem literal?_eq_some_iff (distinct : (e.variants.map (·.1)).Nodup) :
    e.literal? v = some s ↔ (v, s) ∈ e.variants := by
  rw [literal?, List.lookup_eq_some_iff]
  constructor
  · rintro ⟨before, behind, cut, -⟩
    simp [cut]
  · intro mem
    obtain ⟨before, behind, cut⟩ := List.append_of_mem mem
    refine ⟨before, behind, cut, fun w hw => ?_⟩
    rw [cut, List.map_append, List.map_cons, List.nodup_append] at distinct
    rw [bne_iff_ne]
    exact (distinct.2.2 w.1 (List.mem_map_of_mem hw) v (List.mem_cons_self ..)).symm

theorem variant?_eq_some_iff :
    e.variant? s = some v ↔ ∃ before behind, e.variants = before ++ (v, s) :: behind ∧ ∀ w ∈ before, w.2 ≠ s := by
  simp only [variant?, Option.map_eq_some_iff, List.find?_eq_some_iff_append, Bool.not_eq_true', beq_eq_false_iff_ne]
  constructor
  · rintro ⟨⟨w, t⟩, ⟨same, before, behind, cut, others⟩, rfl⟩
    obtain rfl : t = s := by simpa using same
    exact ⟨before, behind, cut, others⟩
  · rintro ⟨before, behind, cut, others⟩
    exact ⟨(v, s), ⟨by simp, before, behind, cut, others⟩, rfl⟩

theorem variant?_eq_none_iff : e.variant? s = none ↔ s ∉ e.variants.map (·.2) := by
  simp only [variant?, Option.map_eq_none_iff, List.find?_eq_none, beq_iff_eq, List.mem_map, not_exists, not_and]

theorem variant?_at_iff (distinct : (e.variants.map (·.1)).Nodup) {before behind : List (String × String)}
    (cut : e.variants = before ++ (v, s) :: behind) : e.variant? s = some v ↔ s ∉ before.map (·.2) := by
  constructor
  · intro parsed here
    obtain ⟨w, hw, same⟩ := List.mem_map.1 here
    cases found : before.find? (·.2 == s) with
    | none => exact List.find?_eq_none.1 found w hw (by simpa using same)
    | some u =>
      have first : e.variant? s = some u.1 := by
        rw [variant?, cut, List.find?_append, found]
        rfl
      have name : u.1 = v := Option.some.inj (first.symm.trans parsed)
      rw [cut, List.map_append, List.map_cons, List.nodup_append] at distinct
      exact distinct.2.2 u.1 (List.mem_map_of_mem (List.mem_of_find?_eq_some found)) v (List.mem_cons_self ..) name
  · intro new
    exact variant?_eq_some_iff.2 ⟨before, behind, cut, fun w hw same => new (List.mem_map.2 ⟨w, hw, same⟩)⟩

theorem forall_variant?_iff (distinct : (e.variants.map (·.1)).Nodup) :
    (∀ v ∈ e.variants, e.variant? v.2 = some v.1) ↔ (e.variants.map (·.2)).Nodup := by
  rw [List.nodup_map_iff_inj_on (distinct.of_map _)]
  constructor
  · intro back v hv w hw same
    have names : v.1 = w.1 := Option.some.inj ((back v hv).symm.trans (same ▸ back w hw))
    exact Prod.ext names same
  · intro apart v hv
    cases found : e.variants.find? (·.2 == v.2) with
    | none => exact absurd (List.find?_eq_none.1 found v hv) (by simp)
    | some w =>
      have literal : w.2 = v.2 := by simpa using List.find?_some found
      rw [variant?, found, apart w (List.mem_of_find?_eq_some found) v hv literal]
      rfl

end Laws

/-- How the functions of an enumeration go together, as their code is read; `literals` are those of its type. -/
structure Matched (e : Enumeration) (literals : List String) : Prop where
  /-- Both matches stand in the code. -/
  inCode : ∃ before between behind, e.text = before ++ e.literalMatch ++ between ++ e.variantMatch ++ behind
  /-- There is a variant for each literal, under a name of its own. -/
  literals_eq : e.variants.map (·.2) = literals
  distinct : (e.variants.map (·.1)).Nodup
  /-- Each variant is given its literal. -/
  asText_iff : ∀ v s, e.asText? v = some (.text s) ↔ (v, s) ∈ e.variants
  /-- What a text is parsed to has that text as its literal. -/
  asText_of_parse : ∀ v s, e.parse? s = some (ofVariant (some v)) → e.asText? v = some (.text s)
  /-- Just the texts that are no literals are parsed to nothing. -/
  parse_none_iff : ∀ s, e.parse? s = some (ofVariant none) ↔ s ∉ literals
  /-- A variant is parsed back just if no variant before it has its literal. -/
  parse_at_iff : ∀ (before behind : List (String × String)) (v s : String), e.variants = before ++ (v, s) :: behind →
    (e.parse? s = some (ofVariant (some v)) ↔ s ∉ before.map (·.2))
  /-- All variants are parsed back just if no literal is repeated. -/
  parse_all_iff : (∀ v ∈ e.variants, e.parse? v.2 = some (ofVariant (some v.1))) ↔ literals.Nodup

theorem matched_of_distinct (valid : ∀ v ∈ e.variants, IsIdentifier v.1) (distinct : (e.variants.map (·.1)).Nodup) :
    e.Matched (e.variants.map (·.2)) := by
  have text (v s : String) : e.asText? v = some (.text s) ↔ (v, s) ∈ e.variants := by
    rw [asText?_eq valid, ← literal?_eq_some_iff distinct]
    simp
  have parsed (s : String) (o : Option String) : e.parse? s = some (ofVariant o) ↔ e.variant? s = o := by
    rw [parse?_eq valid, Option.some.injEq, ofVariant_injective.eq_iff]
  refine ⟨e.exists_matches, rfl, distinct, text, ?back, ?nothing, ?place, ?all⟩
  case back =>
    intro v s back
    rw [parsed, variant?_eq_some_iff] at back
    obtain ⟨before, behind, cut, -⟩ := back
    exact (text v s).2 (by simp [cut])
  case nothing =>
    intro s
    rw [parsed, variant?_eq_none_iff]
  case place =>
    intro before behind v s cut
    rw [parsed, variant?_at_iff distinct cut]
  case all =>
    simp only [parsed]
    exact forall_variant?_iff distinct

end Enumeration

open Enumeration (ofVariant)

/-- In every enumeration, as its code is read, each variant has its literal, what a text is parsed to has that text as
its literal, and just the texts that are no literals are parsed to nothing.  All variants are parsed back from their
literals just if the literals of the type are not repeated: of equal ones the first is parsed, the others are never
reached. -/
theorem inverse_just_without_repeats (a : Artifact) (e : Enumeration) (he : e ∈ enumerations a) :
    ∃ t ∈ a.types, isEnumeration t = true ∧ e.schemaName = t.name ∧ e.Matched t.enumValues := by
  obtain ⟨t, ht, enumeration, made⟩ := exists_row_of_mem he
  obtain ⟨literals, valid⟩ := literals_ofLiterals t.name e.name t.enumValues
  have allots := allots_variantNames t.enumValues
  have names : e.variants.map (·.1) = Enumeration.variantNames t.enumValues := by
    rw [made]
    exact List.map_fst_zip (Nat.le_of_eq allots.length_eq)
  have distinct : (e.variants.map (·.1)).Nodup := by
    rw [names]
    exact allots.nodup fun _ _ _ => FirstFree.not_mem
  rw [← made] at literals valid
  refine ⟨t, ht, enumeration, congrArg Enumeration.schemaName made, ?_⟩
  rw [← literals]
  exact e.matched_of_distinct valid distinct

def hues : Artifact := ⟨[enumerationRow "t:Hue" ["red", "blue", "red"]], [], none, none, []⟩

theorem hues_matched :
    ∃ e ∈ enumerations hues, e.variants = [("Red", "red"), ("Blue", "blue"), ("Red2", "red")] ∧
      e.asText? "Red2" = some (.text "red") ∧ e.parse? "red" = some (ofVariant (some "Red")) ∧
      e.parse? "Red" = some (ofVariant none) ∧
      ¬ ∀ v ∈ e.variants, e.parse? v.2 = some (ofVariant (some v.1)) := by
  have he : ⟨"t:Hue", "Hue", [("Red", "red"), ("Blue", "blue"), ("Red2", "red")]⟩ ∈ enumerations hues := by
    decide +kernel
  obtain ⟨t, ht, -, -, matched⟩ := inverse_just_without_repeats hues _ he
  refine ⟨_, he, rfl, (matched.asText_iff _ _).2 (by simp), (matched.parse_at_iff [] _ _ _ rfl).2 (by simp),
    (matched.parse_none_iff _).2 ?_, ?_⟩
  · rw [← matched.literals_eq]
    decide
  · rw [matched.parse_all_iff, ← matched.literals_eq]
    decide

end SchemaGraph.Code
