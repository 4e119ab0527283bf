import SchemaGraph.Override.Reading
import SchemaGraph.Project.Config

/-! Three notations of names: Clark texts, names in the settings and names in override tables.  What a Clark text
says depends on its first closing brace alone, and the settings and the tables expand labels alike. -/
namespace SchemaGraph

namespace QName

variable {s uri name : String}

def Braced (s : String) : Prop := ∃ uri name, s = "\x7b" ++ uri ++ "\x7d" ++ name

theorem toList_braced (uri name : String) :
    ("\x7b" ++ uri ++ "\x7d" ++ name).toList = '{' :: (uri.toList ++ '}' :: name.toList) := by
  simp

theorem ofClark_braced (plain : '}' ∉ uri.toList) :
    ofClark ("\x7b" ++ uri ++ "\x7d" ++ name) = ⟨some uri, name⟩ := by
  unfold ofClark
  rw [toList_braced]
  simp only [Text.cut_append plain, String.ofList_toList]

theorem exists_first_brace (closes : '}' ∈ uri.toList) :
    ∃ first rest, uri = first ++ "\x7d" ++ rest ∧ '}' ∉ first.toList := by
  cases found : Text.cutString '}' uri with
  | none => exact absurd closes (Text.cutString_eq_none_iff.1 found)
  | some p =>
    obtain ⟨whole, plain⟩ := Text.cutString_eq_some_iff.1 found
    refine ⟨p.1, p.2, ?_, plain⟩
    apply String.toList_inj.1
    simp [whole]

theorem ofClark_bare (bare : ¬ Braced s) : ofClark s = ⟨none, s⟩ := by
  unfold ofClark
  split
  · next rest opens =>
    cases found : Text.cut '}' rest with
    | none => rfl
    | some p =>
      obtain ⟨whole, -⟩ := Text.cut_eq_some_iff.1 found
      refine absurd ⟨String.ofList p.1, String.ofList p.2, ?_⟩ bare
      apply String.toList_inj.1
      simp [opens, whole]
  · rfl

theorem ofClark_clark_of_uri (uri name : String) :
    ofClark (⟨some uri, name⟩ : QName).clark = ⟨some uri, name⟩ ↔ '}' ∉ uri.toList := by
  constructor
  · intro same closes
    obtain ⟨first, rest, rfl, plain⟩ := exists_first_brace closes
    have read : ofClark (⟨some (first ++ "\x7d" ++ rest), name⟩ : QName).clark =
        ⟨some first, rest ++ "\x7d" ++ name⟩ := by
      simp only [clark]
      rw [← ofClark_braced plain]
      simp only [String.append_assoc]
    rw [read] at same
    have lengths := congrArg (fun q : QName => q.uri.map String.length) same
    have brace : "\x7d".length = 1 := rfl
    simp only [Option.map_some, Option.some.injEq, String.length_append] at lengths
    omega
  · exact ofClark_braced

theorem ofClark_clark_of_bare (name : String) :
    ofClark (⟨none, name⟩ : QName).clark = ⟨none, name⟩ ↔ ¬ Braced name := by
  constructor
  · rintro same ⟨uri, rest, rfl⟩
    simp only [clark] at same
    by_cases closes : '}' ∈ uri.toList
    · obtain ⟨first, later, rfl, plain⟩ := exists_first_brace closes
      have read : ofClark ("\x7b" ++ first ++ "\x7d" ++ (later ++ "\x7d" ++ rest)) =
          ⟨some first, later ++ "\x7d" ++ rest⟩ := ofClark_braced plain
      simp only [← String.append_assoc] at read same
      rw [read] at same
      cases same
    · rw [ofClark_braced closes] at same
      cases same
  · exact ofClark_bare

end QName

inductive Expansion (labels : OrderedMap String String) (name : String) :
    Except ConfigError QName → Except OverrideError String → Prop
  /-- The table has the key of the name in the settings. -/
  | name (q : QName) : Expansion labels name (.ok q) (.ok q.clark)
  | unknown (label localName : String) : name = label ++ ":" ++ localName → ':' ∉ label.toList →
    labels.get? label = none →
    Expansion labels name (.error (.unknownLabel name)) (.error (.unknownLabel label name))

theorem qualify_expansion (c : Config) (name : String) :
    Expansion c.namespaces name (c.qualify name) (expandLabel c.namespaces name) := by
  unfold Config.qualify expandLabel
  by_cases braced : name.startsWith "\x7b"
  · simp only [braced, if_true]
    have expanded : Expansion c.namespaces name (.ok (QName.ofClark name)) (.ok (QName.ofClark name).clark) :=
      .name _
    rwa [QName.clark_ofClark] at expanded
  · simp only [braced, if_false, Bool.false_eq_true]
    cases found : Text.cutString ':' name with
    | none => exact .name ⟨none, name⟩
    | some p =>
      obtain ⟨label, localName⟩ := p
      dsimp only
      cases bound : c.namespaces.get? label with
      | some uri => exact .name ⟨some uri, localName⟩
      | none =>
        obtain ⟨whole, first⟩ := Text.cutString_eq_some_iff.1 found
        refine .unknown label localName ?_ first bound
        apply String.toList_inj.1
        simp [whole]

/-- Every text is the Clark text of the name that is read from it.  A name is read back from its Clark text just when
its namespace has no closing brace or, if it has none, it does not look like a name with a namespace.  A name that
is written alike in the settings and in an override table with the same labels stands for the same key, or its
label is unknown in both. -/
theorem notations_agree :
    (∀ s : String, (QName.ofClark s).clark = s) ∧
      (∀ q : QName, QName.ofClark q.clark = q ↔
        (∃ uri, q.uri = some uri ∧ '}' ∉ uri.toList) ∨
          q.uri = none ∧ ¬ ∃ uri name, q.localName = "\x7b" ++ uri ++ "\x7d" ++ name) ∧
      ∀ (c : Config) (t : WrittenTable) (name : String),
        Expansion c.namespaces name (c.qualify name) ({ t with namespaces := c.namespaces }.expand name) := by
  refine ⟨QName.clark_ofClark, ?_, fun c _ name => qualify_expansion c name⟩
  rintro ⟨uri, name⟩
  cases uri with
  | none =>
    rw [QName.ofClark_clark_of_bare]
    simp [QName.Braced]
  | some uri =>
    rw [QName.ofClark_clark_of_uri]
    simp

end SchemaGraph
