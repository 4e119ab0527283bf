import SchemaGraph.Proofs.Artifact.Bisection
import SchemaGraph.Proofs.Outcome
import SchemaGraph.Project.Build

/-! When two types are emitted under one name.  The XML Schema namespace keeps its label unless the settings give it
another one, so that the label can come to stand for two namespaces.  Other names only come together by colons and
braces that names of XML do not have. -/
namespace SchemaGraph

section Labels

def lastLabel? (pairs : List (String × String)) (uri : String) : Option String :=
  (pairs.reverse.find? (·.2 == uri)).map (·.1)

theorem mem_of_lastLabel? {pairs : List (String × String)} {uri label : String}
    (h : lastLabel? pairs uri = some label) : (label, uri) ∈ pairs := by
  obtain ⟨⟨label', uri'⟩, found, rfl⟩ := Option.map_eq_some_iff.1 h
  obtain rfl : uri' = uri := by simpa using List.find?_some found
  exact List.mem_reverse.1 (List.mem_of_find?_eq_some found)

theorem lastLabel?_eq_none_iff {pairs : List (String × String)} {uri : String} :
    lastLabel? pairs uri = none ↔ uri ∉ pairs.map (·.2) := by
  simp only [lastLabel?, Option.map_eq_none_iff, List.find?_eq_none, List.mem_reverse, beq_iff_eq, List.mem_map, not_exists,
    not_and]

namespace Labels

theorem label?_bind (l : Labels) (label uri uri' : String) :
    (l.bind label uri).label? uri' = if uri' = uri then some label else l.label? uri' :=
  OrderedMap.get?_insert l.labels uri uri' label

theorem label?_standard (uri : String) : standard.label? uri = if uri = QName.xsdUri then some "xs" else none :=
  OrderedMap.get?_insert ∅ QName.xsdUri uri "xs"

theorem label?_foldl_bind (pairs : List (String × String)) (l : Labels) (uri : String) :
    (pairs.foldl (fun l (label, uri) => l.bind label uri) l).label? uri =
      (lastLabel? pairs uri).or (l.label? uri) := by
  induction pairs generalizing l with
  | nil => rfl
  | cons p pairs ih =>
    rw [List.foldl_cons, ih, label?_bind]
    unfold lastLabel?
    rw [List.reverse_cons, List.find?_append, Option.map_or, Option.or_assoc]
    congr 1
    by_cases same : uri = p.2
    · simp [same]
    · simp [same, Ne.symm same]

theorem label?_ofList (pairs : List (String × String)) (uri : String) :
    (ofList pairs).label? uri = (lastLabel? pairs uri).or (if uri = QName.xsdUri then some "xs" else none) := by
  rw [ofList, label?_foldl_bind, label?_standard]

end Labels

end Labels

/-- The settings give the label of the XML Schema namespace to another namespace and leave the former without a
label of its own: two names that differ in nothing but these namespaces. -/
inductive TakenOver (c : Config) : QName → QName → Prop
  | intro {uri : String} (localName : String) : uri ≠ QName.xsdUri →
    lastLabel? c.namespaces.entries uri = some "xs" → QName.xsdUri ∉ c.namespaces.values →
    TakenOver c ⟨some QName.xsdUri, localName⟩ ⟨some uri, localName⟩

inductive Clash (c : Config) : QName → QName → Prop
  | takenOver {q q' : QName} : TakenOver c q q' → Clash c q q'
  /-- One label is the other one continued by a colon and more. -/
  | longer {uri uri' label : String} (rest localName : String) : c.labels.label? uri = some label →
    c.labels.label? uri' = some (label ++ ":" ++ rest) →
    Clash c ⟨some uri, rest ++ ":" ++ localName⟩ ⟨some uri', localName⟩
  /-- A name without a namespace begins with a label. -/
  | bare {uri label : String} (localName : String) : c.labels.label? uri = some label →
    Clash c ⟨none, label ++ ":" ++ localName⟩ ⟨some uri, localName⟩
  /-- A label looks like the beginning of a namespace in braces. -/
  | braced {uri uri' label localName localName' : String} : c.labels.label? uri = none →
    c.labels.label? uri' = some label →
    "\x7b" ++ uri ++ "\x7d" ++ localName = label ++ ":" ++ localName' →
    Clash c ⟨some uri, localName⟩ ⟨some uri', localName'⟩

theorem eq_or_longer_of_colons {label label' name name' : String} (h : label ++ ":" ++ name = label' ++ ":" ++ name') :
    (label = label' ∧ name = name') ∨
      (∃ rest, label' = label ++ ":" ++ rest ∧ name = rest ++ ":" ++ name') ∨
      ∃ rest, label = label' ++ ":" ++ rest ∧ name' = rest ++ ":" ++ name := by
  have longer {l l' n n' : String} {more : List Char} (whole : l'.toList = l.toList ++ more)
      (behind : ':' :: n.toList = more ++ ':' :: n'.toList) :
      l = l' ∧ n = n' ∨ ∃ rest, l' = l ++ ":" ++ rest ∧ n = rest ++ ":" ++ n' := by
    cases more with
    | nil =>
      rw [List.append_nil, String.toList_inj] at whole
      rw [List.nil_append, List.cons.injEq, String.toList_inj] at behind
      exact .inl ⟨whole.symm, behind.2⟩
    | cons c more =>
      obtain ⟨rfl, behind'⟩ := List.cons.inj behind
      refine .inr ⟨String.ofList more, ?_, ?_⟩
      · apply String.toList_inj.1
        simp [whole]
      · apply String.toList_inj.1
        simpa using behind'
  have chars := congrArg String.toList h
  simp only [String.toList_append, List.append_assoc] at chars
  rcases List.append_eq_append_iff.1 chars with ⟨more, whole, behind⟩ | ⟨more, whole, behind⟩
  · rcases longer whole behind with same | longer
    · exact .inl same
    · exact .inr (.inl longer)
  · rcases longer whole behind with same | longer
    · exact .inl ⟨same.1.symm, same.2.symm⟩
    · exact .inr (.inr longer)

namespace Config

variable {c : Config} {q q' : QName}

theorem label?_labels (uri : String) :
    c.labels.label? uri =
      (lastLabel? c.namespaces.entries uri).or (if uri = QName.xsdUri then some "xs" else none) :=
  Labels.label?_ofList _ uri

theorem takenOver_of_label? {uri uri' label : String} (other : uri ≠ uri') (h : c.labels.label? uri = some label)
    (h' : c.labels.label? uri' = some label) (localName : String) :
    TakenOver c ⟨some uri, localName⟩ ⟨some uri', localName⟩ ∨
      TakenOver c ⟨some uri', localName⟩ ⟨some uri, localName⟩ := by
  rw [label?_labels, Option.or_eq_some_iff] at h h'
  have seeded {uri uri' : String} (other : uri ≠ uri') (none : lastLabel? c.namespaces.entries uri = none)
      (seed : (if uri = QName.xsdUri then some "xs" else Option.none) = some label)
      (given : lastLabel? c.namespaces.entries uri' = some label) :
      TakenOver c ⟨some uri, localName⟩ ⟨some uri', localName⟩ := by
    split at seed
    · next xsd =>
      cases seed
      subst xsd
      exact .intro localName other.symm given (lastLabel?_eq_none_iff.1 none)
    · cases seed
  rcases h with given | ⟨none, seed⟩
  · rcases h' with given' | ⟨none', seed'⟩
    · -- The labels of the settings are the keys of a map.
      have first := (OrderedMap.mem_entries_iff c.namespaces label uri).1 (mem_of_lastLabel? given)
      have second := (OrderedMap.mem_entries_iff c.namespaces label uri').1 (mem_of_lastLabel? given')
      exact absurd (Option.some.inj (first.symm.trans second)) other
    · exact .inr (seeded other.symm none' seed' given)
  · rcases h' with given' | ⟨none', seed'⟩
    · exact .inl (seeded other none seed given')
    · split at seed
      · next xsd =>
        split at seed'
        · next xsd' => exact absurd (xsd.trans xsd'.symm) other
        · cases seed'
      · cases seed

theorem shorten_of_clash (h : Clash c q q') : c.labels.shorten q = c.labels.shorten q' := by
  cases h with
  | takenOver taken =>
    obtain @⟨uri, localName, other, given, absent⟩ := taken
    have seeded : c.labels.label? QName.xsdUri = some "xs" := by
      rw [label?_labels, lastLabel?_eq_none_iff.2 absent]
      simp
    have taken : c.labels.label? uri = some "xs" := by
      rw [label?_labels, given]
      rfl
    simp [Labels.shorten, seeded, taken]
  | longer rest localName first second =>
    simp [Labels.shorten, first, second, String.append_assoc]
  | bare localName labelled => simp [Labels.shorten, labelled]
  | braced unlabelled labelled same => simp [Labels.shorten, unlabelled, labelled, QName.clark, same]

theorem shorten_cases (c : Config) (q : QName) :
    (c.labels.shorten q = q.clark ∧ ∀ uri, q.uri = some uri → c.labels.label? uri = none) ∨
      ∃ uri label, q.uri = some uri ∧ c.labels.label? uri = some label ∧
        c.labels.shorten q = label ++ ":" ++ q.localName := by
  obtain ⟨uri, localName⟩ := q
  cases uri with
  | none => exact .inl ⟨rfl, nofun⟩
  | some uri =>
    cases found : c.labels.label? uri with
    | some label => exact .inr ⟨uri, label, rfl, found, by simp [Labels.shorten, found]⟩
    | none =>
      refine .inl ⟨by simp [Labels.shorten, found], fun uri' same => ?_⟩
      cases same
      exact found

theorem clash_of_clark {uri label : String} (unlabelled : ∀ uri, q.uri = some uri → c.labels.label? uri = none)
    (inside : q'.uri = some uri) (labelled : c.labels.label? uri = some label)
    (h : q.clark = label ++ ":" ++ q'.localName) : Clash c q q' := by
  obtain ⟨first, localName⟩ := q
  obtain ⟨second, localName'⟩ := q'
  cases inside
  cases first with
  | none =>
    cases h
    exact .bare localName' labelled
  | some uri' => exact .braced (unlabelled uri' rfl) labelled h

theorem clash_of_shorten (keys : q.clark ≠ q'.clark) (h : c.labels.shorten q = c.labels.shorten q') :
    Clash c q q' ∨ Clash c q' q := by
  rcases c.shorten_cases q with ⟨whole, unlabelled⟩ | ⟨uri, label, inside, labelled, short⟩
  · rcases c.shorten_cases q' with ⟨whole', -⟩ | ⟨uri', label', inside', labelled', short'⟩
    · exact absurd (whole.symm.trans (h.trans whole')) keys
    · exact .inl (clash_of_clark unlabelled inside' labelled' (whole.symm.trans (h.trans short')))
  · rcases c.shorten_cases q' with ⟨whole', unlabelled'⟩ | ⟨uri', label', inside', labelled', short'⟩
    · exact .inr (clash_of_clark unlabelled' inside labelled (whole'.symm.trans (h.symm.trans short)))
    · obtain ⟨_, name⟩ := q
      obtain ⟨_, name'⟩ := q'
      cases inside
      cases inside'
      rcases eq_or_longer_of_colons (short.symm.trans (h.trans short')) with
        ⟨rfl, same⟩ | ⟨rest, rfl, longer⟩ | ⟨rest, rfl, longer⟩
      · cases same
        have other : uri ≠ uri' := by
          rintro rfl
          exact keys rfl
        exact (takenOver_of_label? other labelled labelled' name).imp .takenOver .takenOver
      · cases longer
        exact .inl (.longer rest name' labelled labelled')
      · cases longer
        exact .inr (.longer rest name labelled' labelled)

theorem takenOver_of_clash (h : Clash c q q') (plain : ':' ∉ q.localName.toList)
    (plain' : ':' ∉ q'.localName.toList ∧ '}' ∉ q'.localName.toList) : TakenOver c q q' := by
  cases h with
  | takenOver taken => exact taken
  | longer rest localName first second => simp at plain
  | bare localName labelled => simp at plain
  | @braced uri uri' label localName localName' unlabelled labelled same =>
    -- The text ends with a closing brace and a name on one side, and with a colon and a name on the other.
    have chars : ('{' :: uri.toList) ++ '}' :: localName.toList = label.toList ++ ':' :: localName'.toList := by
      simpa using congrArg String.toList same
    rcases List.append_eq_append_iff.1 chars with ⟨more, -, behind⟩ | ⟨more, -, behind⟩
    · have colon : ':' ∈ '}' :: localName.toList := behind ▸ by simp
      exact absurd colon (by simpa using plain)
    · have brace : '}' ∈ ':' :: localName'.toList := behind ▸ by simp
      exact absurd brace (by simpa using plain'.2)

end Config

namespace Registry

variable {r : Registry} {i j : TypeId} {t : TypeEntry}

theorem key_get_ne (other : i ≠ j) (hi : i.index < r.size) (hj : j.index < r.size) : (r.get i).key ≠ (r.get j).key := by
  intro same
  have first : r.lookup (r.get j).key = some i := lookup_eq_some_iff_keyOf.2 ⟨hi, same⟩
  have second : r.lookup (r.get j).key = some j := lookup_eq_some_iff_keyOf.2 ⟨hj, rfl⟩
  exact other (Option.some.inj (first.symm.trans second))

theorem exists_get_eq (h : t ∈ r.entries) : ∃ j : TypeId, j.index < r.size ∧ r.get j = t := by
  obtain ⟨j, below, rfl⟩ := List.mem_iff_getElem.1 h
  refine ⟨⟨j⟩, below, ?_⟩
  simp [get, get?, List.getElem?_eq_getElem below]

theorem get_mem_entries (h : i.index < r.size) : r.get i ∈ r.entries := by
  unfold size at h
  simp [get, get?, List.getElem?_eq_getElem h]

end Registry

theorem Artifact.exists_type?_eq {options : ArtifactOptions} {g : TypeGraph} {a : Artifact}
    (h : Artifact.ofGraph options g = .ok a) {i : TypeId} (hi : i.index < g.types.size) :
    ∃ j : TypeId, j.index < g.types.size ∧
      a.type? (typeName options g i) = some (typeRow options g (g.types.get j)) ∧
      typeName options g j = typeName options g i := by
  unfold Artifact.ofGraph at h
  obtain ⟨rows, -, h⟩ := bind_eq_ok_iff.1 h
  cases h
  obtain ⟨sound, complete⟩ := bisect?_mergeSort TypeRow.name (g.types.entries.map (typeRow options g))
    (typeName options g i)
  unfold type?
  cases found : bisect? (fun t : TypeRow => compare t.name (typeName options g i))
      ((g.types.entries.map (typeRow options g)).mergeSort fun a b => decide (a.name ≤ b.name)).toArray with
  | none => exact absurd rfl (complete found _ (List.mem_map_of_mem (Registry.get_mem_entries hi)))
  | some row =>
    obtain ⟨here, name⟩ := sound row found
    obtain ⟨t, ht, rfl⟩ := List.mem_map.1 here
    obtain ⟨j, below, rfl⟩ := Registry.exists_get_eq ht
    exact ⟨j, below, rfl, name⟩

/-- The local name has no colon and no closing brace, as no name of XML has them. -/
def QName.Unmarked (q : QName) : Prop := ':' ∉ q.localName.toList ∧ '}' ∉ q.localName.toList

/-- Two types of a graph are emitted under one name just if their names clash, and names as XML has them clash just if
the settings give the label of the XML Schema namespace to another namespace.  The search for the name of a type finds
the type itself or one with which it clashes. -/
theorem emitted_names (c : Config) (g : TypeGraph) :
    (∀ i j : TypeId, i ≠ j → i.index < g.types.size → j.index < g.types.size →
      (Artifact.typeName c.artifactOptions g i = Artifact.typeName c.artifactOptions g j ↔
        Clash c (g.types.get i).name (g.types.get j).name ∨ Clash c (g.types.get j).name (g.types.get i).name)) ∧
      (∀ q q' : QName, q.Unmarked → q'.Unmarked → (Clash c q q' ↔ TakenOver c q q')) ∧
      ∀ a, Artifact.ofGraph c.artifactOptions g = .ok a → ∀ i : TypeId, i.index < g.types.size →
        ∃ j : TypeId, j.index < g.types.size ∧
          a.type? (Artifact.typeName c.artifactOptions g i) =
            some (Artifact.typeRow c.artifactOptions g (g.types.get j)) ∧
          (j = i ∨ Clash c (g.types.get i).name (g.types.get j).name ∨
            Clash c (g.types.get j).name (g.types.get i).name) := by
  have names {i j : TypeId} (other : i ≠ j) (hi : i.index < g.types.size) (hj : j.index < g.types.size) :
      Artifact.typeName c.artifactOptions g i = Artifact.typeName c.artifactOptions g j ↔
        Clash c (g.types.get i).name (g.types.get j).name ∨ Clash c (g.types.get j).name (g.types.get i).name := by
    constructor
    · exact Config.clash_of_shorten (Registry.key_get_ne other hi hj)
    · rintro (clash | clash)
      · exact Config.shorten_of_clash clash
      · exact (Config.shorten_of_clash clash).symm
  refine ⟨fun i j => names, fun q q' plain plain' => ?_, fun a built i hi => ?_⟩
  · exact ⟨fun clash => Config.takenOver_of_clash clash plain.1 plain', .takenOver⟩
  · obtain ⟨j, hj, found, same⟩ := Artifact.exists_type?_eq built hi
    refine ⟨j, hj, found, ?_⟩
    by_cases own : j = i
    · exact .inl own
    · exact .inr ((names (Ne.symm own) hi hj).1 same.symm)

def tones : DeclarationSet :=
  (Stateful.exec (DeclarationSet.add
    { targetNamespace := some "urn:t"
      types := [⟨some ⟨some "urn:t", "string"⟩, false, .complex .empty⟩] }) .empty).2

def tonesConfig : Config := { Config.empty "" with namespaces := .ofList [("xs", "urn:t")] }

theorem tones_compiled :
    ((compile tones [] {} {}).toOption.any fun g =>
      g.operations.entries.isEmpty && decide (3 < g.types.size) && (g.types.get ⟨0⟩).name == QName.xsd "string" &&
        (g.types.get ⟨3⟩).name == ⟨some "urn:t", "string"⟩ && (g.types.get ⟨0⟩).simpleKind == some .string &&
        (g.types.get ⟨3⟩).simpleKind == none) = true := by
  decide +kernel

theorem tones_clash :
    ∃ g a, ∃ i j : TypeId, compile tones [] {} {} = .ok g ∧ Artifact.ofGraph tonesConfig.artifactOptions g = .ok a ∧
      (g.types.get i).name = QName.xsd "string" ∧ (g.types.get j).name = ⟨some "urn:t", "string"⟩ ∧
      Artifact.typeName tonesConfig.artifactOptions g i = Artifact.typeName tonesConfig.artifactOptions g j ∧
      ¬ ∀ k ∈ [i, j], a.type? (Artifact.typeName tonesConfig.artifactOptions g k) =
        some (Artifact.typeRow tonesConfig.artifactOptions g (g.types.get k)) := by
  obtain ⟨g, compiled, run⟩ := exists_eq_ok_of_any tones_compiled
  simp only [Bool.and_eq_true, decide_eq_true_eq, beq_iff_eq, List.isEmpty_iff] at run
  obtain ⟨⟨⟨⟨⟨operations, size⟩, first⟩, second⟩, kind⟩, noKind⟩ := run
  obtain ⟨a, built⟩ : ∃ a, Artifact.ofGraph tonesConfig.artifactOptions g = .ok a := by
    unfold Artifact.ofGraph
    rw [operations]
    exact ⟨_, rfl⟩
  have same : Artifact.typeName tonesConfig.artifactOptions g ⟨0⟩ =
      Artifact.typeName tonesConfig.artifactOptions g ⟨3⟩ := by
    rw [(emitted_names tonesConfig g).1 ⟨0⟩ ⟨3⟩ (by decide) (Nat.lt_of_le_of_lt (Nat.zero_le 3) size) size, first,
      second]
    exact .inl (.takenOver (.intro "string" (by decide) (by decide) (by decide)))
  refine ⟨g, a, ⟨0⟩, ⟨3⟩, compiled, built, first, second, same, fun own => ?_⟩
  have row := own ⟨0⟩ (by simp)
  rw [same, own ⟨3⟩ (by simp), Option.some.injEq] at row
  have kinds : (g.types.get ⟨3⟩).simpleKind = (g.types.get ⟨0⟩).simpleKind :=
    congrArg Artifact.TypeRow.simpleKind row
  rw [kind, noKind] at kinds
  cases kinds

end SchemaGraph
