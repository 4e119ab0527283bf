import Mathlib.Logic.Relation
import SchemaGraph.Proofs.Resolution.Rules
import SchemaGraph.Resolution.Scalar

/-! The class of the values of a type, told without a walk.  A type has one class at most, whatever types are
open where it is asked for: a walk comes to the class unless it comes to a name twice. -/
namespace SchemaGraph

open Relation

namespace TypeDef

def literals (d : TypeDef) : List String :=
  match d.body with
  | .restriction _ literals => literals
  | .complex ⟨_, .simple literals, _, _⟩ => literals
  | _ => []

def base? (d : TypeDef) : Option TypeRef :=
  match d.body with
  | .restriction base _ => some base
  | .complex c => some (c.derivation.base?.elim .unspecified .named)
  | _ => none

end TypeDef

namespace DeclarationSet

/-- The type that decides is found along the bases.  Of a list it is decided by the class of its items, if
they have a name. -/
inductive HasClass (s : DeclarationSet) : TypeDef → ScalarClass → Prop
  | builtin {name : Option QName} {isAbstract : Bool} {p : Primitive} :
      HasClass s ⟨name, isAbstract, .builtin p⟩ (.ofPrimitive p)
  | union {name : Option QName} {isAbstract : Bool} : HasClass s ⟨name, isAbstract, .union⟩ (.ofPrimitive .string)
  | enumList {name : Option QName} {isAbstract : Bool} {item : QName} {d : TypeDef} {x : ScalarClass}
      (declared : s.type? item = some d) (items : HasClass s d x) (enum : x.kind = .enum) :
      HasClass s ⟨name, isAbstract, .list (.named item)⟩ ⟨.listOfEnum, [], some item⟩
  | otherList {name : Option QName} {isAbstract : Bool} {item : QName} {d : TypeDef} {x : ScalarClass}
      (declared : s.type? item = some d) (items : HasClass s d x) (other : x.kind ≠ .enum) :
      HasClass s ⟨name, isAbstract, .list (.named item)⟩ (.ofPrimitive .string)
  | unnamedList {name : Option QName} {isAbstract : Bool} {item : TypeRef} (unnamed : ∀ name, item ≠ .named name) :
      HasClass s ⟨name, isAbstract, .list item⟩ (.ofPrimitive .string)
  | literals {name : Option QName} {isAbstract : Bool} {base : TypeRef} {literals : List String}
      (some : literals ≠ []) : HasClass s ⟨name, isAbstract, .restriction base literals⟩ (.ofLiterals literals)
  | restriction {name : Option QName} {isAbstract : Bool} {base : QName} {d : TypeDef} {x : ScalarClass}
      (declared : s.type? base = some d) (below : HasClass s d x) :
      HasClass s ⟨name, isAbstract, .restriction (.named base) []⟩ x
  | inline {name : Option QName} {isAbstract : Bool} {inner : TypeDef} {x : ScalarClass} (below : HasClass s inner x) :
      HasClass s ⟨name, isAbstract, .restriction (.inline inner) []⟩ x
  | unspecified {name : Option QName} {isAbstract : Bool} :
      HasClass s ⟨name, isAbstract, .restriction .unspecified []⟩ (.ofPrimitive .string)
  | complexLiterals {name : Option QName} {isAbstract : Bool} {c : ComplexDef} {literals : List String}
      (content : c.content = .simple literals) (some : literals ≠ []) :
      HasClass s ⟨name, isAbstract, .complex c⟩ (.ofLiterals literals)
  | derived {name : Option QName} {isAbstract : Bool} {c : ComplexDef} {base : QName} {d : TypeDef} {x : ScalarClass}
      (plain : ∀ literals, c.content = .simple literals → literals = []) (derives : c.derivation.base? = some base)
      (declared : s.type? base = some d) (below : HasClass s d x) : HasClass s ⟨name, isAbstract, .complex c⟩ x
  | first {name : Option QName} {isAbstract : Bool} {c : ComplexDef}
      (plain : ∀ literals, c.content = .simple literals → literals = []) (derives : c.derivation.base? = none) :
      HasClass s ⟨name, isAbstract, .complex c⟩ (.ofPrimitive .string)

/-- A definition without literals leaves the decision to its base. -/
inductive Follows (s : DeclarationSet) (d : TypeDef) : TypeDef → Prop
  | named {base : QName} {e : TypeDef} (none : d.literals = []) (derived : d.base? = some (.named base))
      (declared : s.type? base = some e) : Follows s d e
  | inline {e : TypeDef} (none : d.literals = []) (derived : d.base? = some (.inline e)) : Follows s d e

/-- A definition decides without looking at the items of a list. -/
inductive DecidesAlone (d : TypeDef) : ScalarClass → Prop
  | literals (some : d.literals ≠ []) : DecidesAlone d (.ofLiterals d.literals)
  | builtin {p : Primitive} (body : d.body = .builtin p) : DecidesAlone d (.ofPrimitive p)
  | union (body : d.body = .union) : DecidesAlone d (.ofPrimitive .string)
  | missing (none : d.literals = []) (derived : d.base? = some .unspecified) : DecidesAlone d (.ofPrimitive .string)
  | unnamedItems {item : TypeRef} (body : d.body = .list item) (unnamed : ∀ name, item ≠ .named name) :
      DecidesAlone d (.ofPrimitive .string)

def classOfItems (item : QName) (x : ScalarClass) : ScalarClass :=
  if x.kind = .enum then ⟨.listOfEnum, [], some item⟩ else .ofPrimitive .string

variable {s : DeclarationSet} {d e e' : TypeDef} {x y : ScalarClass} {path : List QName}

theorem literals_complex {name : Option QName} {isAbstract : Bool} {c : ComplexDef} :
    TypeDef.literals ⟨name, isAbstract, .complex c⟩ = [] ↔
      ∀ literals, c.content = .simple literals → literals = [] := by
  obtain ⟨derivation, content, _, _⟩ := c
  cases content <;> simp [TypeDef.literals]

theorem HasClass.along {motive : TypeDef → ScalarClass → Prop} (h : s.HasClass d x)
    (alone : ∀ d x, DecidesAlone d x → motive d x)
    (items : ∀ d item e x, d.body = .list (.named item) → s.type? item = some e → s.HasClass e x → motive e x →
      motive d (classOfItems item x))
    (follows : ∀ d e x, s.Follows d e → s.HasClass e x → motive e x → motive d x) : motive d x := by
  induction h with
  | builtin => exact alone _ _ (.builtin rfl)
  | union => exact alone _ _ (.union rfl)
  | @enumList name isAbstract _ _ _ declared below enum ih =>
    have decided := items ⟨name, isAbstract, _⟩ _ _ _ rfl declared below ih
    rwa [classOfItems, if_pos enum] at decided
  | @otherList name isAbstract _ _ _ declared below other ih =>
    have decided := items ⟨name, isAbstract, _⟩ _ _ _ rfl declared below ih
    rwa [classOfItems, if_neg other] at decided
  | unnamedList unnamed => exact alone _ _ (.unnamedItems rfl unnamed)
  | literals some => exact alone _ _ (.literals some)
  | restriction declared below ih => exact follows _ _ _ (.named rfl rfl declared) below ih
  | inline below ih => exact follows _ _ _ (.inline rfl rfl) below ih
  | unspecified => exact alone _ _ (.missing rfl rfl)
  | @complexLiterals _ _ c _ content some =>
    obtain ⟨derivation, _, _, _⟩ := c
    cases content
    exact alone _ _ (.literals some)
  | @derived _ _ c _ _ _ plain derives declared below ih =>
    exact follows _ _ _ (.named (literals_complex.2 plain) (by simp [TypeDef.base?, derives]) declared) below ih
  | @first _ _ c plain derives =>
    exact alone _ _ (.missing (literals_complex.2 plain) (by simp [TypeDef.base?, derives]))

section Steps

theorem classify_complex {name : Option QName} {isAbstract : Bool} {c : ComplexDef}
    (none : TypeDef.literals ⟨name, isAbstract, .complex c⟩ = []) :
    s.classify path ⟨name, isAbstract, .complex c⟩ = s.classify path
      ⟨name, isAbstract, .restriction (c.derivation.base?.elim .unspecified .named) []⟩ := by
  rw [classify]
  split
  · next literal literals content => cases literals_complex.1 none _ content
  · split
    · next base derived =>
      rw [derived, Option.elim, classify]
      rfl
    · next derived =>
      rw [derived, Option.elim, classify]
      rfl

theorem classify_of_base {r : TypeRef} (none : d.literals = []) (derived : d.base? = some r) :
    s.classify path d = s.classify path ⟨d.name, d.isAbstract, .restriction r []⟩ := by
  obtain ⟨name, isAbstract, body⟩ := d
  cases body with
  | restriction base literals =>
    cases none
    cases derived
    rfl
  | complex c =>
    cases derived
    exact classify_complex none
  | builtin | list | union => cases derived

theorem classify_named {base : QName} (none : d.literals = []) (derived : d.base? = some (.named base)) :
    s.classify path d = s.nextType path base d.label >>= fun next => s.classify (base :: path) next.1 := by
  rw [classify_of_base none derived, classify]
  rfl

theorem classify_inline (none : d.literals = []) (derived : d.base? = some (.inline e)) :
    s.classify path d = s.classify path e := by
  rw [classify_of_base none derived, classify]
  rfl

theorem classify_items {item : QName} (body : d.body = .list (.named item)) :
    s.classify path d = s.nextType path item d.label >>= fun next =>
      classOfItems item <$> s.classify (item :: path) next.1 := by
  obtain ⟨name, isAbstract, _⟩ := d
  cases body
  rw [classify]
  rfl

theorem classify_of_decidesAlone (h : DecidesAlone d x) : s.classify path d = .ok x := by
  cases h with
  | literals some =>
    obtain ⟨name, isAbstract, body⟩ := d
    cases body with
    | restriction base literals =>
      rw [classify.eq_def]
      exact if_pos (by simpa [TypeDef.literals] using some)
    | complex c =>
      obtain ⟨derivation, content, _, _⟩ := c
      cases content with
      | simple literals =>
        obtain ⟨literal, rest, rfl⟩ := List.exists_cons_of_ne_nil some
        rw [classify]
        rfl
      | empty | elements => exact absurd rfl some
    | builtin | list | union => exact absurd rfl some
  | builtin body =>
    obtain ⟨name, isAbstract, _⟩ := d
    cases body
    rw [classify]
    rfl
  | union body =>
    obtain ⟨name, isAbstract, _⟩ := d
    cases body
    rw [classify]
    rfl
  | missing none derived =>
    rw [classify_of_base none derived, classify]
    rfl
  | @unnamedItems item body unnamed =>
    obtain ⟨name, isAbstract, _⟩ := d
    cases body
    cases item with
    | named name => exact absurd rfl (unnamed name)
    | inline | unspecified =>
      rw [classify]
      rfl

end Steps

section Walks

theorem eq_nil_of_no_first {content : Content}
    (none : ∀ literal literals, content = .simple (literal :: literals) → False) (literals : List String)
    (simple : content = .simple literals) : literals = [] := by
  cases literals with
  | nil => rfl
  | cons literal literals => exact (none literal literals simple).elim

/-- A walk to a class ends where a definition decides alone; otherwise it goes on to the items of a list or to a
base. -/
theorem classify_induction {motive : List QName → TypeDef → Prop}
    (alone : ∀ path d x, DecidesAlone d x → motive path d)
    (items : ∀ path d item, d.body = .list (.named item) →
      (∀ e, s.type? item = some e → item ∉ path → motive (item :: path) e) → motive path d)
    (named : ∀ path d base, d.literals = [] → d.base? = some (.named base) →
      (∀ e, s.type? base = some e → base ∉ path → motive (base :: path) e) → motive path d)
    (inline : ∀ path d e, d.literals = [] → d.base? = some (.inline e) → motive path e → motive path d)
    (path : List QName) (d : TypeDef) : motive path d := by
  induction path, d using classify.induct s with
  | case1 => exact alone _ _ _ (.builtin rfl)
  | case2 => exact alone _ _ _ (.union rfl)
  | case3 _ _ _ item ih => exact items _ _ item rfl fun e found new => ih e ⟨found, new⟩
  | case4 | case5 => exact alone _ _ _ (.unnamedItems rfl nofun)
  | case6 _ _ _ _ literals some => exact alone _ _ _ (.literals (by simpa [TypeDef.literals] using some))
  | case7 _ _ _ literals none base ih =>
    exact named _ _ base (by simpa [TypeDef.literals] using none) rfl fun e found new => ih e ⟨found, new⟩
  | case8 _ _ _ literals none inner ih => exact inline _ _ inner (by simpa [TypeDef.literals] using none) rfl ih
  | case9 _ _ _ literals none => exact alone _ _ _ (.missing (by simpa [TypeDef.literals] using none) rfl)
  | case10 _ _ _ c literal literals content =>
    refine alone _ _ _ (.literals fun none => ?_)
    cases literals_complex.1 none _ content
  | case11 _ _ _ c base derives none ih =>
    refine named _ _ base (literals_complex.2 (eq_nil_of_no_first none)) ?_ fun e found new => ih e ⟨found, new⟩
    simp [TypeDef.base?, derives]
  | case12 _ _ _ c derives none =>
    exact alone _ _ _ (.missing (literals_complex.2 (eq_nil_of_no_first none)) (by simp [TypeDef.base?, derives]))

theorem hasClass_of_decidesAlone (h : DecidesAlone d x) : s.HasClass d x := by
  obtain ⟨name, isAbstract, body⟩ := d
  cases h with
  | builtin body =>
    cases body
    exact .builtin
  | union body =>
    cases body
    exact .union
  | unnamedItems body unnamed =>
    cases body
    exact .unnamedList unnamed
  | literals some =>
    cases body with
    | restriction base literals => exact .literals some
    | complex c =>
      obtain ⟨derivation, content, _, _⟩ := c
      cases content with
      | simple literals => exact .complexLiterals rfl some
      | empty | elements => exact absurd rfl some
    | builtin | list | union => exact absurd rfl some
  | missing none derived =>
    cases body with
    | restriction base literals =>
      cases none
      cases derived
      exact .unspecified
    | complex c =>
      refine .first (literals_complex.1 none) ?_
      cases based : c.derivation.base? with
      | none => rfl
      | some base => simp [TypeDef.base?, based] at derived
    | builtin | list | union => cases derived

theorem hasClass_of_items {item : QName} (body : d.body = .list (.named item)) (declared : s.type? item = some e)
    (items : s.HasClass e x) : s.HasClass d (classOfItems item x) := by
  obtain ⟨name, isAbstract, _⟩ := d
  cases body
  unfold classOfItems
  split
  · next enum => exact .enumList declared items enum
  · next other => exact .otherList declared items other

theorem Follows.unique (h : s.Follows d e) (h' : s.Follows d e') : e = e' := by
  cases h with
  | named _ derived declared =>
    cases h' with
    | named _ derived' declared' =>
      cases derived.symm.trans derived'
      exact Option.some.inj (declared.symm.trans declared')
    | inline _ derived' => cases derived.symm.trans derived'
  | inline _ derived =>
    cases h' with
    | named _ derived' => cases derived.symm.trans derived'
    | inline _ derived' =>
      cases derived.symm.trans derived'
      rfl

theorem Follows.derived (h : s.Follows d e) : d.literals = [] ∧ ∃ r, d.base? = some r ∧ r ≠ .unspecified := by
  cases h with
  | named none derived | inline none derived => exact ⟨none, _, derived, nofun⟩

theorem Follows.not_list {r : TypeRef} (h : s.Follows d e) : d.body ≠ .list r := by
  intro body
  obtain ⟨-, r, derived, -⟩ := h.derived
  rw [TypeDef.base?, body] at derived
  cases derived

theorem DecidesAlone.not_follows (h : DecidesAlone d x) : ¬ s.Follows d e := by
  intro follows
  obtain ⟨none, r, derived, specified⟩ := follows.derived
  cases h with
  | literals some => exact some none
  | missing _ missing =>
    cases missing.symm.trans derived
    exact specified rfl
  | builtin body | union body | unnamedItems body =>
    rw [TypeDef.base?, body] at derived
    cases derived

theorem DecidesAlone.not_named {item : QName} (h : DecidesAlone d x) : d.body ≠ .list (.named item) := by
  intro body
  cases h with
  | literals some => exact some (by rw [TypeDef.literals, body])
  | missing _ missing =>
    rw [TypeDef.base?, body] at missing
    cases missing
  | builtin body' | union body' => cases body.symm.trans body'
  | unnamedItems body' unnamed =>
    cases body.symm.trans body'
    exact unnamed item rfl

theorem hasClass_of_follows (follows : s.Follows d e) (below : s.HasClass e x) : s.HasClass d x := by
  obtain ⟨name, isAbstract, body⟩ := d
  obtain ⟨plain, -⟩ := follows.derived
  cases body with
  | restriction r literals =>
    cases plain
    cases follows with
    | named _ derived declared =>
      cases derived
      exact .restriction declared below
    | inline _ derived =>
      cases derived
      exact .inline below
  | complex c =>
    have simple := literals_complex.1 plain
    cases based : c.derivation.base? with
    | none =>
      obtain ⟨-, r, derived, specified⟩ := follows.derived
      simp only [TypeDef.base?, based, Option.elim, Option.some.injEq] at derived
      exact absurd derived.symm specified
    | some base =>
      cases follows with
      | named _ derived declared =>
        simp only [TypeDef.base?, based, Option.elim, Option.some.injEq, TypeRef.named.injEq] at derived
        subst derived
        exact .derived simple based declared below
      | inline _ derived => simp [TypeDef.base?, based] at derived
  | builtin | list | union =>
    obtain ⟨-, r, derived, -⟩ := follows.derived
    cases derived

theorem hasClass_of_classify (h : s.classify path d = .ok x) : s.HasClass d x := by
  induction path, d using classify_induction (s := s) generalizing x with
  | alone path d y decides =>
    cases (classify_of_decidesAlone decides).symm.trans h
    exact hasClass_of_decidesAlone decides
  | items path d item body ih =>
    rw [classify_items body] at h
    obtain ⟨⟨e, found, new⟩, -, h⟩ := bind_eq_ok_iff.1 h
    obtain ⟨y, below, rfl⟩ := map_eq_ok_iff.1 h
    exact hasClass_of_items body found (ih e found new below)
  | named path d base none derived ih =>
    rw [classify_named none derived] at h
    obtain ⟨⟨e, found, new⟩, -, h⟩ := bind_eq_ok_iff.1 h
    exact hasClass_of_follows (.named none derived found) (ih e found new h)
  | inline path d e none derived ih =>
    rw [classify_inline none derived] at h
    exact hasClass_of_follows (.inline none derived) (ih h)

/-- The definition whose class decides that of another one. -/
inductive Asks (s : DeclarationSet) (d e : TypeDef) : Prop
  | base (follows : s.Follows d e)
  | items {item : QName} (body : d.body = .list (.named item)) (declared : s.type? item = some e)

theorem HasClass.acc_asks (h : s.HasClass d x) : Acc (fun e d => s.Asks d e) d := by
  refine h.along (motive := fun d _ => Acc (fun e d => s.Asks d e) d) ?_ ?_ ?_
  · intro d x decides
    refine .intro d fun e asks => ?_
    cases asks with
    | base follows => exact absurd follows decides.not_follows
    | items body _ => exact absurd body decides.not_named
  · intro d item e x body declared _ below
    refine .intro d fun e' asks => ?_
    cases asks with
    | base follows => exact absurd body follows.not_list
    | items body' declared' =>
      cases body.symm.trans body'
      cases declared.symm.trans declared'
      exact below
  · intro d e x follows _ below
    refine .intro d fun e' asks => ?_
    cases asks with
    | base follows' => exact follows.unique follows' ▸ below
    | items body _ => exact absurd body follows.not_list

theorem not_transGen_of_acc {R : TypeDef → TypeDef → Prop} (h : Acc (fun e d => R d e) d) : ¬ TransGen R d d := by
  induction h with
  | intro d _ ih =>
    intro circle
    obtain ⟨e, step, back⟩ := TransGen.head'_iff.1 circle
    exact ih e step (.tail' back step)

def Unasked (s : DeclarationSet) (path : List QName) (d : TypeDef) : Prop :=
  ∀ name ∈ path, ∀ e, s.type? name = some e → ¬ TransGen s.Asks d e

theorem Unasked.not_mem {name : QName} (h : s.Unasked path d) (declared : s.type? name = some e) (asks : s.Asks d e) :
    name ∉ path := fun here => h name here e declared (.single asks)

theorem Unasked.step (h : s.Unasked path d) (asks : s.Asks d e) : s.Unasked path e :=
  fun name here e' declared way => h name here e' declared (.head asks way)

theorem Unasked.cons {name : QName} (h : s.Unasked path e) (declared : s.type? name = some e)
    (ends : Acc (fun e d => s.Asks d e) e) : s.Unasked (name :: path) e := by
  refine List.forall_mem_cons.2 ⟨fun e' declared' way => ?_, h⟩
  cases declared.symm.trans declared'
  exact not_transGen_of_acc ends way

theorem classify_of_hasClass (h : s.HasClass d x) : ∀ path, s.Unasked path d → s.classify path d = .ok x := by
  refine h.along (motive := fun d x => ∀ path, s.Unasked path d → s.classify path d = .ok x) ?_ ?_ ?_
  · exact fun d x decides path _ => classify_of_decidesAlone decides
  · intro d item e x body declared below ih path unasked
    have asks : s.Asks d e := .items body declared
    obtain ⟨h, next⟩ := nextType_eq_ok_iff.2 ⟨declared, unasked.not_mem declared asks⟩
    rw [classify_items body]
    refine bind_eq_ok_iff.2 ⟨_, next, map_eq_ok_iff.2 ⟨x, ?_, rfl⟩⟩
    exact ih (item :: path) ((unasked.step asks).cons declared below.acc_asks)
  · intro d e x follows below ih path unasked
    have asks : s.Asks d e := .base follows
    cases follows with
    | named none derived declared =>
      obtain ⟨h, next⟩ := nextType_eq_ok_iff.2 ⟨declared, unasked.not_mem declared asks⟩
      rw [classify_named none derived]
      exact bind_eq_ok_iff.2 ⟨_, next, ih _ ((unasked.step asks).cons declared below.acc_asks)⟩
    | inline none derived =>
      rw [classify_inline none derived]
      exact ih path (unasked.step asks)

theorem classify_eq_ok_iff : s.classify [] d = .ok x ↔ s.HasClass d x :=
  ⟨hasClass_of_classify, fun h => classify_of_hasClass h [] nofun⟩

theorem HasClass.unique (h : s.HasClass d x) (h' : s.HasClass d y) : x = y := by
  have found := classify_of_hasClass h [] nofun
  have found' := classify_of_hasClass h' [] nofun
  exact Except.ok.inj (found.symm.trans found')

end Walks

theorem HasClass.items (h : s.HasClass d x) (list : x.kind = .listOfEnum) :
    ∃ item d' y, x = ⟨.listOfEnum, [], some item⟩ ∧ s.type? item = some d' ∧ s.HasClass d' y ∧ y.kind = .enum := by
  induction h with
  | @builtin _ _ p => cases p <;> cases list
  | union | otherList | unnamedList | unspecified | first => cases list
  | literals | complexLiterals => cases list
  | enumList declared items enum => exact ⟨_, _, _, rfl, declared, items, enum⟩
  | restriction _ _ ih | inline _ ih | derived _ _ _ _ ih => exact ih list

theorem primitiveOfType_of_enum {p : Primitive} (h : s.HasClass d x) (enum : x.kind = .enum)
    (other : ∀ name, d.name = some name → name.isXsd = false) (stands : s.primitiveOfType d = .ok p) :
    p = .string := by
  unfold primitiveOfType at stands
  split at stands
  · next q builtin =>
    obtain ⟨name, isAbstract, body⟩ := d
    obtain rfl : body = .builtin q := builtin
    cases h
    cases q <;> cases enum
  · split at stands
    · next q found =>
      obtain ⟨name, own, found⟩ := Option.bind_eq_some_iff.1 found
      rw [other name own] at found
      cases found
    · obtain ⟨y, hy, stands⟩ := bind_eq_ok_iff.1 stands
      obtain rfl := h.unique (hasClass_of_classify hy)
      rw [enum] at stands
      cases stands
      rfl

end SchemaGraph.DeclarationSet
