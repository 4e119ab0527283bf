import SchemaGraph.Proofs.Resolution.Plan

/-! What resolution can come upon, and what it does there.  It remarks, leaves headers out, enters types and fills
entries.  What none of these breaks is kept by all of resolution, whatever comes of it, as long as it starts from
definitions in a reach that it does not leave. -/
namespace SchemaGraph

open Stateful

theorem DeclarationSet.type_eq_ok_iff {set : DeclarationSet} {name : QName} {context : String}
    {d : TypeDef} : set.type name context = .ok d ↔ set.type? name = some d := by
  unfold type
  cases set.type? name <;> simp

theorem DeclarationSet.element_eq_ok_iff {set : DeclarationSet} {name : QName} {context : String}
    {d : ElementDecl} : set.element name context = .ok d ↔ set.element? name = some d := by
  unfold element
  cases set.element? name <;> simp

/-- Definitions and element declarations, each with its site, among which resolution stays: the types that are asked
for, those whose entries are filled, and the elements that are added. -/
structure Reach (c : ResolveContext) where
  asked : TypeDef → Site → Option QName → Prop
  filled : TypeDef → Site → Prop
  elements : ElementDecl → Site → Prop
  named : ∀ {name d}, c.set.type? name = some d → asked d (siteOfType name) none
  global : ∀ {name decl}, c.set.element? name = some decl → elements decl ⟨.element name, []⟩
  inline : ∀ {decl d site}, elements decl site → decl.typeRef = .inline d → asked d site (some decl.name)
  standIn : ∀ {name d}, c.set.type? name = some d → filled d (siteOfType name)
  own : ∀ {d site context name}, asked d site context → d.name = some name → filled d site
  anonymous : ∀ {d site element}, asked d site (some element) → filled d site
  attributes : ∀ {d site l name e}, filled d site → c.set.inheritedAttributes [] d = .ok l →
    (name, .inline e) ∈ l.attributes → asked e site none
  content : ∀ {d x context site l decl place occurs}, filled d site → d.complex? = some x →
    c.set.layout context [] site x = .ok l → .element decl place occurs ∈ l.leaves → elements decl place

/-- Resolution stays among everything. -/
def Reach.everything (c : ResolveContext) : Reach c where
  asked _ _ _ := True
  filled _ _ := True
  elements _ _ := True
  named _ := trivial
  global _ := trivial
  inline _ _ := trivial
  standIn _ := trivial
  own _ _ := trivial
  anonymous _ := trivial
  attributes _ _ _ := trivial
  content _ _ _ _ := trivial

def TypeEntry.start (t : TypeEntry) : QName × Bool × Option String × Option String × List String :=
  (t.name, t.isAbstract, t.textAttribute, t.serializedName, t.extraProperties)

/-- `t'` is `t` with more filled in.  An entry that is simple stays so. -/
structure TypeEntry.FillsUp (t t' : TypeEntry) : Prop where
  start : t'.start = t.start
  simple : t.isSimple = true → t'.isSimple = true

namespace Reach

variable {c : ResolveContext}

/-- `I` outlasts the steps of a content in the reach, which fill entries with definitions that go together by `P`.  The
class of values is filled in from simple definitions only. -/
structure Stable (R : Reach c) (I : ResolveState → Prop) (P : TypeId → TypeDef → Prop) : Prop where
  diagnose : ∀ s d, I s → I { s with diagnostics := s.diagnostics ++ [d] }
  skip : ∀ s decl site, R.elements decl site → decl.typeRef = .unspecified → decl.name ∈ c.options.headerOnly → I s →
    I { s with skippedHeaders :=
        if s.skippedHeaders.contains decl.name.clark then s.skippedHeaders
        else s.skippedHeaders ++ [decl.name.clark] }
  fill : ∀ s id d f keeps, P id d → (∀ t : TypeEntry, t.FillsUp (f t)) →
    (d.isSimple = false → ∀ t : TypeEntry, (f t).simpleKind = t.simpleKind) → I s →
    I { s with types := s.types.modify id f keeps }

/-- `I` also outlasts new types, which may be filled. -/
structure StableEntering (R : Reach c) (I : ResolveState → Prop) (P : TypeId → TypeDef → Prop) : Prop
    extends Stable R I P where
  reserve : ∀ s name isAbstract id types, I s → s.types.reserve? { name, isAbstract } = some (id, types) →
    (∀ d, P id d) ∧ I { s with types }
  recordAnonymous : ∀ s p, I s → I { s with anonymous := p :: s.anonymous }

section Content

variable {R : Reach c} {I : ResolveState → Prop} {P : TypeId → TypeDef → Prop} {resolve : ResolveType}
  {found : Found} {elements : ElementMap} {decl : ElementDecl} {site : Site} {occurs : Occurs}
  {choiceName : Option String} {owner : String}

theorem entryAt_keeps {id : TypeId} : Keeps I (Resolve.entryAt id) := by
  refine Keeps.bind_get fun t => ?_
  split
  · exact .pure _
  · exact .throw _

theorem lookup_keeps {key : String} : Keeps I (Resolve.lookup key) := Keeps.bind_get fun _ => .pure _

theorem Stable.diagnosing (h : R.Stable I P) {kind : DiagnosticKind} {subject message : String} :
    Keeps I (Resolve.diagnose kind subject message) :=
  Keeps.modify fun t ht => h.diagnose t _ ht

theorem Stable.filling (h : R.Stable I P) {id : TypeId} {d : TypeDef} {f : TypeEntry → TypeEntry}
    (keeps : ∀ t, (f t).key = t.key) (hid : P id d) (fills : ∀ t : TypeEntry, t.FillsUp (f t))
    (kind : d.isSimple = false → ∀ t : TypeEntry, (f t).simpleKind = t.simpleKind) :
    Keeps I (Resolve.modifyType id f keeps) :=
  .bind (.map _ entryAt_keeps) fun _ => .modify fun t ht => h.fill t id d f keeps hid fills kind ht

section

variable (hresolve : ∀ d site context, R.asked d site context → Keeps I (resolve d site context))
include hresolve

theorem resolveNamed_keeps {name : QName} : Keeps I (resolveNamed c resolve name) :=
  .bind_ofExcept fun d hd => hresolve d _ _ (R.named (DeclarationSet.type_eq_ok_iff.1 hd))

theorem resolveRef_ends {context : Option QName} {r : TypeRef} (within : ∀ d, r = .inline d → R.asked d site context)
    {s : ResolveState} (hs : I s) :
    Ends (resolveRef c resolve site context r) s (fun answer t => I t ∧ (answer = none → r = .unspecified))
      fun _ => I := by
  cases r with
  | named name =>
    refine ends_map.2 ((resolveNamed_keeps hresolve s hs).mono (fun _ _ ht => ⟨ht, nofun⟩) fun _ _ => id)
  | inline d =>
    refine ends_map.2 ((hresolve d site context (within d rfl) s hs).mono (fun _ _ ht => ⟨ht, nofun⟩) fun _ _ => id)
  | unspecified => exact ⟨hs, fun _ => rfl⟩

theorem resolveRef_keeps {context : Option QName} {r : TypeRef} (within : ∀ d, r = .inline d → R.asked d site context) :
    Keeps I (resolveRef c resolve site context r) := fun _ hs =>
  (resolveRef_ends hresolve within hs).mono (fun _ _ h => h.1) fun _ _ => id

variable (h : R.Stable I P)
include h

theorem addElement_keeps (hd : R.elements decl site) :
    Keeps I (addElement c resolve elements decl site occurs owner) := by
  intro s hs
  unfold addElement
  rw [ends_bind]
  refine (resolveRef_ends hresolve (fun d => R.inline hd) hs).mono ?_ fun _ _ => id
  rintro answer t ⟨ht, untyped⟩
  cases answer with
  | none =>
    dsimp only
    split
    · next header =>
      refine Keeps.bind (.modify fun t => h.skip t decl site hd (untyped rfl) ?_)
        (fun _ => .bind h.diagnosing fun _ => .pure _) t ht
      simpa using header
    · exact Keeps.throw _ t ht
  | some id =>
    dsimp only
    split
    · exact Keeps.bind h.diagnosing (fun _ => .pure _) t ht
    · exact Keeps.pure _ t ht

omit h in
theorem addSubtype_keeps {descriptor : ElementDescriptor} {acc : ElementMap × Nat} {subtype : QName} :
    Keeps I (addSubtype c resolve decl descriptor owner acc subtype) := by
  refine .bind_ofExcept fun d hd => ?_
  split
  · exact .pure _
  · refine .bind (hresolve d _ _ ?_) fun id => ?_
    · exact R.named (DeclarationSet.type_eq_ok_iff.1 hd)
    · dsimp only
      split
      · exact .throw_bind
      · exact .pure _

theorem addConcrete_keeps {descriptor : ElementDescriptor} {abstractName : QName} :
    Keeps I (addConcrete c resolve elements decl descriptor abstractName owner) := by
  refine .bind (.foldlM fun _ _ _ => addSubtype_keeps hresolve) fun acc => ?_
  dsimp only
  split
  · exact .bind h.diagnosing fun _ => .pure _
  · exact .pure _

theorem addSubstitute_keeps {head name : QName} :
    Keeps I (addSubstitute c resolve head owner elements name) := by
  refine .bind_ofExcept fun decl hd => ?_
  refine .bind (addElement_keeps hresolve h (R.global (DeclarationSet.element_eq_ok_iff.1 hd))) fun added => ?_
  dsimp only
  split <;> exact .pure _

theorem addSubstitutes_keeps {head : QName} {members : List QName} :
    Keeps I (addSubstitutes c resolve elements head members owner) :=
  .foldlM fun _ _ _ => addSubstitute_keeps hresolve h

theorem addContentElement_keeps (hd : R.elements decl site) :
    Keeps I (addContentElement c resolve found decl site occurs choiceName owner) := by
  refine .bind (addElement_keeps hresolve h hd) fun added => ?_
  dsimp only
  split
  · exact .bind (addSubstitutes_keeps hresolve h) fun _ => .pure _
  · split
    · exact .pure _
    · refine .bind entryAt_keeps fun type => ?_
      split
      · exact .bind (addConcrete_keeps hresolve h) fun _ => .pure _
      · exact .pure _

theorem addLeaf_keeps {leaf : Leaf} (within : ∀ decl site occurs, leaf = .element decl site occurs → R.elements decl site) :
    Keeps I (addLeaf c resolve choiceName owner found leaf) := by
  cases leaf with
  | element decl site occurs => exact addContentElement_keeps hresolve h (within _ _ _ rfl)
  | wildcard => exact .bind h.diagnosing fun _ => .pure _

theorem run_keeps {p : Plan} (within : ∀ leaf ∈ p.leaves, ∀ decl site occurs,
      leaf.2 = .element decl site occurs → R.elements decl site) : Keeps I (p.run c resolve owner found) := by
  refine .bind (.foldlM fun leaf listed _ => addLeaf_keeps hresolve h (within leaf listed)) fun _ => ?_
  split
  · exact .pure _
  · exact .throw _

variable {id : TypeId} {d : TypeDef} (hid : P id d)
include hid

theorem fillAttribute_keeps {entry : String × TypeRef} (within : ∀ e, entry.2 = .inline e → R.asked e site none) :
    Keeps I (fillAttribute c resolve id site entry) :=
  .bind (resolveRef_keeps hresolve within) fun _ =>
    h.filling _ hid (fun _ => ⟨rfl, fun simple => simple⟩) fun _ _ => rfl

theorem fillScalar_keeps (simple : d.isSimple = true) : Keeps I (fillScalar c resolve id d) := by
  have other : d.isSimple ≠ false := by simp [simple]
  refine .bind (.ofExcept _) fun scalar => ?_
  dsimp only
  split
  · exact .bind (.map _ (resolveNamed_keeps hresolve)) fun _ =>
      h.filling _ hid (fun _ => ⟨rfl, fun _ => rfl⟩) fun complex => absurd complex other
  · exact .bind (.pure _) fun _ => h.filling _ hid (fun _ => ⟨rfl, fun _ => rfl⟩) fun complex => absurd complex other

theorem fillComplex_keeps {x : ComplexDef} (hd : R.filled d site) (hx : d.complex? = some x) :
    Keeps I (fillComplex c resolve id x site) := by
  rw [fillComplex_eq]
  refine .bind entryAt_keeps fun entry => .bind_ofExcept fun layout hl => ?_
  refine .bind (run_keeps hresolve h fun leaf planned decl site occurs same => ?_) fun _ => ?_
  · exact R.content hd hx hl (same ▸ Layout.mem_leaves_of_plan planned)
  · exact h.filling _ hid (fun _ => ⟨rfl, fun simple => simple⟩) fun _ _ => rfl

theorem fillWith_keeps (hd : R.filled d site) : Keeps I (fillWith c resolve id d site) := by
  refine .bind_ofExcept fun l hl => .bind (.forM fun entry listed => ?_) fun _ => ?_
  · refine fillAttribute_keeps hresolve h hid fun e inline => ?_
    obtain ⟨name, r⟩ := entry
    obtain rfl : r = .inline e := inline
    exact R.attributes hd hl listed
  refine .bind (h.filling _ hid (fun _ => ⟨rfl, fun simple => simple⟩) fun _ _ => rfl) fun _ => ?_
  split
  · next simple => exact fillScalar_keeps hresolve h hid simple
  · split
    · next x hx => exact fillComplex_keeps hresolve h hid hd hx
    · exact .pure _

end

end Content

section Types

variable {R : Reach c} {I : ResolveState → Prop} {P : TypeId → TypeDef → Prop} {fill : Fill} {d : TypeDef}
  {site : Site} (h : R.StableEntering I P)
  (hfill : ∀ id d site, P id d → R.filled d site → Keeps I (fill id d site))
include h

theorem StableEntering.reserving {name : QName} {isAbstract : Bool} {s : ResolveState} (hs : I s) :
    Ends (Resolve.reserve name isAbstract) s (fun id t => (∀ d, P id d) ∧ I t) fun _ => I := by
  unfold Resolve.reserve
  rw [ends_bind, ends_get]
  split
  · next id types hr => exact h.reserve s name isAbstract id types hs hr
  · exact hs

include hfill

theorem enterNamed_keeps {name : QName} (hd : R.filled d site) : Keeps I (enterNamed fill name d site) := by
  intro s hs
  unfold enterNamed
  rw [ends_bind]
  refine (h.reserving hs).mono (fun id t ht => ?_) fun _ _ => id
  exact Keeps.bind (hfill id d site (ht.1 d) hd) (fun _ => .pure _) t ht.2

theorem placeholder_keeps : Keeps I (placeholder c fill d) := by
  refine .bind (.ofExcept _) fun _ => .bind lookup_keeps fun found => ?_
  split
  · exact .pure _
  · exact .bind_ofExcept fun b hb => enterNamed_keeps h hfill (R.standIn (DeclarationSet.type_eq_ok_iff.1 hb))

theorem resolveType_keeps {context : Option QName} (hd : R.asked d site context) :
    Keeps I (resolveType c fill d site context) := by
  unfold resolveType
  split
  · next name own =>
    refine .bind lookup_keeps fun found => ?_
    split
    · exact .pure _
    · split
      · exact enterNamed_keeps h hfill (R.own hd own)
      · split
        · exact placeholder_keeps h hfill
        · exact .throw _
  split
  · exact placeholder_keeps h hfill
  split
  · exact .throw _
  refine .bind lookup_keeps fun found => ?_
  split
  · refine .bind_get fun t => ?_
    split
    · exact .pure _
    · exact .throw _
  · intro s hs
    rw [ends_bind]
    refine (h.reserving hs).mono (fun id t ht => ?_) fun _ _ => id
    refine Keeps.bind (.modify fun u hu => h.recordAnonymous u _ hu) (fun _ => ?_) t ht.2
    exact .bind (hfill id d site (ht.1 d) (R.anonymous hd)) fun _ => .pure _

end Types

section Runs

variable {R : Reach c} {I : ResolveState → Prop} {P : TypeId → TypeDef → Prop} (h : R.StableEntering I P)
include h

theorem fillTo_keeps (depth : Nat) (id : TypeId) (d : TypeDef) (site : Site) (hid : P id d) (hd : R.filled d site) :
    Keeps I (fillTo c depth id d site) := by
  -- Entries that are opened on the way may be filled as well.
  induction depth generalizing id d site with
  | zero => exact .throw _
  | succ depth ih => exact fillWith_keeps (fun _ _ _ => resolveType_keeps h ih) h.toStable hid hd

theorem resolve_keeps (depth : Nat) (d : TypeDef) (site : Site) (context : Option QName) (hd : R.asked d site context) :
    Keeps I (resolveType c (fillTo c depth) d site context) :=
  resolveType_keeps h (fillTo_keeps h depth) hd

theorem resolveName_keeps {name : QName} : Keeps I (c.resolveName name) :=
  resolveNamed_keeps fun d _ _ => resolve_keeps h _ d _ _

theorem resolvePlaceholders_keeps : Keeps I c.resolvePlaceholders :=
  .forM fun _ _ => .map _ (resolveName_keeps h)

end Runs

end Reach

end SchemaGraph
