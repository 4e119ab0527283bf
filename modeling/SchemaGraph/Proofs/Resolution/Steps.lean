import SchemaGraph.Proofs.Resolution.Reach

/-! What the steps of resolution keep wherever it starts from. -/
namespace SchemaGraph

open Stateful

/-- `I` outlasts the steps of a content, which fill entries in `P`. -/
structure Stable (I : ResolveState → Prop) (P : TypeId → Prop) : Prop where
  diagnose : ∀ s d, I s → I { s with diagnostics := s.diagnostics ++ [d] }
  skip : ∀ s key, I s →
    I { s with skippedHeaders :=
        if s.skippedHeaders.contains key then s.skippedHeaders else s.skippedHeaders ++ [key] }
  fill : ∀ s id f keeps, P id → (∀ t : TypeEntry, t.FillsUp (f t)) → I s →
    I { s with types := s.types.modify id f keeps }

structure StableEntering (I : ResolveState → Prop) (P : TypeId → Prop) : Prop extends Stable I P where
  reserve : ∀ s name isAbstract id types, I s → s.types.reserve? { name, isAbstract } = some (id, types) →
    P id ∧ I { s with types }
  recordAnonymous : ∀ s p, I s → I { s with anonymous := p :: s.anonymous }

section

variable {I : ResolveState → Prop} {P : TypeId → Prop} {c : ResolveContext}

theorem Stable.within (h : Stable I P) (R : Reach c) : R.Stable I fun id _ => P id where
  diagnose := h.diagnose
  skip s decl _ _ _ _ := h.skip s decl.name.clark
  fill s id _ f keeps hid fills _ := h.fill s id f keeps hid fills

theorem StableEntering.within (h : StableEntering I P) (R : Reach c) : R.StableEntering I fun id _ => P id where
  toStable := h.toStable.within R
  reserve s name isAbstract id types hs hr := (h.reserve s name isAbstract id types hs hr).imp_left fun hid _ => hid
  recordAnonymous := h.recordAnonymous

end

section Content

variable {I : ResolveState → Prop} {P : TypeId → Prop} {c : ResolveContext} {resolve : ResolveType}
  {found : Found} {elements : ElementMap} {decl : ElementDecl} {site : Site} {choiceName : Option String}
  {owner : String}

theorem Stable.filling (h : Stable I P) {id : TypeId} {f : TypeEntry → TypeEntry}
    (keeps : ∀ t, (f t).key = t.key) (hid : P id) (fills : ∀ t : TypeEntry, t.FillsUp (f t)) :
    Keeps I (Resolve.modifyType id f keeps) :=
  .bind (.map _ Reach.entryAt_keeps) fun _ => .modify fun t ht => h.fill t id f keeps hid fills ht

variable (hresolve : ∀ d site context, Keeps I (resolve d site context))
include hresolve

theorem resolveNamed_keeps {name : QName} : Keeps I (resolveNamed c resolve name) :=
  Reach.resolveNamed_keeps (R := .everything c) fun d site context _ => hresolve d site context

theorem resolveRef_keeps {context : Option QName} {r : TypeRef} :
    Keeps I (resolveRef c resolve site context r) :=
  Reach.resolveRef_keeps (R := .everything c) (fun d site context _ => hresolve d site context) fun _ _ => trivial

theorem addSubtype_keeps {descriptor : ElementDescriptor} {acc : ElementMap × Nat} {subtype : QName} :
    Keeps I (addSubtype c resolve decl descriptor owner acc subtype) :=
  Reach.addSubtype_keeps (R := .everything c) fun d site context _ => hresolve d site context

variable (h : Stable I P)
include h

theorem addConcrete_keeps {descriptor : ElementDescriptor} {abstractName : QName} :
    Keeps I (addConcrete c resolve elements decl descriptor abstractName owner) :=
  Reach.addConcrete_keeps (fun d site context _ => hresolve d site context) (h.within (.everything c))

theorem addSubstitutes_keeps {head : QName} {members : List QName} :
    Keeps I (addSubstitutes c resolve elements head members owner) :=
  Reach.addSubstitutes_keeps (fun d site context _ => hresolve d site context) (h.within (.everything c))

theorem addLeaf_keeps {leaf : Leaf} : Keeps I (addLeaf c resolve choiceName owner found leaf) :=
  Reach.addLeaf_keeps (fun d site context _ => hresolve d site context) (h.within (.everything c))
    fun _ _ _ _ => trivial

variable {id : TypeId} (hid : P id)
include hid

theorem fillAttribute_keeps {entry : String × TypeRef} :
    Keeps I (fillAttribute c resolve id site entry) :=
  Reach.fillAttribute_keeps (d := ⟨none, false, .complex .empty⟩) (fun d site context _ => hresolve d site context)
    (h.within (.everything c)) hid fun _ _ => trivial

theorem fillScalar_keeps {d : TypeDef} (simple : d.isSimple = true) : Keeps I (fillScalar c resolve id d) :=
  Reach.fillScalar_keeps (fun d site context _ => hresolve d site context) (h.within (.everything c)) hid simple

theorem fillComplex_keeps {x : ComplexDef} : Keeps I (fillComplex c resolve id x site) :=
  Reach.fillComplex_keeps (d := ⟨none, false, .complex x⟩) (fun d site context _ => hresolve d site context)
    (h.within (.everything c)) hid trivial rfl

end Content

section Types

variable {I : ResolveState → Prop} {P : TypeId → Prop} {c : ResolveContext} (h : StableEntering I P)
include h

theorem fillTo_keeps (depth : Nat) (id : TypeId) (d : TypeDef) (site : Site) (hid : P id) :
    Keeps I (fillTo c depth id d site) :=
  Reach.fillTo_keeps (h.within (.everything c)) depth id d site hid trivial

theorem resolve_keeps (depth : Nat) (d : TypeDef) (site : Site) (context : Option QName) :
    Keeps I (resolveType c (fillTo c depth) d site context) :=
  Reach.resolve_keeps (h.within (.everything c)) depth d site context trivial

theorem resolveName_keeps {name : QName} : Keeps I (c.resolveName name) :=
  Reach.resolveName_keeps (h.within (.everything c))

theorem resolveGlobal_keeps (helements : ∀ s elements, I s → I { s with elements }) {name : QName} :
    Keeps I (c.resolveGlobal name) := by
  refine .bind (.ofExcept _) fun decl => .bind_get fun s => ?_
  refine .bind (Reach.addElement_keeps (fun d _ _ _ => resolve_keeps h _ d _ _) (h.within (.everything c)).toStable
    trivial) fun _ => ?_
  exact .modify fun s hs => helements s _ hs

theorem resolveAll_keeps (helements : ∀ s elements, I s → I { s with elements }) : Keeps I c.resolveAll := by
  refine .forM fun doc _ => .bind (.forM fun name _ => resolveGlobal_keeps h helements) fun _ => ?_
  exact .forM fun name _ => .map _ (resolveName_keeps h)

theorem resolvePlaceholders_keeps : Keeps I c.resolvePlaceholders :=
  Reach.resolvePlaceholders_keeps (h.within (.everything c))

end Types

end SchemaGraph
