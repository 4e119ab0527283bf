import SchemaGraph.Declaration.Basic

/-! Structural equality of declarations. -/
namespace SchemaGraph

mutual

def TypeRef.beq : TypeRef → TypeRef → Bool
  | .named a, .named b => a == b
  | .inline a, .inline b => a.beq b
  | .unspecified, .unspecified => true
  | _, _ => false

def TypeDef.beq : TypeDef → TypeDef → Bool
  | ⟨n, a, b⟩, ⟨n', a', b'⟩ => n == n' && a == a' && b.beq b'

def TypeBody.beq : TypeBody → TypeBody → Bool
  | .builtin a, .builtin b => a == b
  | .restriction a e, .restriction b f => a.beq b && e == f
  | .list a, .list b => a.beq b
  | .union, .union => true
  | .complex a, .complex b => a.beq b
  | _, _ => false

def ComplexDef.beq : ComplexDef → ComplexDef → Bool
  | ⟨d, c, u, w⟩, ⟨d', c', u', w'⟩ =>
    d == d' && c.beq c' && AttributeUse.beqList u u' && w == w'

def Content.beq : Content → Content → Bool
  | .empty, .empty => true
  | .elements a, .elements b => a.beq b
  | .simple a, .simple b => a == b
  | _, _ => false

def ModelGroup.beq : ModelGroup → ModelGroup → Bool
  | ⟨c, o, p⟩, ⟨c', o', p'⟩ => c == c' && o == o' && Particle.beqList p p'

def Particle.beq : Particle → Particle → Bool
  | .element a, .element b => a.beq b
  | .elementRef n o, .elementRef n' o' => n == n' && o == o'
  | .group a, .group b => a.beq b
  | .groupRef n o, .groupRef n' o' => n == n' && o == o'
  | .any o, .any o' => o == o'
  | _, _ => false

def Particle.beqList : List Particle → List Particle → Bool
  | [], [] => true
  | a :: r, b :: s => a.beq b && Particle.beqList r s
  | _, _ => false

def ElementDecl.beq : ElementDecl → ElementDecl → Bool
  | ⟨n, t, o, a, h⟩, ⟨n', t', o', a', h'⟩ =>
    n == n' && t.beq t' && o == o' && a == a' && h == h'

def AttributeDecl.beq : AttributeDecl → AttributeDecl → Bool
  | ⟨n, t⟩, ⟨n', t'⟩ => n == n' && t.beq t'

def AttributeUse.beq : AttributeUse → AttributeUse → Bool
  | .declared a, .declared b => a.beq b
  | .reference a, .reference b => a == b
  | .group a, .group b => a == b
  | _, _ => false

def AttributeUse.beqList : List AttributeUse → List AttributeUse → Bool
  | [], [] => true
  | a :: r, b :: s => a.beq b && AttributeUse.beqList r s
  | _, _ => false

end

instance : BEq TypeRef := ⟨TypeRef.beq⟩
instance : BEq TypeDef := ⟨TypeDef.beq⟩
instance : BEq ElementDecl := ⟨ElementDecl.beq⟩
instance : BEq Particle := ⟨Particle.beq⟩

mutual

theorem TypeRef.beq_iff : ∀ a b : TypeRef, a.beq b = true ↔ a = b
  | .named a, b => by cases b <;> simp [TypeRef.beq]
  | .inline a, b => by cases b <;> simp [TypeRef.beq, TypeDef.beq_iff a]
  | .unspecified, b => by cases b <;> simp [TypeRef.beq]

theorem TypeDef.beq_iff : ∀ a b : TypeDef, a.beq b = true ↔ a = b
  | ⟨n, a, b⟩, ⟨n', a', b'⟩ => by simp [TypeDef.beq, TypeBody.beq_iff b, and_assoc]

theorem TypeBody.beq_iff : ∀ a b : TypeBody, a.beq b = true ↔ a = b
  | .builtin a, b => by cases b <;> simp [TypeBody.beq]
  | .restriction a e, b => by cases b <;> simp [TypeBody.beq, TypeRef.beq_iff a]
  | .list a, b => by cases b <;> simp [TypeBody.beq, TypeRef.beq_iff a]
  | .union, b => by cases b <;> simp [TypeBody.beq]
  | .complex a, b => by cases b <;> simp [TypeBody.beq, ComplexDef.beq_iff a]

theorem ComplexDef.beq_iff : ∀ a b : ComplexDef, a.beq b = true ↔ a = b
  | ⟨d, c, u, w⟩, ⟨d', c', u', w'⟩ => by
    simp [ComplexDef.beq, Content.beq_iff c, AttributeUse.beqList_iff u, and_assoc]

theorem Content.beq_iff : ∀ a b : Content, a.beq b = true ↔ a = b
  | .empty, b => by cases b <;> simp [Content.beq]
  | .elements a, b => by cases b <;> simp [Content.beq, ModelGroup.beq_iff a]
  | .simple a, b => by cases b <;> simp [Content.beq]

theorem ModelGroup.beq_iff : ∀ a b : ModelGroup, a.beq b = true ↔ a = b
  | ⟨c, o, p⟩, ⟨c', o', p'⟩ => by simp [ModelGroup.beq, Particle.beqList_iff p, and_assoc]

theorem Particle.beq_iff : ∀ a b : Particle, a.beq b = true ↔ a = b
  | .element a, b => by cases b <;> simp [Particle.beq, ElementDecl.beq_iff a]
  | .elementRef n o, b => by cases b <;> simp [Particle.beq]
  | .group a, b => by cases b <;> simp [Particle.beq, ModelGroup.beq_iff a]
  | .groupRef n o, b => by cases b <;> simp [Particle.beq]
  | .any o, b => by cases b <;> simp [Particle.beq]

theorem Particle.beqList_iff : ∀ a b : List Particle, Particle.beqList a b = true ↔ a = b
  | [], b => by cases b <;> simp [Particle.beqList]
  | a :: r, b => by cases b <;> simp [Particle.beqList, Particle.beq_iff a, Particle.beqList_iff r]

theorem ElementDecl.beq_iff : ∀ a b : ElementDecl, a.beq b = true ↔ a = b
  | ⟨n, t, o, a, h⟩, ⟨n', t', o', a', h'⟩ => by
    simp [ElementDecl.beq, TypeRef.beq_iff t, and_assoc]

theorem AttributeDecl.beq_iff : ∀ a b : AttributeDecl, a.beq b = true ↔ a = b
  | ⟨n, t⟩, ⟨n', t'⟩ => by simp [AttributeDecl.beq, TypeRef.beq_iff t]

theorem AttributeUse.beq_iff : ∀ a b : AttributeUse, a.beq b = true ↔ a = b
  | .declared a, b => by cases b <;> simp [AttributeUse.beq, AttributeDecl.beq_iff a]
  | .reference a, b => by cases b <;> simp [AttributeUse.beq]
  | .group a, b => by cases b <;> simp [AttributeUse.beq]

theorem AttributeUse.beqList_iff :
    ∀ a b : List AttributeUse, AttributeUse.beqList a b = true ↔ a = b
  | [], b => by cases b <;> simp [AttributeUse.beqList]
  | a :: r, b => by
    cases b <;> simp [AttributeUse.beqList, AttributeUse.beq_iff a, AttributeUse.beqList_iff r]

end

instance : LawfulBEq ElementDecl where
  eq_of_beq := (ElementDecl.beq_iff _ _).1
  rfl := (ElementDecl.beq_iff _ _).2 rfl

instance : LawfulBEq TypeRef where
  eq_of_beq := (TypeRef.beq_iff _ _).1
  rfl := (TypeRef.beq_iff _ _).2 rfl

end SchemaGraph
