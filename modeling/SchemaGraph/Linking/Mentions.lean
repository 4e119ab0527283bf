import SchemaGraph.Linking.References

/-! What a declaration mentions at any depth: names of other declarations and inline definitions.  What
an inline definition mentions is listed behind it. -/
namespace SchemaGraph

inductive Mention
  | named (kind : DeclarationKind) (name : QName)
  /-- A definition that is declared inline in the element `context`, if in any. -/
  | inline (d : TypeDef) (context : Option QName)

mutual

def TypeRef.mentions (context : Option QName) : TypeRef → List Mention
  | .named name => [.named .type name]
  | .inline d => .inline d context :: d.mentions
  | .unspecified => []

def TypeDef.mentions : TypeDef → List Mention
  | ⟨_, _, body⟩ => body.mentions

def TypeBody.mentions : TypeBody → List Mention
  | .restriction base _ => base.mentions none
  | .list item => item.mentions none
  | .complex d => d.mentions
  | .builtin _ | .union => []

def ComplexDef.mentions : ComplexDef → List Mention
  | ⟨derivation, content, attributes, _⟩ =>
    derivation.base?.toList.map (.named .type) ++ content.mentions ++
      AttributeUse.mentionsList attributes

def Content.mentions : Content → List Mention
  | .elements group => group.mentions
  | .empty | .simple _ => []

def ModelGroup.mentions : ModelGroup → List Mention
  | ⟨_, _, particles⟩ => Particle.mentionsList particles

def Particle.mentionsList : List Particle → List Mention
  | [] => []
  | p :: rest => p.mentions ++ Particle.mentionsList rest

def Particle.mentions : Particle → List Mention
  | .element d => d.mentions
  | .elementRef name _ => [.named .element name]
  | .group g => g.mentions
  | .groupRef name _ => [.named .group name]
  | .any _ => []

def ElementDecl.mentions : ElementDecl → List Mention
  | ⟨name, typeRef, _, _, head⟩ =>
    head.toList.map (.named .element) ++ typeRef.mentions (some name)

def AttributeUse.mentionsList : List AttributeUse → List Mention
  | [] => []
  | use :: rest => use.mentions ++ AttributeUse.mentionsList rest

def AttributeUse.mentions : AttributeUse → List Mention
  | .declared ⟨_, typeRef⟩ => typeRef.mentions none
  | .reference name => [.named .attr name]
  | .group name => [.named .attributeGroup name]

end

def DeclarationSet.mentions (s : DeclarationSet) : List Mention :=
  s.types.values.flatMap TypeDef.mentions ++
    s.elements.values.flatMap ElementDecl.mentions ++
    s.attributes.values.flatMap (·.typeRef.mentions none) ++
    s.attributeGroups.values.flatMap (AttributeUse.mentionsList ·.attributes) ++
    s.groups.values.flatMap (·.group.mentions)

end SchemaGraph
