import TreeSchema.Document.Nodes

/-!
# Equality of documents

Two documents are equal if they have the same labels in the same order and, node
by node, the same numbers, places and rules. Members of enumerations are compared
as values are, so a document with a member that is no number differs from itself.
-/

namespace TreeSchema

/-- The lists have one length and are related element by element. -/
def listsAgree {β : Type} (same : β → β → Bool) (xs ys : List β) : Bool :=
  xs.length == ys.length && (xs.zip ys).all fun p => same p.1 p.2

/-- Literals are equal as values. -/
def Literal.equal (l m : Literal) : Bool :=
  l.toValue == m.toValue

def Field.equal {β : Type} [BEq β] (f g : Field β) : Bool :=
  f.optional == g.optional && f.type == g.type

/-- The rules are equal and their parts are. -/
def Rule.equal {β : Type} [BEq β] : Rule β → Rule β → Bool
  | scalar type, scalar type' => type = type'
  | any, any => true
  | enum members, enum members' => listsAgree Literal.equal members.toList members'.toList
  | object fields, object fields' =>
    listsAgree (fun e e' => e.1 == e'.1 && e.2.equal e'.2) fields.entries fields'.entries
  | array initial rest, array initial' rest' => initial == initial' && rest == rest'
  | tuple elements, tuple elements' => elements.toList == elements'.toList
  | dictionary values, dictionary values' => values == values'
  | oneof alternatives, oneof alternatives' => alternatives.toList == alternatives'.toList
  | ref label, ref label' => label == label'
  | _, _ => false

/-- The rule of a node, its parts named by their numbers. -/
def Schema.layer (n : Node) : Rule Nat :=
  n.rule.mapParts fun _ _ part _ => part.mark.id

/-- The nodes stand at one place and have equal rules. -/
def Schema.agrees (n m : Node) : Bool :=
  n.mark = m.mark && n.layer.equal m.layer

/-- Documents are equal node by node. -/
def Document.equal (d e : Document Site) : Bool :=
  d.labels.keys == e.labels.keys && listsAgree Schema.agrees d.nodes e.nodes

end TreeSchema
