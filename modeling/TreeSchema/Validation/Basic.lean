import TreeSchema.Document.Basic
import TreeSchema.Traversal
import TreeSchema.Validation.Mismatch

/-!
# Validation

`Document.validate` lists every mismatch between a value and a schema of a
document, in the order of the schema; a value conforms if there is none. Strict
validation also reports the keys of objects that are not declared.

A union fits as soon as one alternative does, and the alternatives behind that
one are not looked at; otherwise the union is one mismatch. A reference to a label
that is not in the document asks for nothing; there is none in a document that was
read from a source.
-/

namespace TreeSchema

/-- The value is equal to a member. -/
def OneOrMore.hasValue (members : OneOrMore Literal) (v : Value) : Bool :=
  members.toList.any fun member => member.toValue == v

/-- What a value that is not of a scalar type disagrees about. -/
def ScalarType.disagreement (type : ScalarType) (v : Value) : Disagreement :=
  match type, v with
  | .integer, .number n => .notAnInteger n
  | _, _ => .typeMismatch (.scalar type) v.kind

/-- The mismatches of an alternative that does not fit. -/
def someMismatches? {α : Type} : List (Mismatch α) → Option (List (Mismatch α))
  | [] => none
  | mismatches => some mismatches

namespace Document

variable {α : Type}

/-- The mismatches between a value, found at a path, and a schema. -/
def validate (d : Document α) (strict : Bool) (n : Schema α) (v : Value) (path : Path) :
    List (Mismatch α) :=
  match n with
  | .node mark rule =>
    let fail (disagreement : Disagreement) : List (Mismatch α) :=
      [⟨disagreement, mark, v, path, []⟩]
    match rule with
    | .any => []
    | .scalar type => if type.accepts v then [] else fail (type.disagreement v)
    | .enum members => if members.hasValue v then [] else fail (.notInEnum members)
    | .object fields =>
      match v with
      | .mapping values =>
        (fields.entries.flatMap fun e =>
          match _h : values.get? e.1 with
          | some x => d.validate strict e.2.type x (path ++ [.key e.1])
          | none =>
            if e.2.optional then []
            else [⟨.missingRequiredField e.1, e.2.type.mark, .mapping values, path, []⟩]) ++
        if strict then
          (values.entries.filter fun e => !fields.contains e.1).map fun e =>
            ⟨.unknownField e.1, mark, e.2, path ++ [.key e.1], []⟩
        else []
      | _ => fail (.typeMismatch .object v.kind)
    | .array initial rest =>
      match v with
      | .sequence items =>
        (if items.length < initial.length then
          fail (.arrayTooShort initial.length items.length) else []) ++
        (items.attach.mapIdx fun i ⟨x, _⟩ =>
          d.validate strict (Rule.itemAt initial rest i) x (path ++ [.index i])).flatten
      | _ => fail (.typeMismatch .array v.kind)
    | .tuple elements =>
      match v with
      | .sequence items =>
        (if items.length ≠ elements.toList.length then
          fail (.tupleLengthMismatch elements.toList.length items.length) else []) ++
        ((items.attach.zip elements.toList).mapIdx fun i p =>
          d.validate strict p.2 p.1.1 (path ++ [.index i])).flatten
      | _ => fail (.typeMismatch .array v.kind)
    | .dictionary type =>
      match v with
      | .mapping values =>
        values.entries.attach.flatMap fun ⟨e, _⟩ =>
          d.validate strict type e.2 (path ++ [.key e.1])
      | _ => fail (.typeMismatch .object v.kind)
    | .oneof alternatives =>
      match traverse 0 alternatives.toList fun _ alternative _ =>
          someMismatches? (d.validate strict alternative v path) with
      | some failures => [⟨.noAlternativeMatched failures.length, mark, v, path, failures⟩]
      | none => []
    | .ref label =>
      match _h : d.body? label with
      | some body => d.validate strict body v path
      | none => []
termination_by (v.size, d.height n)
decreasing_by
  · exact .left _ _ (Value.size_lt_of_get? _h)
  · exact .left _ _ (Value.size_lt_of_mem ‹_›)
  · exact .left _ _ (Value.size_lt_of_mem p.1.2)
  · exact .left _ _ (Value.size_lt_of_mem_entries ‹_›)
  · exact .right _ (d.height_alternative_lt ‹_›)
  · exact .right _ (d.height_target_lt _h)

/-- The value conforms strictly to the schema. -/
def conforms (d : Document α) (n : Schema α) (v : Value) : Bool :=
  (d.validate true n v []).isEmpty

end Document

end TreeSchema
