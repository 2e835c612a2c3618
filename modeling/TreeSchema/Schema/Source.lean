import TreeSchema.Schema.Error
import TreeSchema.Schema.Basic

/-!
# Schemas as sources

The canonical source of a schema: type names in their canonical spelling,
directives in the order of their parts, references by label.
-/

namespace TreeSchema

/-- A directive with its arguments. -/
def Directive.source (directive : Directive) (arguments : List Value) : Value :=
  .sequence (.string directive.name :: arguments)

/-- The source of a field, given that of its type. -/
def Field.source (field : Field Value) : Value :=
  if field.optional then Directive.optional.source [field.type] else field.type

/-- The source of a rule, given those of its parts. -/
def Rule.source : Rule Value → Value
  | scalar type => .string type.name
  | any => .string "any"
  | enum members => Directive.enum.source (members.toList.map Literal.toValue)
  | object fields => .mapping (fields.map Field.source)
  | array initial rest => Directive.array.source (initial ++ [rest])
  | tuple elements => Directive.tuple.source elements.toList
  | dictionary values => Directive.dictionary.source [values]
  | oneof alternatives => Directive.oneof.source alternatives.toList
  | ref label => Directive.ref.source [.string label]

/-- The source of a schema. -/
def Schema.toSource {α : Type} : Schema α → Value
  | node _ rule => (rule.mapParts fun _ _ part _ => part.toSource).source
termination_by n => n.size
decreasing_by exact size_lt_of_mem_parts ‹_›

end TreeSchema
