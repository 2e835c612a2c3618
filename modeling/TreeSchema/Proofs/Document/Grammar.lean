import TreeSchema.Proofs.Document.Unguarded

/-!
# What can be wrong in a source, and where

The grammar of sources gives every fragment of a source a *role*: the source of a document has
a version, labels and a root, a directive has a head and arguments, an object has fields.
`Part` is one step of the grammar and `Contains` a way through a source, each with the path
that it takes. Malformed fragments have roles as well: a directive that takes its arguments
gives them roles whatever they are.

`Shows` says when a fragment is at fault in its role, and with which fault. It looks at the
fragment alone; only a label needs to know which labels there are and where their sources lead.

* `Part.atPath?_eq`, `Contains.atPath?_eq` — a way through a source leads to the fragment at
  its path.
* `Part.weight_lt` — parts are smaller, or of the same size and closer to a type.
-/

namespace TreeSchema

/-- What a fragment of a source is there for. -/
inductive Role where
  | document
  | version
  | labels
  /-- The source of a label. -/
  | body (label : String)
  | type
  /-- The value of a key of an object. -/
  | field
  /-- The word that heads a directive. -/
  | head
  | member
  | label

/-- Fields and the sources of labels stand before the types that they are. -/
def Role.rank : Role → Nat
  | body _ | field => 1
  | _ => 0

theorem Role.rank_le (role : Role) : role.rank ≤ 1 := by
  cases role <;> simp [rank]

namespace Directive

/-- The directive takes so many arguments. -/
def takes (directive : Directive) (n : Nat) : Bool :=
  match directive with
  | enum | tuple | array | oneof => 0 < n
  | dictionary | ref | optional => n = 1

/-- The role of the arguments of the directive. -/
def argumentRole : Directive → Role
  | enum => .member
  | ref => .label
  | tuple | array | dictionary | oneof | optional => .type

end Directive

namespace Document

/-- The names that are types. -/
def typeNames : List String :=
  ["any", "null", "boolean", "integer", "float", "number", "string", "date", "binary"]

/-- The labels that a source defines. There are none if they are not given by a mapping. -/
def definedLabels : Value → Mapping Value
  | .mapping fields =>
    match fields.get? labelsKey with
    | some (.mapping sources) => sources
    | _ => ∅
  | _ => ∅

/-! ### Roles -/

/-- One step of the grammar: a fragment in a role has another one at a path, in a role of its
own. -/
inductive Part : Role → Value → Path → Role → Value → Prop
  | version {fields : Mapping Value} {v : Value} (found : fields.get? versionKey = some v) :
      Part .document (.mapping fields) versionPath .version v
  | labels {fields : Mapping Value} {v : Value} (found : fields.get? labelsKey = some v) :
      Part .document (.mapping fields) labelsPath .labels v
  | root {fields : Mapping Value} {v : Value} (found : fields.get? schemaKey = some v) :
      Part .document (.mapping fields) schemaPath .type v
  | body {sources : Mapping Value} {label : String} {v : Value}
      (found : sources.get? label = some v) :
      Part .labels (.mapping sources) [.key label] (.body label) v
  | definition {label : String} {v : Value} : Part (.body label) v [] .type v
  | head {v : Value} {arguments : List Value} :
      Part .type (.sequence (v :: arguments)) [.index 0] .head v
  | argument {directive : Directive} {arguments : List Value} {i : Nat} {v : Value}
      (placed : directive ≠ .optional) (arity : directive.takes arguments.length = true)
      (found : arguments[i]? = some v) :
      Part .type (directive.source arguments) (Rule.argumentPath i) directive.argumentRole v
  | field {fields : Mapping Value} {key : String} {v : Value}
      (found : fields.get? key = some v) :
      Part .type (.mapping fields) [.key key] .field v
  | required {v : Value} (always : ∀ arguments, v ≠ Directive.optional.source arguments) :
      Part .field v [] .type v
  | optional {v : Value} :
      Part .field (Directive.optional.source [v]) (Rule.argumentPath 0) .type v

/-- A way through a source, from a fragment in a role to another one. -/
inductive Contains : Role → Value → Path → Role → Value → Prop
  | here {role : Role} {v : Value} : Contains role v [] role v
  | step {role role' role'' : Role} {v w x : Value} {q p : Path} (part : Part role v q role' w)
      (rest : Contains role' w p role'' x) : Contains role v (q ++ p) role'' x

/-! ### Faults -/

/-- The fragment is at fault in its role, where the given labels are defined. -/
inductive Shows (labels : Mapping Value) : Role → Value → Fault → Prop
  | invalidRoot {v : Value} (kind : v.kind ≠ .mapping) :
      Shows labels .document v (.invalidRoot v.kind)
  | missingSchema {fields : Mapping Value} (missing : fields.get? schemaKey = none) :
      Shows labels .document (.mapping fields) .missingSchema
  | invalidVersion {v : Value} (other : v ≠ .number 1) : Shows labels .version v .invalidVersion
  | invalidLetBlock {v : Value} (kind : v.kind ≠ .mapping) :
      Shows labels .labels v (.invalidLetBlock v.kind)
  | unguardedRecursion {label : String} {v : Value}
      (cycle : Relation.TransGen (RefersTo labels) label label) :
      Shows labels (.body label) v (.unguardedRecursion label)
  | unknownType {name : String} (unknown : name ∉ typeNames) :
      Shows labels .type (.string name) (.unknownType name)
  | invalidShape {v : Value} (kind : v.kind ∉ [.null, .string, .sequence, .mapping]) :
      Shows labels .type v (.invalidShape v.kind)
  | emptyDirective : Shows labels .type (.sequence []) .emptyDirective
  | invalidDirective {v : Value} (kind : v.kind ≠ .string) :
      Shows labels .head v (.invalidDirective v.kind)
  | unknownDirective {word : String} (unknown : ∀ directive : Directive, word ≠ directive.name) :
      Shows labels .head (.string word) (.unknownDirective word)
  | invalidArity {directive : Directive} {arguments : List Value} (placed : directive ≠ .optional)
      (arity : directive.takes arguments.length = false) :
      Shows labels .type (directive.source arguments) (.invalidArity directive arguments.length)
  | optionalArity {arguments : List Value}
      (arity : Directive.optional.takes arguments.length = false) :
      Shows labels .field (Directive.optional.source arguments)
        (.invalidArity .optional arguments.length)
  | misplacedOptional {arguments : List Value} :
      Shows labels .type (Directive.optional.source arguments) .misplacedOptional
  | invalidEnumMember {v : Value} (kind : v.kind ∉ [.null, .bool, .number, .string]) :
      Shows labels .member v (.invalidEnumMember v.kind)
  | invalidReference {v : Value} (kind : v.kind ≠ .string) :
      Shows labels .label v (.invalidReference v.kind)
  | undefinedLabel {label : String} (undefined : label ∉ labels.keys) :
      Shows labels .label (.string label) (.undefinedLabel label)

/-! ### Ways and paths -/

variable {role role' : Role} {v w : Value} {q p : Path}

theorem Part.atPath?_eq (h : Part role v q role' w) : v.atPath? q = some w := by
  cases h with
  | version found | labels found | root found | body found | field found =>
    simp [versionPath, labelsPath, schemaPath, Value.atPath?, Value.child?, found]
  | definition | required => rfl
  | head => rfl
  | argument _ _ found =>
    simp [Directive.source, Rule.argumentPath, Value.atPath?, Value.child?, found]
  | optional => rfl

theorem Contains.atPath?_eq (h : Contains role v p role' w) : v.atPath? p = some w := by
  induction h with
  | here => rfl
  | step part _ ih => rw [Value.atPath?_append, part.atPath?_eq, Option.bind_some, ih]

/-- The size of a fragment, and below it the rank of its role. -/
def weight (role : Role) (v : Value) : Nat :=
  2 * v.size + role.rank

/-- **Parts are smaller**, or of the same size and closer to a type. -/
theorem Part.weight_lt (h : Part role v q role' w) : weight role' w < weight role v := by
  have smaller (less : w.size < v.size) : weight role' w < weight role v := by
    have := role'.rank_le
    unfold weight
    omega
  cases h with
  | version found | labels found | root found | body found | field found =>
    exact smaller (Value.size_lt_of_get? found)
  | definition | required => simp [weight, Role.rank]
  | head => exact smaller (Value.size_lt_of_mem List.mem_cons_self)
  | argument _ _ found =>
    exact smaller (Value.size_lt_of_mem (List.mem_cons_of_mem _ (List.mem_of_getElem? found)))
  | optional => exact smaller (Value.size_lt_of_mem (by simp))

end Document

end TreeSchema
