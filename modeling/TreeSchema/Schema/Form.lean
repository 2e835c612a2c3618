import TreeSchema.Schema.Basic
import TreeSchema.Schema.Error

/-!
# The grammar of schema sources, one layer deep

A source is a value: a type name, null, a directive (a sequence headed by a word)
or an object of fields. `Form.ofValue` tells the outermost form of a source and
leaves what is inside as it is; every reader of sources looks through it, so all
agree on the grammar. Errors are located relative to the source.

* `Form.fragments` — the sources inside a form, each smaller than the whole
  (`Form.size_lt_of_mem_fragments`).
* `FieldForm.ofValue` — a field of an object: its type, and whether it is optional.
-/

namespace TreeSchema

/-- The outermost form of a source. -/
inductive Form where
  | scalar (type : ScalarType)
  | any
  /-- The members may not be literals. -/
  | enum (members : OneOrMore Value)
  | tuple (elements : OneOrMore Value)
  | array (items : OneOrMore Value)
  | dictionary (values : Value)
  | oneof (alternatives : OneOrMore Value)
  | ref (label : String)
  | object (fields : Mapping Value)

namespace Form

/-- An error at the source itself. -/
private def here (fault : Fault) : SchemaError :=
  ⟨fault, []⟩

/-- An error at an item of the source. -/
private def atItem (i : Nat) (fault : Fault) : SchemaError :=
  ⟨fault, [.index i]⟩

/-- One or more arguments of a directive. -/
def someArguments (directive : Directive) : List Value → Except SchemaError (OneOrMore Value)
  | [] => .error (here (.invalidArity directive 0))
  | first :: others => .ok ⟨first, others⟩

/-- The form of a directive with the given arguments. -/
def ofDirective (directive : Directive) (arguments : List Value) : Except SchemaError Form :=
  match directive with
  | .enum => (someArguments .enum arguments).map enum
  | .tuple => (someArguments .tuple arguments).map tuple
  | .array => (someArguments .array arguments).map array
  | .oneof => (someArguments .oneof arguments).map oneof
  | .dictionary =>
    match arguments with
    | [values] => .ok (dictionary values)
    | _ => .error (here (.invalidArity .dictionary arguments.length))
  | .ref =>
    match arguments with
    | [.string label] => .ok (ref label)
    | [other] => .error (atItem 1 (.invalidReference other.kind))
    | _ => .error (here (.invalidArity .ref arguments.length))
  | .optional => .error (here .misplacedOptional)

/-- The form of a sequence. -/
def ofItems : List Value → Except SchemaError Form
  | [] => .error (here .emptyDirective)
  | .string word :: arguments =>
    match Directive.ofName? word with
    | some directive => ofDirective directive arguments
    | none => .error (atItem 0 (.unknownDirective word))
  | head :: _ => .error (atItem 0 (.invalidDirective head.kind))

/-- The form of a type name. -/
def ofName (name : String) : Except SchemaError Form :=
  if name = "any" then .ok any
  else
    match ScalarType.ofName? name with
    | some type => .ok (scalar type)
    | none => .error (here (.unknownType name))

/-- The form of a source. -/
def ofValue : Value → Except SchemaError Form
  | .null => .ok (scalar .null)
  | .string name => ofName name
  | .sequence items => ofItems items
  | .mapping fields => .ok (object fields)
  | other => .error (here (.invalidShape other.kind))

/-- The values inside a form. -/
def fragments : Form → List Value
  | enum members => members.toList
  | tuple elements => elements.toList
  | array items => items.toList
  | dictionary values => [values]
  | oneof alternatives => alternatives.toList
  | object fields => fields.values
  | _ => []

theorem toList_of_someArguments {directive : Directive} {arguments : List Value}
    {xs : OneOrMore Value} (h : someArguments directive arguments = .ok xs) :
    xs.toList = arguments := by
  cases arguments with
  | nil => cases h
  | cons first others => cases h; rfl

private theorem fragments_subset_of_ofDirective {directive : Directive}
    {arguments : List Value} {form : Form} (h : ofDirective directive arguments = .ok form) :
    form.fragments ⊆ arguments := by
  have many : ∀ {make : OneOrMore Value → Form},
      (∀ xs, (make xs).fragments = xs.toList) →
      (someArguments directive arguments).map make = .ok form → form.fragments ⊆ arguments := by
    intro make hm h
    cases ha : someArguments directive arguments with
    | error e => rw [ha] at h; cases h
    | ok xs =>
      rw [ha] at h
      cases h
      rw [hm, toList_of_someArguments ha]
      exact fun _ => id
  cases directive with
  | enum => exact many (fun _ => rfl) h
  | tuple => exact many (fun _ => rfl) h
  | array => exact many (fun _ => rfl) h
  | oneof => exact many (fun _ => rfl) h
  | dictionary =>
    simp only [ofDirective] at h
    split at h
    · cases h; exact fun _ => id
    · cases h
  | ref =>
    simp only [ofDirective] at h
    split at h
    · cases h; exact fun _ h => absurd h (by simp [fragments])
    · cases h
    · cases h
  | optional => cases h

/-- **What is inside a form is smaller than the source.** -/
theorem size_lt_of_mem_fragments {v x : Value} {form : Form} (h : ofValue v = .ok form)
    (hx : x ∈ form.fragments) : x.size < v.size := by
  cases v with
  | null => cases h; simp [fragments] at hx
  | string name =>
    simp only [ofValue, ofName] at h
    repeat' split at h
    all_goals cases h
    all_goals simp [fragments] at hx
  | sequence items =>
    simp only [ofValue] at h
    unfold ofItems at h
    split at h
    · cases h
    · next word arguments =>
      split at h
      · exact Value.size_lt_of_mem
          (List.mem_cons_of_mem _ (fragments_subset_of_ofDirective h hx))
      · cases h
    · cases h
  | mapping fields =>
    cases h
    obtain ⟨key, hk⟩ := Mapping.mem_values_iff.mp hx
    exact Value.size_lt_of_get? hk
  | _ => cases h

theorem toList_of_ofDirective {directive : Directive} {arguments : List Value}
    {alternatives : OneOrMore Value}
    (h : ofDirective directive arguments = .ok (oneof alternatives)) :
    alternatives.toList = arguments := by
  cases directive with
  | oneof =>
    cases arguments with
    | nil => cases h
    | cons first others =>
      cases h
      rfl
  | enum | tuple | array => cases arguments <;> cases h
  | dictionary | ref =>
    simp only [ofDirective] at h
    split at h <;> cases h
  | optional => cases h

/-- **The alternatives of a union are smaller than the source, all together.** -/
theorem total_size_lt_of_oneof {v : Value} {alternatives : OneOrMore Value}
    (h : ofValue v = .ok (oneof alternatives)) :
    total Value.size alternatives.toList < v.size := by
  cases v with
  | string name =>
    simp only [ofValue, ofName] at h
    repeat' split at h
    all_goals cases h
  | sequence items =>
    simp only [ofValue] at h
    unfold ofItems at h
    split at h
    · cases h
    · split at h
      · rw [toList_of_ofDirective h, Value.size, Value.sizeItems, Value.sizeItems_eq_total]
        omega
      · cases h
    · cases h
  | _ => cases h

end Form

/-- A field of an object in a source. -/
structure FieldForm where
  optional : Bool
  type : Value

namespace FieldForm

/-- A field whose value is a sequence headed by `optional` has its one argument as
its type; the value of any other field is its type. -/
def ofValue (v : Value) : Except SchemaError FieldForm :=
  match v with
  | .sequence (.string word :: arguments) =>
    if word = Directive.optional.name then
      match arguments with
      | [type] => .ok ⟨true, type⟩
      | _ => .error ⟨.invalidArity .optional arguments.length, []⟩
    else .ok ⟨false, v⟩
  | _ => .ok ⟨false, v⟩

theorem size_le_of_ofValue {v : Value} {field : FieldForm} (h : ofValue v = .ok field) :
    field.type.size ≤ v.size := by
  unfold ofValue at h
  split at h
  · split at h
    · split at h
      · cases h
        exact Nat.le_of_lt (Value.size_lt_of_mem (by simp))
      · cases h
    · cases h
      exact Nat.le_refl _
  · cases h
    exact Nat.le_refl _

end FieldForm

end TreeSchema
