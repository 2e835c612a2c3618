import TreeSchema.Document.Reading

/-!
# Sources, layer by layer

Reading a source, listing its errors and deciding whether it has any are recursions
along the same grammar. `Form.read`, `Form.diagnostics` and `Form.isWellFormed` are what
each of them does with the outermost form of a source, given what is done with the
fragments inside.

* `Schema.ofSource_eq`, `Schema.diagnostics_eq`, `Schema.isWellFormed_eq` — the recursions
  in terms of their layers.
* `Form.induction` — induction along the fragments of a source.
-/

namespace TreeSchema

namespace FieldForm

/-- Reads a field of an object, given how types are read. -/
def read (readType : Value → Except SchemaError (Schema Unit)) (key : String) (v : Value) :
    Except SchemaError (Field (Schema Unit)) :=
  match ofValue v with
  | .error error => Schema.within [.key key] (.error error)
  | .ok field => do
    let type ← Schema.within (Rule.fieldPath key field.optional) (readType field.type)
    return ⟨field.optional, type⟩

/-- The errors of a field of an object, given those of types. -/
def diagnostics (typeErrors : Value → List SchemaError) (key : String) (v : Value) :
    List SchemaError :=
  match ofValue v with
  | .error error => Schema.errorsWithin [.key key] [error]
  | .ok field => Schema.errorsWithin (Rule.fieldPath key field.optional) (typeErrors field.type)

/-- A field of an object is free of errors, given which types are. -/
def isWellFormed (typeIsWellFormed : Value → Bool) (v : Value) : Bool :=
  match ofValue v with
  | .error _ => false
  | .ok field => typeIsWellFormed field.type

end FieldForm

namespace Form

/-- Reads the arguments of a directive, given how fragments are read. -/
def readArguments (readFragment : Value → Except SchemaError (Schema Unit))
    (arguments : OneOrMore Value) : Except SchemaError (OneOrMore (Schema Unit)) :=
  arguments.traverse 0 fun i x _ => Schema.within (Rule.argumentPath i) (readFragment x)

/-- The errors of the arguments of a directive, given those of fragments. -/
def argumentErrors (fragmentErrors : Value → List SchemaError) (arguments : OneOrMore Value) :
    List SchemaError :=
  (arguments.toList.mapIdx fun i x =>
    Schema.errorsWithin (Rule.argumentPath i) (fragmentErrors x)).flatten

/-- Reads a form, given how the fragments inside are read. -/
def read (defined : String → Bool) (readFragment : Value → Except SchemaError (Schema Unit)) :
    Form → Except SchemaError (Schema Unit)
  | scalar type => .ok (.node () (.scalar type))
  | any => .ok (.node () .any)
  | enum members => do
    let members ← members.traverse 0 fun i x _ => Schema.memberOfSource i x
    return .node () (.enum members)
  | tuple elements => do
    let elements ← readArguments readFragment elements
    return .node () (.tuple elements)
  | array items => do
    let items ← readArguments readFragment items
    return .node () (.array items.initial items.last)
  | dictionary values => do
    let values ← Schema.within (Rule.argumentPath 0) (readFragment values)
    return .node () (.dictionary values)
  | oneof alternatives => do
    let alternatives ← readArguments readFragment alternatives
    return .node () (.oneof alternatives)
  | ref label => Schema.refOfSource defined label
  | object fields => do
    let fields ← fields.traverse fun e _ => FieldForm.read readFragment e.1 e.2
    return .node () (.object fields)

/-- The errors of a form, given those of the fragments inside. -/
def diagnostics (defined : String → Bool) (fragmentErrors : Value → List SchemaError) :
    Form → List SchemaError
  | scalar _ => []
  | any => []
  | enum members => (members.toList.mapIdx Schema.memberErrors).flatten
  | tuple elements => argumentErrors fragmentErrors elements
  | array items => argumentErrors fragmentErrors items
  | dictionary values => Schema.errorsWithin (Rule.argumentPath 0) (fragmentErrors values)
  | oneof alternatives => argumentErrors fragmentErrors alternatives
  | ref label => if defined label then [] else [⟨.undefinedLabel label, Rule.argumentPath 0⟩]
  | object fields => fields.entries.flatMap fun e => FieldForm.diagnostics fragmentErrors e.1 e.2

/-- A form is free of errors, given which of the fragments inside are. -/
def isWellFormed (defined : String → Bool) (fragmentIsWellFormed : Value → Bool) : Form → Bool
  | scalar _ => true
  | any => true
  | enum members => members.toList.all fun x => (Literal.ofValue? x).isSome
  | tuple elements => elements.toList.all fragmentIsWellFormed
  | array items => items.toList.all fragmentIsWellFormed
  | dictionary values => fragmentIsWellFormed values
  | oneof alternatives => alternatives.toList.all fragmentIsWellFormed
  | ref label => defined label
  | object fields => fields.entries.all fun e => FieldForm.isWellFormed fragmentIsWellFormed e.2

/-- **Induction along the fragments of a source.** What holds of a source if it holds of all
that are no larger than a fragment of it holds of every source. The type of a field is a
fragment or the argument of one, and so no larger. -/
theorem induction {motive : Value → Prop}
    (step : ∀ v, (∀ form, ofValue v = .ok form → ∀ x ∈ form.fragments, ∀ y, y.size ≤ x.size →
      motive y) → motive v) (v : Value) : motive v :=
  step v fun _ hf _ hx y hy =>
    have : y.size < v.size := Nat.lt_of_le_of_lt hy (size_lt_of_mem_fragments hf hx)
    induction step y
termination_by v.size

end Form

namespace Schema

/-- **Reading is reading layer by layer.** -/
theorem ofSource_eq (defined : String → Bool) (v : Value) :
    ofSource defined v = Form.ofValue v >>= Form.read defined (ofSource defined) := by
  rw [ofSource]
  split
  case h_10 fields hf =>
    rw [hf]
    refine congrArg (· >>= _) (congrArg fields.traverse ?_)
    funext e _
    rw [FieldForm.read]
    split
    · next error he => rw [he]
    · next field he => rw [he]
  all_goals
    rename_i hf
    rw [hf]
    rfl

theorem diagnostics_eq (defined : String → Bool) (v : Value) :
    diagnostics defined v =
      match Form.ofValue v with
      | .error e => [e]
      | .ok form => form.diagnostics defined (diagnostics defined) := by
  rw [diagnostics]
  split
  case h_10 fields hf =>
    rw [hf]
    refine (List.flatMap_subtype
      (g := fun e => FieldForm.diagnostics (diagnostics defined) e.1 e.2) fun e _ => ?_).trans ?_
    · simp only [FieldForm.diagnostics]
      split
      · next error he => rw [he]
      · next field he => rw [he]
    · rw [List.unattach_attach]
      rfl
  case h_5 | h_6 | h_8 =>
    rename_i hf
    rw [hf]
    exact congrArg List.flatten (mapIdx_attach fun _ _ => rfl)
  all_goals
    rename_i hf
    simp [hf, Form.diagnostics]

theorem isWellFormed_eq (defined : String → Bool) (v : Value) :
    isWellFormed defined v =
      match Form.ofValue v with
      | .error _ => false
      | .ok form => form.isWellFormed defined (isWellFormed defined) := by
  rw [isWellFormed]
  split
  case h_10 fields hf =>
    rw [hf]
    refine (List.all_subtype
      (g := fun e => FieldForm.isWellFormed (isWellFormed defined) e.2) fun e _ => ?_).trans ?_
    · simp only [FieldForm.isWellFormed]
      split
      · next error he => rw [he]
      · next field he => rw [he]
    · rw [List.unattach_attach]
      rfl
  case h_5 | h_6 | h_8 =>
    rename_i hf
    rw [hf, List.all_subtype (g := isWellFormed defined) (by simp), List.unattach_attach]
    rfl
  all_goals
    rename_i hf
    simp [hf, Form.isWellFormed]

end Schema

end TreeSchema
