import TreeSchema.Schema.Form

/-!
# Checking schema sources

`Schema.diagnostics` walks a whole source and lists every error in it, in the
order of the source, where reading stops at the first. `Schema.isWellFormed` only
decides whether there is one.
-/

namespace TreeSchema.Schema

/-- The errors of a part of a source, located in the whole. -/
def errorsWithin (path : Path) (errors : List SchemaError) : List SchemaError :=
  errors.map (·.under path)

/-- The error of a member of an enumeration, given its position. -/
def memberErrors (i : Nat) (v : Value) : List SchemaError :=
  if (Literal.ofValue? v).isSome then []
  else [⟨.invalidEnumMember v.kind, Rule.argumentPath i⟩]

/-- Every error of a source, given which labels are defined. -/
def diagnostics (defined : String → Bool) (v : Value) : List SchemaError :=
  match _h : Form.ofValue v with
  | .error e => [e]
  | .ok (.scalar _) => []
  | .ok .any => []
  | .ok (.enum members) => (members.toList.mapIdx memberErrors).flatten
  | .ok (.tuple elements) =>
    (elements.toList.attach.mapIdx fun i ⟨x, _⟩ =>
      errorsWithin (Rule.argumentPath i) (diagnostics defined x)).flatten
  | .ok (.array items) =>
    (items.toList.attach.mapIdx fun i ⟨x, _⟩ =>
      errorsWithin (Rule.argumentPath i) (diagnostics defined x)).flatten
  | .ok (.dictionary values) =>
    errorsWithin (Rule.argumentPath 0) (diagnostics defined values)
  | .ok (.oneof alternatives) =>
    (alternatives.toList.attach.mapIdx fun i ⟨x, _⟩ =>
      errorsWithin (Rule.argumentPath i) (diagnostics defined x)).flatten
  | .ok (.ref label) =>
    if defined label then [] else [⟨.undefinedLabel label, Rule.argumentPath 0⟩]
  | .ok (.object fields) =>
    fields.entries.attach.flatMap fun ⟨e, _⟩ =>
      match _hf : FieldForm.ofValue e.2 with
      | .error error => errorsWithin [.key e.1] [error]
      | .ok field =>
        errorsWithin (Rule.fieldPath e.1 field.optional) (diagnostics defined field.type)
termination_by v.size
decreasing_by
  · exact Form.size_lt_of_mem_fragments _h ‹_›
  · exact Form.size_lt_of_mem_fragments _h ‹_›
  · exact Form.size_lt_of_mem_fragments _h List.mem_cons_self
  · exact Form.size_lt_of_mem_fragments _h ‹_›
  · exact Nat.lt_of_le_of_lt (FieldForm.size_le_of_ofValue _hf)
      (Form.size_lt_of_mem_fragments _h (List.mem_map_of_mem ‹_›))

/-- A source is free of errors, given which labels are defined. -/
def isWellFormed (defined : String → Bool) (v : Value) : Bool :=
  match _h : Form.ofValue v with
  | .error _ => false
  | .ok (.scalar _) => true
  | .ok .any => true
  | .ok (.enum members) => members.toList.all fun x => (Literal.ofValue? x).isSome
  | .ok (.tuple elements) => elements.toList.attach.all fun ⟨x, _⟩ => isWellFormed defined x
  | .ok (.array items) => items.toList.attach.all fun ⟨x, _⟩ => isWellFormed defined x
  | .ok (.dictionary values) => isWellFormed defined values
  | .ok (.oneof alternatives) =>
    alternatives.toList.attach.all fun ⟨x, _⟩ => isWellFormed defined x
  | .ok (.ref label) => defined label
  | .ok (.object fields) =>
    fields.entries.attach.all fun ⟨e, _⟩ =>
      match _hf : FieldForm.ofValue e.2 with
      | .error _ => false
      | .ok field => isWellFormed defined field.type
termination_by v.size
decreasing_by
  · exact Form.size_lt_of_mem_fragments _h ‹_›
  · exact Form.size_lt_of_mem_fragments _h ‹_›
  · exact Form.size_lt_of_mem_fragments _h List.mem_cons_self
  · exact Form.size_lt_of_mem_fragments _h ‹_›
  · exact Nat.lt_of_le_of_lt (FieldForm.size_le_of_ofValue _hf)
      (Form.size_lt_of_mem_fragments _h (List.mem_map_of_mem ‹_›))

end TreeSchema.Schema
