import TreeSchema.Schema.Form
import TreeSchema.Traversal

/-!
# Reading schemas from sources

`Schema.ofSource` reads a source into a schema without marks, given which labels
are defined, and stops at the first error on the way through the source, located
relative to it.

* `Schema.sourceHeads` — the labels that a source, well-formed or not, meets by
  references and alternatives alone.
* `Schema.heads_of_ofSource` — what is read meets the same labels.
-/

namespace TreeSchema.Schema

/-- Locates an error of a part of a source. -/
def within {α : Type} (path : Path) (result : Except SchemaError α) : Except SchemaError α :=
  result.mapError (·.under path)

/-- A member of an enumeration, given its position. -/
def memberOfSource (i : Nat) (v : Value) : Except SchemaError Literal :=
  match Literal.ofValue? v with
  | some literal => .ok literal
  | none => .error ⟨.invalidEnumMember v.kind, Rule.argumentPath i⟩

/-- A reference to a label. -/
def refOfSource (defined : String → Bool) (label : String) : Except SchemaError (Schema Unit) :=
  if defined label then .ok (node () (.ref label))
  else .error ⟨.undefinedLabel label, Rule.argumentPath 0⟩

/-- Reads a source. -/
def ofSource (defined : String → Bool) (v : Value) : Except SchemaError (Schema Unit) :=
  match _h : Form.ofValue v with
  | .error e => .error e
  | .ok (.scalar type) => .ok (node () (.scalar type))
  | .ok .any => .ok (node () .any)
  | .ok (.enum members) => do
    let members ← members.traverse 0 fun i x _ => memberOfSource i x
    return node () (.enum members)
  | .ok (.tuple elements) => do
    let elements ← elements.traverse 0 fun i x _ =>
      within (Rule.argumentPath i) (ofSource defined x)
    return node () (.tuple elements)
  | .ok (.array items) => do
    let items ← items.traverse 0 fun i x _ =>
      within (Rule.argumentPath i) (ofSource defined x)
    return node () (.array items.initial items.last)
  | .ok (.dictionary values) => do
    let values ← within (Rule.argumentPath 0) (ofSource defined values)
    return node () (.dictionary values)
  | .ok (.oneof alternatives) => do
    let alternatives ← alternatives.traverse 0 fun i x _ =>
      within (Rule.argumentPath i) (ofSource defined x)
    return node () (.oneof alternatives)
  | .ok (.ref label) => refOfSource defined label
  | .ok (.object fields) => do
    let fields ← fields.traverse fun e _ =>
      match _hf : FieldForm.ofValue e.2 with
      | .error error => within [.key e.1] (.error error)
      | .ok field => do
        let type ← within (Rule.fieldPath e.1 field.optional) (ofSource defined field.type)
        return Field.mk field.optional type
    return node () (.object fields)
termination_by v.size
decreasing_by
  · exact Form.size_lt_of_mem_fragments _h ‹_›
  · exact Form.size_lt_of_mem_fragments _h ‹_›
  · exact Form.size_lt_of_mem_fragments _h List.mem_cons_self
  · exact Form.size_lt_of_mem_fragments _h ‹_›
  · exact Nat.lt_of_le_of_lt (FieldForm.size_le_of_ofValue _hf)
      (Form.size_lt_of_mem_fragments _h (List.mem_map_of_mem ‹_›))

/-- The labels that a source meets by references and alternatives alone. -/
def sourceHeads (v : Value) : List String :=
  match _h : Form.ofValue v with
  | .ok (.oneof alternatives) =>
    alternatives.toList.attach.flatMap fun ⟨x, _⟩ => sourceHeads x
  | .ok (.ref label) => [label]
  | _ => []
termination_by v.size
decreasing_by exact Form.size_lt_of_mem_fragments _h ‹_›

theorem within_eq_ok {α : Type} {path : Path} {result : Except SchemaError α} {a : α}
    (h : within path result = .ok a) : result = .ok a := by
  cases result with
  | error e => cases h
  | ok b => exact h

theorem sourceHeads_oneof {v : Value} {alternatives : OneOrMore Value}
    (h : Form.ofValue v = .ok (.oneof alternatives)) :
    sourceHeads v = alternatives.toList.flatMap sourceHeads := by
  rw [sourceHeads]
  split
  · next alternatives' h' =>
    obtain rfl : alternatives = alternatives' := by simpa using h.symm.trans h'
    rw [List.flatMap_subtype (g := sourceHeads) (by simp), List.unattach_attach]
  · next h' => simp [h] at h'
  · next h' _ => exact absurd h (h' alternatives)

theorem sourceHeads_ref {v : Value} {label : String}
    (h : Form.ofValue v = .ok (.ref label)) : sourceHeads v = [label] := by
  rw [sourceHeads]
  split
  · next h' => simp [h] at h'
  · next label' h' => simp [h] at h'; simp [h']
  · next h' => exact absurd h (h' label)

theorem sourceHeads_eq_nil {v : Value} (ho : ∀ xs, Form.ofValue v ≠ .ok (.oneof xs))
    (hr : ∀ label, Form.ofValue v ≠ .ok (.ref label)) : sourceHeads v = [] := by
  rw [sourceHeads]
  split
  · next h => exact absurd h (ho _)
  · next h => exact absurd h (hr _)
  · rfl

/-- **Reading keeps the labels met by references and alternatives alone.** -/
theorem heads_of_ofSource {defined : String → Bool} {v : Value} {n : Schema Unit}
    (h : ofSource defined v = .ok n) : n.heads = sourceHeads v := by
  induction hs : v.size using Nat.strongRecOn generalizing v n with
  | ind size ih =>
  rw [ofSource] at h
  split at h
  case h_1 => cases h
  case h_8 alternatives hf =>
    obtain ⟨read, hread, h⟩ := bind_eq_ok h
    cases h
    have same := OneOrMore.map_eq_of_traverse (g := heads) (k := sourceHeads)
      (fun i x hx y hy =>
        ih x.size (hs ▸ Form.size_lt_of_mem_fragments hf hx) (within_eq_ok hy) rfl) hread
    rw [heads_oneof, sourceHeads_oneof hf, List.flatMap_def, List.flatMap_def, same]
  case h_9 label hf =>
    rw [refOfSource] at h
    split at h
    · cases h
      rw [heads_ref, sourceHeads_ref hf]
    · cases h
  all_goals
    rename_i hf
    rw [sourceHeads_eq_nil (by simp [hf]) (by simp [hf])]
  case h_2 => cases h; simp [heads]
  case h_3 => cases h; simp [heads]
  all_goals
    obtain ⟨_, _, h⟩ := bind_eq_ok h
    cases h
    simp [heads]

end TreeSchema.Schema
