import TreeSchema.Proofs.Schema.Canonical
import Mathlib.Logic.Relation

/-!
# Labels without a guard

A label without a guard reaches itself by references and alternatives alone. The search for such
labels works on the sources, before any is read, and so on fragments with errors too: a reference
to a label that has no source leads nowhere, and what is no reference and no union is not looked
into.

`RefersTo` says, without the search, when the source of a label leads to another label, and the
search decides its transitive closure at a label.

* `Schema.mem_sourceHeads_iff` — the labels listed for a source are those that it meets.
* `Document.isUnguarded_iff` — **a label is unguarded exactly if a chain of references leads from
  it back to it.**
-/

namespace TreeSchema

/-- The source is the reference to a label, or a union one of whose alternatives meets it. -/
inductive Value.Meets (label : String) : Value → Prop
  | reference : Meets label (Directive.ref.source [.string label])
  | alternative {alternatives : List Value} {v : Value} (mem : v ∈ alternatives)
      (meets : Meets label v) : Meets label (Directive.oneof.source alternatives)

namespace Form

theorem ofValue_reference (label : String) :
    ofValue (Directive.ref.source [.string label]) = .ok (ref label) := rfl

theorem ofValue_union (first : Value) (others : List Value) :
    ofValue (Directive.oneof.source (first :: others)) = .ok (oneof ⟨first, others⟩) := rfl

end Form

/-- **The labels listed for a source are those that it meets.** -/
theorem Schema.mem_sourceHeads_iff {label : String} {v : Value} :
    label ∈ sourceHeads v ↔ v.Meets label := by
  constructor
  · intro h
    induction v using Form.induction with
    | step v inside =>
    cases hform : Form.ofValue v with
    | error e =>
      rw [sourceHeads_eq_nil (by simp [hform]) (by simp [hform])] at h
      cases h
    | ok form =>
      have spelled := Form.eq_source_of_ofValue hform
      cases form with
      | oneof alternatives =>
        rw [sourceHeads_oneof hform, List.mem_flatMap] at h
        obtain ⟨x, hx, h⟩ := h
        rw [← spelled.resolve_right (by simp)]
        exact .alternative hx (inside _ hform x hx x (Nat.le_refl _) h)
      | ref other =>
        rw [sourceHeads_ref hform, List.mem_singleton] at h
        rw [← spelled.resolve_right (by simp), ← h]
        exact .reference
      | _ =>
        rw [sourceHeads_eq_nil (by simp [hform]) (by simp [hform])] at h
        cases h
  · intro h
    induction h with
    | reference =>
      rw [sourceHeads_ref (Form.ofValue_reference label)]
      exact List.mem_singleton_self label
    | @alternative alternatives v mem _ ih =>
      cases alternatives with
      | nil => cases mem
      | cons first others =>
        rw [sourceHeads_oneof (Form.ofValue_union first others), List.mem_flatMap]
        exact ⟨v, mem, ih⟩

namespace Document

variable {sources : Mapping Value} {label other : String}

/-- The source of a label meets another label. -/
def RefersTo (sources : Mapping Value) (label other : String) : Prop :=
  ∃ body, sources.get? label = some body ∧ body.Meets other

theorem mem_sourceLabelHeads_iff :
    other ∈ sourceLabelHeads sources label ↔ RefersTo sources label other := by
  unfold sourceLabelHeads RefersTo
  cases sources.get? label with
  | none => simp
  | some body => simp [Schema.mem_sourceHeads_iff]

theorem RefersTo.mem_keys (h : RefersTo sources label other) : label ∈ sources.keys := by
  obtain ⟨body, found, -⟩ := h
  exact Mapping.mem_keys_of_get? found

/-- A walk of the search is a chain of references that ends at a label with a source. -/
theorem walk_iff {first : String} :
    Search.Walk (sourceLabelHeads sources) sources.keys first label ↔
      label ∈ sources.keys ∧ Relation.ReflTransGen (RefersTo sources) first label := by
  constructor
  · intro walk
    apply And.intro walk.mem_end
    induction walk with
    | here => exact .refl
    | step _ next _ ih => exact .head (mem_sourceLabelHeads_iff.mp next) ih
  · rintro ⟨present, chain⟩
    induction chain using Relation.ReflTransGen.head_induction_on with
    | refl => exact .here present
    | head refers _ ih => exact .step refers.mem_keys (mem_sourceLabelHeads_iff.mpr refers) ih

/-- **A label is unguarded exactly if a chain of references leads from it back to it.** -/
theorem isUnguarded_iff :
    isUnguarded sources label = true ↔ Relation.TransGen (RefersTo sources) label label := by
  rw [isUnguarded_iff_mem_reach, Search.reach, Search.mem_visit_iff,
    Relation.TransGen.head'_iff]
  constructor
  · rintro ⟨first, met, walk⟩
    exact ⟨first, mem_sourceLabelHeads_iff.mp met, (walk_iff.mp walk).2⟩
  · rintro ⟨first, refers, chain⟩
    exact ⟨first, mem_sourceLabelHeads_iff.mpr refers, walk_iff.mpr ⟨refers.mem_keys, chain⟩⟩

end Document

end TreeSchema
