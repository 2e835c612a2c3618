import TreeSchema.Proofs.Restriction.Failure
import TreeSchema.Proofs.Restriction.Filling

/-!
# What is always filled

With zero values put in, restriction leaves something, unless it fails, and it fails only for a
cycle that the schema has to do with: one that the values on it force. In empty mode there are
objects, arrays and dictionaries at least; an array makes up its initial items in zero mode
where it has to.

* `Document.fillWithin_ne_of_hasFill` — objects, arrays and dictionaries in every mode.
* `Document.forcesCycle_of_restrict` — with zero values put in, an error is that of a cycle.
* `Document.restrict_total` — when restriction leaves something.
-/

namespace TreeSchema

/-- The rule describes objects, arrays or dictionaries, which are made up in every mode. -/
def Rule.hasFill {β : Type} : Rule β → Bool
  | .object _ | .array _ _ | .dictionary _ => true
  | _ => false

namespace Document

variable {α : Type} {d : Document α} {o : RestrictOptions} {n : Schema α} {v : Value}
  {e : RecursionError α}

/-- **Objects, arrays and dictionaries are made up in every mode**, unless a label is met
again. -/
theorem fillWithin_ne_of_hasFill (made : n.rule.hasFill = true) (mode : FillMode)
    (unfolding : List String) : d.fillWithin mode unfolding n ≠ .ok none := by
  obtain ⟨mark, rule⟩ := n
  intro h
  cases rule with
  | object fields =>
    rw [fillWithin] at h
    obtain ⟨values, -, h⟩ := bind_eq_ok h
    cases h
  | array initial rest =>
    rw [fillWithin] at h
    obtain ⟨items?, hitems, h⟩ := bind_eq_ok h
    cases items? with
    | some items => cases h
    | none =>
      obtain ⟨-, part, -, absent⟩ := exists_of_traverse_run_eq_none
        (f := fun _ part => orElse (d.fillWithin mode unfolding part) fun _ =>
          d.fillWithin .zero unfolding part) hitems
      exact d.fillWithin_zero_ne unfolding part (orElse_eq_ok_none absent)
  | dictionary type =>
    rw [fillWithin] at h
    cases h
  | _ => cases made

/-- With an option to fill, objects, arrays and dictionaries are left of every value. -/
theorem restrict_ne_of_hasFill (filled : o.fillEmpty = true ∨ o.fillZero = true)
    (made : n.rule.hasFill = true) : d.restrict o n v ≠ .ok none := by
  obtain ⟨mode, hm⟩ := RestrictOptions.exists_fillMode? filled
  intro h
  rcases origin_of_absence (by simp [hm]) h with h | ⟨m, unfolds, -⟩
  · rw [fillFor_of_fillMode? hm] at h
    exact fillWithin_ne_of_hasFill made mode [] h
  · cases unfolds <;> cases made

/-- **With zero values put in, restriction fails only for a cycle** that is forced, of something
that the schema has to do with. -/
theorem forcesCycle_of_restrict (zero : o.fillZero = true) (h : d.restrict o n v = .error e) :
    ∃ m, d.Involves n m ∧ d.ForcesCycle m := by
  obtain ⟨m, involved, asked, mode, hm, hmode, fails⟩ := exists_fillFailsAt_of_restrict h
  obtain rfl := (RestrictOptions.fills_of_fillMode? hm).2 zero
  obtain rfl : mode = .zero := hmode.elim id id
  exact ⟨m, involved, exists_zero_eq_error_iff.mp ⟨e, zero_eq_error_iff_fill.mpr fails⟩⟩

/-- **Filling is total.** With zero values put in, restriction leaves something of every value,
unless it fails; with empty collections put in it does so for objects, arrays and dictionaries
and references to them. And it does not fail with zero values put in unless the schema has to do
with a cycle of required fields, initial items, elements, first alternatives and targets. -/
theorem restrict_total (d : Document α) (n : Schema α) (v : Value) (o : RestrictOptions) :
    (o.fillZero = true → d.restrict o n v ≠ .ok none) ∧
    (o.fillEmpty = true → (d.resolve n).rule.hasFill = true → d.restrict o n v ≠ .ok none) ∧
    (o.fillZero = true → (∀ m, d.Involves n m → ¬ Relation.TransGen d.Forces m m) →
      ∃ r, d.restrict o n v = .ok (some r)) := by
  have left : o.fillZero = true → d.restrict o n v ≠ .ok none := fun zero =>
    restrict_zero_ne (RestrictOptions.fillMode?_of_fillZero zero) n v
  refine ⟨left, fun empty made => ?_, fun zero acyclic => ?_⟩
  · rw [← restrict_resolve]
    exact restrict_ne_of_hasFill (.inl empty) made
  · cases h : d.restrict o n v with
    | ok r? =>
      cases r? with
      | none => exact absurd h (left zero)
      | some r => exact ⟨r, rfl⟩
    | error e =>
      obtain ⟨m, involved, k, forced, cycle⟩ := forcesCycle_of_restrict zero h
      exact absurd cycle (acyclic k (involved.trans forced.involves))

/-- No part of an assembly forces a cycle, though parts are made of parts. -/
theorem acyclic_assembly {m : Node} (involved : assembly.locate.Involves assembly.locate.root m) :
    ¬ Relation.TransGen assembly.locate.Forces m m := by
  intro cycle
  have zeros : (assembly.locate.nodes.all fun m => (assembly.locate.zero m).isOk) = true := by cbv
  have made := List.all_eq_true.mp zeros m (involved.mem_nodes (root_mem_nodes _))
  obtain ⟨e, h⟩ := exists_zero_eq_error_iff.mpr ⟨m, .refl, cycle⟩
  rw [h] at made
  cases made

/-- A reference to the parts of an assembly. -/
def partOfAssembly : Node :=
  .node ⟨9, [.key schemaKey, .index 1]⟩ (.ref "part")

theorem restrict_total_assembly :
    compile assemblySource = .ok assembly.locate ∧
      assembly.locate.root ∈ assembly.locate.nodes ∧
      partOfAssembly ∈ assembly.locate.nodes ∧
      (∃ r, assembly.locate.restrict ⟨false, true, false⟩ assembly.locate.root (.string "kit") =
        .ok (some r)) ∧
      assembly.locate.restrict ⟨true, false, false⟩ partOfAssembly (.string "bolt") ≠ .ok none := by
  obtain ⟨-, -, whole⟩ := restrict_total assembly.locate assembly.locate.root (.string "kit")
    ⟨false, true, false⟩
  obtain ⟨-, part, -⟩ := restrict_total assembly.locate partOfAssembly (.string "bolt")
    ⟨true, false, false⟩
  exact ⟨compile_assemblySource, root_mem_nodes _, List.mem_of_getElem? (i := 9) (by cbv),
    whole rfl fun m involved => acyclic_assembly involved, part rfl (by cbv)⟩

end Document

end TreeSchema
