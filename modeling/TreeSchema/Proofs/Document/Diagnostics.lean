import TreeSchema.Document.Nodes
import TreeSchema.Proofs.Schema.Diagnostics

/-!
# Compiling and checking agree

A source compiles exactly if it has no errors, and where it has some, compiling stops at
one of them. Mostly that is the first. But labels without a guard are looked for before
any label is read, so such a label is what compiling stops at though errors of earlier
labels stand before it in the list; only a wrong version is noticed earlier still.
`decisive?` picks that error out of the list.

* `Document.decisive?_diagnostics` — reading fails with the decisive error.
* `Document.isSchema_eq_isEmpty` — a source is a schema if it has no errors.
* `Document.diagnostics_decide_compile` — compiling, checking and deciding agree.
-/

namespace TreeSchema

/-- The error is that of a label without a guard. -/
def SchemaError.isUnguarded (e : SchemaError) : Bool :=
  match e.fault with
  | .unguardedRecursion _ => true
  | _ => false

namespace Document

/-- The error at which reading stops, out of all errors in their order: the first if it is a
wrong version, else that of the first label without a guard if there is one, else the first. -/
def decisive? : List SchemaError → Option SchemaError
  | [] => none
  | first :: others =>
    if first.fault = .invalidVersion then some first
    else ((first :: others).find? SchemaError.isUnguarded).or (some first)

theorem mem_of_decisive? {errors : List SchemaError} {e : SchemaError}
    (h : decisive? errors = some e) : e ∈ errors := by
  cases errors with
  | nil => cases h
  | cons first others =>
    rw [decisive?] at h
    split at h
    · cases h
      exact List.mem_cons_self
    · rcases Option.or_eq_some_iff.mp h with h | ⟨-, h⟩
      · exact List.mem_of_find?_eq_some h
      · cases h
        exact List.mem_cons_self

theorem decisive?_eq_none_iff {errors : List SchemaError} :
    decisive? errors = none ↔ errors = [] := by
  cases errors with
  | nil => simp [decisive?]
  | cons first others =>
    rw [decisive?]
    split <;> simp

theorem decisive?_of_forall_ne {errors : List SchemaError}
    (h : ∀ e ∈ errors, e.fault ≠ .invalidVersion) :
    decisive? errors = (errors.find? SchemaError.isUnguarded).or errors.head? := by
  cases errors with
  | nil => rfl
  | cons first others => rw [decisive?, if_neg (h first List.mem_cons_self), List.head?_cons]

/-! ### The errors of labels and of the root -/

/-- The errors of the root. -/
def rootDiagnostics (defined : String → Bool) (root : Except SchemaError Value) :
    List SchemaError :=
  match root with
  | .error e => [e]
  | .ok v => Schema.errorsWithin schemaPath (Schema.diagnostics defined v)

theorem partDiagnostics_eq (sources : Mapping Value) (root : Except SchemaError Value) :
    partDiagnostics sources root =
      (sources.entries.flatMap fun e => labelDiagnostics sources e.1 e.2) ++
        rootDiagnostics sources.contains root := rfl

theorem leads_rootDiagnostics (defined : String → Bool) (root : Except SchemaError Value) :
    Leads (rootDiagnostics defined root)
      (root >>= fun v => Schema.within schemaPath (Schema.ofSource defined v)) := by
  cases root with
  | error e => exact .error
  | ok v => exact (Schema.leads_diagnostics defined v).within _

theorem leads_readLabels {sources : Mapping Value}
    (guarded : ∀ label ∈ sources.keys, isUnguarded sources label = false) :
    Leads (sources.entries.flatMap fun e => labelDiagnostics sources e.1 e.2)
      (readLabels sources) := by
  refine Mapping.leads_traverse fun e he => ?_
  have hk : e.1 ∈ sources.keys := Mapping.mem_keys_of_get? (Mapping.get?_of_mem_entries he)
  rw [labelDiagnostics, guarded e.1 hk, if_neg Bool.false_ne_true, List.nil_append]
  exact (Schema.leads_diagnostics sources.contains e.2).within _

theorem failure?_readParts {sources : Mapping Value}
    {guarded : Search.Guarded (sourceLabelHeads sources) sources.keys}
    {root : Except SchemaError Value} :
    failure? (readParts sources guarded root) = failure? (readLabels sources >>= fun _ =>
      root >>= fun v => Schema.within schemaPath (Schema.ofSource sources.contains v)) := by
  generalize hroot : (root >>= fun v =>
    Schema.within schemaPath (Schema.ofSource sources.contains v)) = read
  unfold readParts
  split
  · next e he =>
    rw [he]
    rfl
  · next labels hl =>
    have labels_read : (readLabels sources >>= fun _ => read) = read := by
      rw [hl]
      rfl
    rw [labels_read, ← hroot]
    cases root with
    | error e => rfl
    | ok v =>
      show failure? (Schema.within schemaPath (Schema.ofSource sources.contains v) >>= _) =
        failure? (Schema.within schemaPath (Schema.ofSource sources.contains v))
      cases Schema.within schemaPath (Schema.ofSource sources.contains v) <;> rfl

/-- Where every label is guarded, reading fails with the first error. -/
theorem leads_partDiagnostics {sources : Mapping Value}
    (guarded : Search.Guarded (sourceLabelHeads sources) sources.keys)
    (root : Except SchemaError Value) :
    Leads (partDiagnostics sources root) (readParts sources guarded root) := by
  have labels : ∀ label ∈ sources.keys, isUnguarded sources label = false := fun label hl =>
    isUnguarded_eq_false_of_guarded guarded hl
  rw [Leads, failure?_readParts]
  exact (leads_readLabels labels).bind fun _ => leads_rootDiagnostics sources.contains root

/-! ### Labels without a guard -/

theorem find?_isUnguarded_of_allLocal {errors : List SchemaError} (h : AllLocal errors) :
    errors.find? SchemaError.isUnguarded = none := by
  refine List.find?_eq_none.mpr fun e he hu => ?_
  have := h e he
  rw [SchemaError.isUnguarded] at hu
  split at hu
  · next hf =>
    rw [hf] at this
    cases this
  · cases hu

theorem find?_isUnguarded_labelDiagnostics (sources : Mapping Value) (label : String)
    (v : Value) : (labelDiagnostics sources label v).find? SchemaError.isUnguarded =
      if isUnguarded sources label then some (unguardedError label) else none := by
  have rest := find?_isUnguarded_of_allLocal
    ((Schema.allLocal_diagnostics sources.contains v).within (labelPath label))
  rw [labelDiagnostics, List.find?_append, rest, Option.or_none]
  split <;> rfl

theorem find?_isUnguarded_rootDiagnostics (defined : String → Bool) (fields : Mapping Value) :
    (rootDiagnostics defined (rootSource fields)).find? SchemaError.isUnguarded = none := by
  rw [rootSource]
  split
  · next v _ => exact find?_isUnguarded_of_allLocal ((Schema.allLocal_diagnostics defined v).within _)
  · rfl

/-- **The first error of a label without a guard is that of the first such label.** -/
theorem find?_isUnguarded_partDiagnostics (sources fields : Mapping Value) :
    (partDiagnostics sources (rootSource fields)).find? SchemaError.isUnguarded =
      (sources.keys.find? (isUnguarded sources)).map unguardedError := by
  rw [partDiagnostics_eq, List.find?_append, find?_isUnguarded_rootDiagnostics, Option.or_none,
    List.find?_flatMap]
  simp only [find?_isUnguarded_labelDiagnostics]
  rw [← Mapping.entries_map_fst]
  induction sources.entries with
  | nil => rfl
  | cons e es ih =>
    rw [List.findSome?_cons, List.map_cons, List.find?_cons, ih]
    cases isUnguarded sources e.1 <;> rfl

theorem ne_invalidVersion_of_mem_partDiagnostics {sources fields : Mapping Value}
    {e : SchemaError} (h : e ∈ partDiagnostics sources (rootSource fields)) :
    e.fault ≠ .invalidVersion := by
  have local_ne : ∀ {errors path}, AllLocal errors →
      e ∈ Schema.errorsWithin path errors → e.fault ≠ .invalidVersion := by
    intro errors path hl he hv
    have := hl.within path e he
    rw [hv] at this
    cases this
  rw [partDiagnostics_eq, List.mem_append] at h
  rcases h with h | h
  · obtain ⟨entry, -, h⟩ := List.mem_flatMap.mp h
    rcases List.mem_append.mp h with h | h
    · split at h
      · rw [List.mem_singleton.mp h]
        exact nofun
      · cases h
    · exact local_ne (Schema.allLocal_diagnostics _ _) h
  · unfold rootSource at h
    split at h
    · exact local_ne (Schema.allLocal_diagnostics _ _) h
    · rw [List.mem_singleton.mp h]
      exact nofun

/-! ### Documents -/

private theorem ok_bind {ε α β : Type} (a : α) (f : α → Except ε β) :
    (Except.ok a >>= f) = f a := rfl

/-- **Reading fails with the decisive error**, and does not fail if there is none. -/
theorem decisive?_diagnostics (source : Value) :
    decisive? (diagnostics source) = failure? (ofSource source) := by
  cases source with
  | mapping fields =>
    rw [diagnostics, ofSource]
    cases hversion : checkVersion fields with
    | error e =>
      rw [checkVersion] at hversion
      split at hversion
      · cases hversion
      · cases hversion
        rfl
    | ok =>
      have parts : ∀ sources, ∀ e ∈ partDiagnostics sources (rootSource fields),
          e.fault ≠ .invalidVersion := fun _ _ => ne_invalidVersion_of_mem_partDiagnostics
      cases hlabels : labelSources fields with
      | error e =>
        have block : e.fault ≠ .invalidVersion ∧ e.isUnguarded = false := by
          rw [labelSources] at hlabels
          split at hlabels <;> cases hlabels
          exact ⟨nofun, rfl⟩
        have rest := find?_isUnguarded_partDiagnostics ∅ fields
        show decisive? (e :: partDiagnostics ∅ (rootSource fields)) = some e
        rw [decisive?, if_neg block.1, List.find?_cons, block.2]
        show Option.or (List.find? _ _) _ = _
        rw [rest]
        rfl
      | ok sources =>
        show decisive? (partDiagnostics sources (rootSource fields)) = _
        rw [decisive?_of_forall_ne (parts sources), find?_isUnguarded_partDiagnostics, ok_bind,
          ok_bind]
        split
        · next label hl =>
          rw [hl]
          rfl
        · next hnone =>
          have none_unguarded :
              (sources.keys.find? (isUnguarded sources)).map unguardedError = none := by
            rw [hnone]
            rfl
          rw [none_unguarded]
          exact leads_partDiagnostics (guarded_of_find?_eq_none hnone) (rootSource fields)
  | _ => rfl

theorem isEmpty_labelDiagnostics (sources : Mapping Value) (label : String) (v : Value) :
    (labelDiagnostics sources label v).isEmpty =
      (!isUnguarded sources label && Schema.isWellFormed sources.contains v) := by
  rw [labelDiagnostics, Schema.isWellFormed_eq_isEmpty]
  cases isUnguarded sources label with
  | true => rfl
  | false => exact Schema.isEmpty_errorsWithin _ _

/-- **A source is a schema exactly if it has no errors.** -/
theorem isSchema_eq_isEmpty (source : Value) : isSchema source = (diagnostics source).isEmpty := by
  cases source with
  | mapping fields =>
    rw [isSchema, diagnostics]
    cases checkVersion fields with
    | error e => rfl
    | ok =>
      cases labelSources fields with
      | error e => rfl
      | ok sources =>
        have labels : (sources.entries.flatMap fun e => labelDiagnostics sources e.1 e.2).isEmpty =
            sources.entries.all fun e =>
              !isUnguarded sources e.1 && Schema.isWellFormed sources.contains e.2 := by
          rw [Bool.eq_iff_iff, List.isEmpty_iff, List.flatMap_eq_nil_iff, List.all_eq_true]
          refine forall₂_congr fun e _ => ?_
          rw [← isEmpty_labelDiagnostics, List.isEmpty_iff]
        show _ = (partDiagnostics sources (rootSource fields)).isEmpty
        rw [partDiagnostics_eq, isEmpty_append, labels]
        cases rootSource fields with
        | error e => exact (Bool.and_false _).symm
        | ok v =>
          rw [rootDiagnostics, Schema.isEmpty_errorsWithin, ← Schema.isWellFormed_eq_isEmpty]
          rfl
  | _ => rfl

/-- **Compiling, checking and deciding agree.** A source compiles exactly if it has no errors,
and exactly then it is a schema. If it does not compile, what it fails with is one of its
errors, the decisive one. -/
theorem diagnostics_decide_compile (source : Value) :
    ((∃ d, compile source = .ok d) ↔ diagnostics source = []) ∧
      (diagnostics source = [] ↔ isSchema source = true) ∧
      ∀ e, compile source = .error e ↔
        e ∈ diagnostics source ∧ decisive? (diagnostics source) = some e := by
  have failed : failure? (compile source) = decisive? (diagnostics source) := by
    rw [decisive?_diagnostics, compile]
    cases ofSource source <;> rfl
  refine ⟨?_, ?_, ?_⟩
  · rw [← decisive?_eq_none_iff, ← failed]
    cases compile source <;> simp [failure?]
  · rw [isSchema_eq_isEmpty, List.isEmpty_iff]
  · intro e
    rw [← failed]
    constructor
    · intro h
      have decisive : failure? (compile source) = some e := by
        rw [h]
        rfl
      exact ⟨mem_of_decisive? (failed ▸ decisive), decisive⟩
    · rintro ⟨-, h⟩
      cases hc : compile source with
      | error e' =>
        rw [hc] at h
        rw [Option.some.inj h]
      | ok d =>
        rw [hc] at h
        cases h

/-- Reading stops at the label without a guard, though what is wrong with an earlier label
comes first among the errors. -/
example :
    let source := .mapping (.ofList
      [("let", .mapping (.ofList
        [("a", .string "text"), ("b", .sequence [.string "ref", .string "b"])])),
        ("schema", .string "any")])
    diagnostics source = [⟨.unknownType "text", labelPath "a"⟩, unguardedError "b"] ∧
      failure? (ofSource source) = some (unguardedError "b") := by
  refine ⟨by cbv, ?_⟩
  rw [← decisive?_diagnostics]
  cbv

end Document

end TreeSchema
