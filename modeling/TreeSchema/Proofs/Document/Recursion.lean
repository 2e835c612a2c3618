import TreeSchema.Proofs.Document.Diagnostics
import TreeSchema.Proofs.Document.Unguarded
import Mathlib.Data.List.Chain

/-!
# Rings of labels

A label without a guard lies on a ring of labels: a finite list of them, the source of each of
which meets the next, and that of the last the first. A ring may be as short as one label that
meets itself. The search for labels without a guard finds the rings and nothing else, whatever
else is wrong with the sources; a document whose labels have a ring is not read, and the error
that says so is never raised for another reason.

* `Document.isUnguarded_iff_exists_ring` — the search finds the labels of rings.
* `Document.failure?_ofSource` — what reading fails with, once version and labels are found.
* `Document.compile_eq_unguarded_iff` — unguarded recursion is reported for the first label of a
  ring.
* `Document.unguarded_iff_ring` — the search and the compiler together.
-/

namespace TreeSchema.Document

variable {sources fields : Mapping Value} {label : String}

/-! ### Rings -/

/-- The labels make a ring: all of them have sources, and the source of each meets the next,
that of the last the first. -/
structure LabelRing (sources : Mapping Value) (first : String) (others : List String) : Prop where
  labels : ∀ label ∈ first :: others, label ∈ sources.keys
  meets : (first :: others ++ [first]).IsChain (RefersTo sources)

/-- In a chain of references every label but the last has a source. -/
theorem mem_keys_of_isChain {labels : List String} {last : String}
    (chain : (labels ++ [last]).IsChain (RefersTo sources)) :
    ∀ label ∈ labels, label ∈ sources.keys := by
  induction labels with
  | nil => exact fun _ h => absurd h List.not_mem_nil
  | cons first labels ih =>
    obtain ⟨next, rest, split⟩ := List.exists_cons_of_ne_nil
      (List.append_ne_nil_of_right_ne_nil labels (List.cons_ne_nil last []))
    have refers : RefersTo sources first next := by
      rw [List.cons_append, split] at chain
      exact (List.isChain_cons_cons.mp chain).1
    exact List.forall_mem_cons.mpr ⟨refers.mem_keys, ih chain.tail⟩

/-- A label that references lead back to lies on a ring. -/
theorem transGen_iff_exists_ring :
    Relation.TransGen (RefersTo sources) label label ↔
      ∃ others, LabelRing sources label others := by
  constructor
  · intro cycle
    obtain ⟨last, chain, refers⟩ := Relation.TransGen.tail'_iff.mp cycle
    obtain ⟨others, linked, ends⟩ := List.exists_isChain_cons_of_relationReflTransGen chain
    have meets : (label :: others ++ [label]).IsChain (RefersTo sources) := by
      refine linked.append (List.isChain_singleton label) ?_
      intro x hx y hy
      rw [List.getLast?_eq_some_getLast (List.cons_ne_nil label others), ends] at hx
      obtain rfl := Option.some.inj hx
      obtain rfl := Option.some.inj hy
      exact refers
    exact ⟨others, mem_keys_of_isChain meets, meets⟩
  · rintro ⟨others, -, meets⟩
    obtain ⟨next, rest, split⟩ := List.exists_cons_of_ne_nil
      (List.append_ne_nil_of_right_ne_nil others (List.cons_ne_nil label []))
    rw [List.cons_append, split] at meets
    obtain ⟨refers, linked⟩ := List.isChain_cons_cons.mp meets
    have ends : (next :: rest).getLast (List.cons_ne_nil next rest) = label := by
      simp [← split]
    exact .head' refers (List.relationReflTransGen_of_exists_isChain_cons rest linked ends)

/-- **The search finds the labels of rings.** -/
theorem isUnguarded_iff_exists_ring :
    isUnguarded sources label = true ↔ ∃ others, LabelRing sources label others :=
  isUnguarded_iff.trans transGen_iff_exists_ring

/-! ### Reading -/

/-- **What reading fails with** once the version is right and the labels are found: that the
first label of a ring is one, or else the first of the other errors. -/
theorem failure?_ofSource (version : checkVersion fields = .ok ())
    (labels : labelSources fields = .ok sources) :
    failure? (ofSource (.mapping fields)) =
      ((sources.keys.find? (isUnguarded sources)).map unguardedError).or
        (partDiagnostics sources (rootSource fields)).head? := by
  have errors : diagnostics (.mapping fields) = partDiagnostics sources (rootSource fields) := by
    rw [diagnostics, version, labels]
    rfl
  rw [← decisive?_diagnostics, errors,
    decisive?_of_forall_ne fun _ => ne_invalidVersion_of_mem_partDiagnostics,
    find?_isUnguarded_partDiagnostics]

theorem failure?_compile (source : Value) :
    failure? (compile source) = failure? (ofSource source) := by
  rw [compile]
  cases ofSource source <;> rfl

/-- **Unguarded recursion is reported for the first label of a ring**, at its place, and for no
other reason. -/
theorem compile_eq_unguarded_iff (version : checkVersion fields = .ok ())
    (labels : labelSources fields = .ok sources) {path : Path} :
    compile (.mapping fields) = .error ⟨.unguardedRecursion label, path⟩ ↔
      sources.keys.find? (isUnguarded sources) = some label ∧ path = labelPath label := by
  rw [eq_error_iff_failure?, failure?_compile, failure?_ofSource version labels]
  cases found : sources.keys.find? (isUnguarded sources) with
  | some first =>
    rw [Option.map_some, Option.some_or, unguardedError]
    constructor
    · intro h
      cases h
      exact ⟨rfl, rfl⟩
    · rintro ⟨h, rfl⟩
      rw [Option.some.inj h]
  | none =>
    -- The errors that are left are those of reading, none of which is this one.
    have none_unguarded := find?_isUnguarded_partDiagnostics sources fields
    rw [found, Option.map_none] at none_unguarded
    rw [Option.map_none, Option.none_or]
    constructor
    · intro h
      exact absurd rfl (List.find?_eq_none.mp none_unguarded _ (List.mem_of_mem_head? h))
    · rintro ⟨h, -⟩
      cases h

/-- **Labels without a guard are those of rings.** The search says so of a label exactly if it
lies on a ring, for any sources. With a valid version and a mapping of labels, compiling reports
unguarded recursion for some label exactly if there is a ring. -/
theorem unguarded_iff_ring (sources : Mapping Value) :
    (∀ label, isUnguarded sources label = true ↔ ∃ others, LabelRing sources label others) ∧
      ∀ fields, checkVersion fields = .ok () → fields.get? labelsKey = some (.mapping sources) →
        ((∃ label path,
            compile (.mapping fields) = .error ⟨.unguardedRecursion label, path⟩) ↔
          ∃ label others, LabelRing sources label others) := by
  refine ⟨fun label => isUnguarded_iff_exists_ring, ?_⟩
  intro fields version given
  have labels : labelSources fields = .ok sources := by
    rw [labelSources, given]
  constructor
  · rintro ⟨label, path, stopped⟩
    obtain ⟨found, -⟩ := (compile_eq_unguarded_iff version labels).mp stopped
    exact ⟨label, isUnguarded_iff_exists_ring.mp (List.find?_some found)⟩
  · rintro ⟨label, ring⟩
    have present : label ∈ sources.keys := by
      obtain ⟨others, ring⟩ := ring
      exact ring.labels label List.mem_cons_self
    obtain ⟨first, found⟩ := Option.isSome_iff_exists.mp
      (List.find?_isSome.mpr ⟨label, present, isUnguarded_iff_exists_ring.mpr ring⟩)
    exact ⟨first, labelPath first, (compile_eq_unguarded_iff version labels).mpr ⟨found, rfl⟩⟩

/-- Sources of labels with a ring of two, next to a label that meets itself behind a guard only, a
reference to a label without a source, and a fragment that is no schema. -/
def hedgeSources : Mapping Value :=
  .ofList
    [("broken", .sequence [.string "ref", .bool true]),
      ("shoot", .mapping (.ofList
        [("buds", .sequence [.string "array", .sequence [.string "ref", .string "shoot"]])])),
      ("hedge", .sequence
        [.string "oneof", .sequence [.string "ref", .string "gone"],
          .sequence [.string "oneof", .sequence [.string "ref", .string "gap"]]]),
      ("gap", .sequence
        [.string "oneof", .string "null", .sequence [.string "ref", .string "hedge"]])]

def hedgeFields : Mapping Value :=
  .ofList [(labelsKey, .mapping hedgeSources), (schemaKey, .string "any")]

theorem labelRing_hedge : LabelRing hedgeSources "hedge" ["gap"] where
  labels := by decide
  meets := by
    have hedge : RefersTo hedgeSources "hedge" "gap" :=
      ⟨_, rfl, .alternative (.tail _ (.head _)) (.alternative (.head _) .reference)⟩
    have gap : RefersTo hedgeSources "gap" "hedge" :=
      ⟨_, rfl, .alternative (.tail _ (.head _)) .reference⟩
    exact .cons_cons hedge (.cons_cons gap (.singleton _))

theorem unguarded_iff_ring_hedge :
    checkVersion hedgeFields = .ok () ∧
      hedgeFields.get? labelsKey = some (.mapping hedgeSources) ∧
      (∃ label path,
        compile (.mapping hedgeFields) = .error ⟨.unguardedRecursion label, path⟩) ∧
      isUnguarded hedgeSources "hedge" = true ∧
      ¬∃ others, LabelRing hedgeSources "shoot" others := by
  obtain ⟨search, compiler⟩ := unguarded_iff_ring hedgeSources
  have version : checkVersion hedgeFields = .ok () := by cbv
  have given : hedgeFields.get? labelsKey = some (.mapping hedgeSources) := by cbv
  have guarded : isUnguarded hedgeSources "shoot" = false := by cbv
  refine ⟨version, given, ?_, ?_, ?_⟩
  · exact (compiler hedgeFields version given).mpr ⟨"hedge", ["gap"], labelRing_hedge⟩
  · exact (search "hedge").mpr ⟨["gap"], labelRing_hedge⟩
  · rw [← search, guarded]
    exact Bool.false_ne_true

end TreeSchema.Document
