import TreeSchema.Document.Basic
import TreeSchema.Schema.Reading

/-!
# The search for labels without a guard

A label that reaches itself by references and alternatives alone would be expanded without end.
Such labels are found in the sources, before any source is read. The search keeps a stack of
fragments. A reference puts the source of its label on the stack, unless the label was come to
before, and a union its alternatives; all else leads nowhere, and so do fragments with errors
and references to labels without a source.

* `Document.comesBack`, `Document.isUnguarded` — the search.
* `Document.isUnguarded_iff_mem_reach` — it finds the labels that reach themselves in the graph of
  labels.
-/

namespace TreeSchema.Document

variable {sources : Mapping Value} {label name : String} {visited : List String}

/-! ### The search -/

/-- The labels that have a source and were not come to. -/
def unvisited (sources : Mapping Value) (visited : List String) : List String :=
  sources.keys.filter (· ∉ visited)

@[simp] theorem mem_unvisited :
    name ∈ unvisited sources visited ↔ name ∈ sources.keys ∧ name ∉ visited := by
  simp [unvisited]

@[simp] theorem unvisited_nil (sources : Mapping Value) :
    unvisited sources [] = sources.keys := by
  simp [unvisited]

theorem unvisited_cons (sources : Mapping Value) (visited : List String) (name : String) :
    unvisited sources (name :: visited) = Search.without (unvisited sources visited) name :=
  Search.unseen_cons sources.keys visited name

/-- With the source of a label in place of a reference to it, less is left to look at: a label
less, or a fragment less if the label has no source. -/
theorem enter_decreases (new : name ∉ visited) (v : Value) (pending : List Value) :
    Prod.Lex (· < ·) (· < ·)
      ((unvisited sources (name :: visited)).length,
        total Value.size ((sources.get? name).toList ++ pending))
      ((unvisited sources visited).length, total Value.size (v :: pending)) := by
  rw [unvisited_cons]
  cases found : sources.get? name with
  | some body =>
    have room : name ∈ unvisited sources visited :=
      mem_unvisited.mpr ⟨Mapping.mem_keys_of_get? found, new⟩
    exact .left _ _ (Search.length_without_lt room)
  | none =>
    apply Prod.Lex.right'
    · exact List.length_filter_le _ _
    · exact Nat.lt_add_of_pos_left v.size_pos

/-- Whether references and alternatives alone lead from pending fragments back to a label. The
source of another label is looked at only where the label is first come to. -/
def comesBack (sources : Mapping Value) (label : String) (visited : List String) :
    (pending : List Value) → Bool
  | [] => false
  | v :: pending =>
    match _h : Form.ofValue v with
    | .ok (.ref name) =>
      if name = label then true
      else if name ∈ visited then comesBack sources label visited pending
      else comesBack sources label (name :: visited) ((sources.get? name).toList ++ pending)
    | .ok (.oneof alternatives) =>
      comesBack sources label visited (alternatives.toList.reverse ++ pending)
    | _ => comesBack sources label visited pending
termination_by pending => ((unvisited sources visited).length, total Value.size pending)
decreasing_by
  · exact .right _ (Nat.lt_add_of_pos_left v.size_pos)
  · exact enter_decreases ‹_› v pending
  · rw [total_append, total_reverse, total_cons]
    exact .right _ (Nat.add_lt_add_right (Form.total_size_lt_of_oneof _h) _)
  · exact .right _ (Nat.lt_add_of_pos_left v.size_pos)

/-- A label reaches itself by references and alternatives alone. Sources with
errors count as far as they are well-formed. -/
def isUnguarded (sources : Mapping Value) (label : String) : Bool :=
  comesBack sources label [] (sources.get? label).toList

/-! ### The graph of labels -/

/-- The labels that the source of a label meets by references and alternatives alone. -/
def sourceLabelHeads (sources : Mapping Value) (label : String) : List String :=
  (sources.get? label).elim [] Schema.sourceHeads

theorem sourceLabelHeads_eq_nil (h : label ∉ sources.keys) :
    sourceLabelHeads sources label = [] := by
  rw [sourceLabelHeads, Mapping.get?_eq_none_iff.mpr h, Option.elim_none]

theorem flatMap_sourceHeads (sources : Mapping Value) (label : String) :
    (sources.get? label).toList.flatMap Schema.sourceHeads = sourceLabelHeads sources label := by
  cases h : sources.get? label <;> simp [sourceLabelHeads, h]

/-- **The search through fragments comes back to a label exactly if the search through labels
finds it**, from the labels that the pending fragments meet. -/
theorem comesBack_iff_mem_visit {pending : List Value} (here : label ∈ unvisited sources visited) :
    comesBack sources label visited pending = true ↔
      label ∈ Search.visit (sourceLabelHeads sources) (unvisited sources visited)
        (pending.flatMap Schema.sourceHeads) := by
  fun_induction comesBack sources label visited pending with
  | case1 => simp [Search.visit]
  | case2 visited v pending reference =>
    rw [List.flatMap_cons, Schema.sourceHeads_ref reference, List.singleton_append, Search.visit,
      if_pos here]
    simp
  | case3 visited v pending name reference other known ih =>
    have gone : name ∉ unvisited sources visited := by simp [known]
    rw [ih here, List.flatMap_cons, Schema.sourceHeads_ref reference, List.singleton_append,
      Search.visit, if_neg gone]
  | case4 visited v pending name reference other new ih =>
    have still : label ∈ unvisited sources (name :: visited) := by
      rw [unvisited_cons, Search.mem_without]
      exact ⟨here, Ne.symm other⟩
    rw [ih still, List.flatMap_append, flatMap_sourceHeads, unvisited_cons, List.flatMap_cons,
      Schema.sourceHeads_ref reference, List.singleton_append, Search.visit]
    by_cases room : name ∈ unvisited sources visited
    · rw [if_pos room, List.mem_cons, or_iff_right (Ne.symm other)]
    · have missing : name ∉ sources.keys := fun hk => room (mem_unvisited.mpr ⟨hk, new⟩)
      rw [if_neg room, sourceLabelHeads_eq_nil missing, List.nil_append,
        Search.without_of_not_mem room]
  | case5 visited v pending alternatives union ih =>
    -- The alternatives are stacked the other way round.
    rw [ih here]
    apply Search.mem_visit_congr
    intro x
    simp [Schema.sourceHeads_oneof union]
  | case6 visited v pending noRef noUnion ih =>
    rw [ih here, List.flatMap_cons, Schema.sourceHeads_eq_nil, List.nil_append]
    · exact noUnion
    · exact noRef

/-- **The search finds the labels that reach themselves in the graph of labels.** -/
theorem isUnguarded_iff_mem_reach :
    isUnguarded sources label = true ↔
      label ∈ Search.reach (sourceLabelHeads sources) sources.keys label := by
  by_cases present : label ∈ sources.keys
  · have here : label ∈ unvisited sources [] := by simpa using present
    rw [isUnguarded, comesBack_iff_mem_visit here, flatMap_sourceHeads, unvisited_nil,
      Search.reach]
  · rw [isUnguarded, Search.reach, sourceLabelHeads_eq_nil present,
      Mapping.get?_eq_none_iff.mpr present]
    simp [comesBack, Search.visit]

theorem isUnguarded_eq_false_of_guarded
    (guarded : Search.Guarded (sourceLabelHeads sources) sources.keys)
    (present : label ∈ sources.keys) : isUnguarded sources label = false := by
  rw [Bool.eq_false_iff]
  intro unguarded
  exact guarded label present (isUnguarded_iff_mem_reach.mp unguarded)

end TreeSchema.Document
