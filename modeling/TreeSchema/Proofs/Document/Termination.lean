import TreeSchema.Proofs.Restriction.Descent
import TreeSchema.Proofs.Validation.Descent

/-!
# Work on a compiled document comes to an end

No label reaches itself by references and alternatives alone: that is checked on the source,
before any label is read, and it bounds everything that follows the document afterwards. A
recursion is said to end by saying that the results of calls past some depth do not matter.

* `Document.Grounded` — what is bounded, and by what.
* `Document.grounded_of_compile` — compiled documents are grounded.
-/

namespace TreeSchema.Document

/-- All work on the nodes of the document comes to an end. -/
structure Grounded (d : Document Site) : Prop where
  /-- Unfolding has no cycle. -/
  acyclic : ∀ id, ¬ Relation.TransGen d.UnfoldsTo id id
  /-- No more schemas than the document has nodes, and one, are looked at to resolve one. -/
  follow : ∀ n ∈ d.nodes,
    d.follow (d.nodes.length + 1) n = some (d.resolve n) ∧ (d.resolve n).isRef = false
  /-- No label is met again while a shape is made out. -/
  shape : ∀ n ∈ d.nodes, d.shapeWithin [] n = some (d.shape n)
  /-- A step of a lookup goes no deeper than the height of the node. -/
  childAt : ∀ n ∈ d.nodes, ∀ step depth, d.height n < depth → ∀ anything,
    (d.lookups step).cutAt anything depth n = d.childAt n step
  /-- Validation and restriction call themselves on smaller values, or on the same value and
  a node that is lower. -/
  calls : ∀ n ∈ d.nodes, ∀ v m w, d.Calls n v m w →
    m ∈ d.nodes ∧ Prod.Lex (· < ·) (· < ·) (w.size, d.height m) (v.size, d.height n)
  validate : ∀ strict, ∀ n ∈ d.nodes, ∀ v path depth, d.callDepth n v < depth → ∀ anything,
    (d.validation strict).cutAt anything depth (n, v, path) = d.validate strict n v path
  restrict : ∀ o, ∀ n ∈ d.nodes, ∀ v depth, d.callDepth n v < depth → ∀ anything,
    d.restriction.cutAt anything depth (o, n, v) = d.restrict o n v

/-- **All work on a compiled document comes to an end.** -/
theorem grounded_of_compile {source : Value} {d : Document Site} (h : compile source = .ok d) :
    d.Grounded := by
  have complete := complete_of_compile h
  have acyclic : ∀ id, ¬ Relation.TransGen d.UnfoldsTo id id := by
    obtain ⟨e, -, rfl⟩ := compile_eq_ok_iff.mp h
    exact not_transGen_unfoldsTo
  refine
    { acyclic
      follow := fun n hn => follow_eq_resolve complete hn ?_
      shape := fun n hn => shapeWithin_eq_shape complete hn nofun
      childAt := fun n _ step depth hd => cutAt_lookups hd
      calls := fun n hn v m w hc => ⟨hc.mem_nodes hn, hc.lex⟩
      validate := fun strict n hn v path depth hd => cutAt_validation hn hd
      restrict := fun o n hn v depth hd => cutAt_restriction hn hd }
  have ranks := d.rankAbove_le_size n.heads
  have nodes := d.size_labels_lt
  omega

/-- Trees of texts, in which a label refers to itself and a union to the label. -/
theorem grounded_tree : compile treeSource = .ok tree.locate ∧ tree.locate.Grounded :=
  ⟨compile_treeSource, grounded_of_compile compile_treeSource⟩

end TreeSchema.Document
