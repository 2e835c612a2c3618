import TreeSchema.Document.Reading
import TreeSchema.Schema.Site

/-!
# The nodes of a document

A document that was read from a source is *located*: each of its nodes gets a
number and the place in the source that it comes from. The labels come first, in
the order of their declaration; then what is below each label, label by label;
then what is below the root, and the root. Everything below a node comes before it.
The number of a node is computed from the sizes of those before it; that these are the
numbers handed out on a walk that counts is shown with `Document.allocate`.

* `Document.locate` — marks the nodes of a document.
* `Document.nodes` — the nodes in the order of their numbers.
* `Document.compile` — reads and locates.
-/

namespace TreeSchema

namespace Schema

/-- Marking keeps the labels met by references and alternatives alone. -/
theorem heads_locate (site : Site) (start : Nat) (n : Schema Unit) :
    (n.locate site start).heads = n.heads := by
  induction n using parts_induction generalizing site start with
  | node mark rule ih =>
  cases rule with
  | oneof alternatives =>
    have same := Rule.map_parts_mapParts (.oneof alternatives)
      (fun i path part _ =>
        let first := start + sizeBefore ((Rule.oneof alternatives).parts.map Schema.size) i
        part.locate ⟨first + part.size - 1, site.origin ++ path⟩ first)
      (g := heads) (k := heads)
      (fun i path part hp => ih part hp _ _)
    rw [locate, Rule.mapParts, heads_oneof, heads_oneof, List.flatMap_def, List.flatMap_def]
    exact congrArg List.flatten same
  | ref label => simp [locate, Rule.mapParts, heads_ref]
  | _ => simp [locate, Rule.mapParts, heads]

end Schema

namespace Document

/-! ### Numbering -/

/-- The numbers of nodes below the labels. -/
def sizesBelow (labels : Mapping (Schema Unit)) : List Nat :=
  labels.values.map fun body => body.size - 1

/-- Marks a label, given its position among the labels and the numbers of nodes
below all labels. -/
def locateLabel (sizes : List Nat) (i : Nat) (label : String) (body : Schema Unit) : Node :=
  body.locate ⟨i, labelPath label⟩ (sizes.length + Schema.sizeBefore sizes i)

private theorem map_fst_locateLabels (labels : Mapping (Schema Unit)) (sizes : List Nat) :
    (labels.entries.mapIdx fun i e => (e.1, locateLabel sizes i e.1 e.2)).map (·.1) =
      labels.keys := by
  rw [map_mapIdx, ← Mapping.entries_map_fst]
  exact mapIdx_eq_map labels.entries Prod.fst

private theorem nodup_locateLabels (labels : Mapping (Schema Unit)) (sizes : List Nat) :
    ((labels.entries.mapIdx fun i e => (e.1, locateLabel sizes i e.1 e.2)).map (·.1)).Nodup :=
  map_fst_locateLabels labels sizes ▸ labels.nodup

/-- Marks the labels. -/
def locateLabels (labels : Mapping (Schema Unit)) : Mapping Node :=
  let sizes := sizesBelow labels
  .ofEntries (labels.entries.mapIdx fun i e => (e.1, locateLabel sizes i e.1 e.2))
    (nodup_locateLabels labels sizes)

theorem keys_locateLabels (labels : Mapping (Schema Unit)) :
    (locateLabels labels).keys = labels.keys := by
  rw [locateLabels, Mapping.keys_ofEntries, map_fst_locateLabels]

theorem labelHeads_locateLabels (labels : Mapping (Schema Unit)) (label : String) :
    labelHeads (locateLabels labels) label = labelHeads labels label := by
  unfold labelHeads
  cases h : labels.get? label with
  | none =>
    have : (locateLabels labels).get? label = none := by
      rw [Mapping.get?_eq_none_iff, keys_locateLabels]
      exact Mapping.get?_eq_none_iff.mp h
    rw [this]
    rfl
  | some body =>
    obtain ⟨i, hi, he⟩ := List.mem_iff_getElem.mp (Mapping.mem_entries_iff.mpr h)
    have : (locateLabels labels).get? label =
        some (locateLabel (sizesBelow labels) i label body) := by
      rw [← Mapping.mem_entries_iff, locateLabels, Mapping.entries_ofEntries]
      apply List.mem_iff_getElem.mpr
      exact ⟨i, by simpa using hi, by simp [he]⟩
    rw [this]
    exact Schema.heads_locate _ _ body

/-- Marks the nodes of a document. -/
def locate (d : Document Unit) : Document Site where
  labels := locateLabels d.labels
  root := Site.last (d.labels.size + total id (sizesBelow d.labels)) schemaPath d.root
  guarded := by
    rw [keys_locateLabels]
    exact d.guarded.congr fun label _ => (labelHeads_locateLabels d.labels label).symm

/-- Reads a document and marks its nodes. -/
def compile (source : Value) : Except SchemaError (Document Site) :=
  (ofSource source).map locate

/-! ### The nodes -/

/-- The nodes of a document: its labels, what is below them, and the root after
what is below it. -/
def nodes {α : Type} (d : Document α) : List (Schema α) :=
  d.labels.values ++ d.labels.values.flatMap Schema.descendants ++
    d.root.descendants ++ [d.root]

/-- The node with a number. -/
def node? (d : Document Site) (id : Nat) : Option Node :=
  d.nodes[id]?

/-- The direct parts of a node; the part of a reference is its target. -/
def children {α : Type} (d : Document α) (n : Schema α) : List (Schema α) :=
  match n.rule with
  | .ref label => (d.body? label).toList
  | rule => rule.parts

end Document

end TreeSchema
