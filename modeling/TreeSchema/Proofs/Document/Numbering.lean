import TreeSchema.Proofs.Document.Closure

/-!
# The numbers of nodes

Marking a document numbers its nodes from zero on, in the order in which `nodes` lists
them and without a gap. So the number of a node is its position, and a node is known by
its mark.

* `Schema.ids_descendants_locate` — what is below a node is numbered from the start given.
* `Document.ids_nodes_locate` — the nodes of a document are numbered from zero.
* `Document.identified_of_compile` — the nodes of a compiled document are known by their
  marks.
-/

namespace TreeSchema

/-! ### Below a node -/

namespace Schema

/-- Blocks of numbers, each from where those before it end, are one block. -/
theorem flatten_blocks (sizes : List Nat) (start : Nat) :
    (sizes.mapIdx fun i size => List.range' (start + sizeBefore sizes i) size).flatten =
      List.range' start (total id sizes) := by
  induction sizes generalizing start with
  | nil => rfl
  | cons size sizes ih =>
    rw [List.mapIdx_cons, List.flatten_cons]
    simp only [sizeBefore_zero, sizeBefore_cons_succ, Nat.add_zero, ← Nat.add_assoc]
    rw [ih, List.range'_append_1]
    rfl

@[simp] theorem mark_locate (site : Site) (start : Nat) (n : Schema Unit) :
    (n.locate site start).mark = site := by
  obtain ⟨mark, rule⟩ := n
  rw [locate]
  rfl

/-- The numbers of a schema and what is below it, the schema last. -/
def ids (n : Node) : List Nat :=
  (n.descendants ++ [n]).map (·.mark.id)

/-- A node is numbered last if its number is the one after those of what is below it. -/
theorem ids_eq_range' {n : Node} {start size : Nat} (pos : 0 < size)
    (below : n.descendants.map (·.mark.id) = List.range' start (size - 1))
    (last : n.mark.id = start + size - 1) : ids n = List.range' start size := by
  obtain ⟨count, rfl⟩ := Nat.exists_eq_add_of_lt pos
  rw [ids, List.map_append, below, List.map_cons, List.map_nil, last]
  simp only [Nat.zero_add, Nat.add_sub_cancel, List.range'_concat, Nat.one_mul]
  rfl

/-- **What is below a node is numbered from the start given**, without a gap. -/
theorem ids_descendants_locate (site : Site) (start : Nat) (n : Schema Unit) :
    (n.locate site start).descendants.map (·.mark.id) = List.range' start (n.size - 1) := by
  induction n using parts_induction generalizing site start with
  | node mark rule ih =>
  have block : ∀ part ∈ rule.parts, ∀ first origin,
      ids (part.locate ⟨first + part.size - 1, origin⟩ first) = List.range' first part.size := by
    intro part hp first origin
    refine ids_eq_range' part.size_pos ?_ (congrArg Site.id (mark_locate _ _ part))
    exact ih part hp _ _
  have parts := Rule.map_parts_mapParts_eq_mapIdx rule
    (fun i path part _ =>
      let first := start + sizeBefore (rule.parts.map Schema.size) i
      part.locate ⟨first + part.size - 1, site.origin ++ path⟩ first)
    (g := ids)
    (k := fun i part => List.range' (start + sizeBefore (rule.parts.map Schema.size) i) part.size)
    fun i path part hp => block part hp _ _
  have blocks := flatten_blocks (rule.parts.map Schema.size) start
  rw [mapIdx_map, ← parts, total_map] at blocks
  rw [locate, descendants_node, List.map_flatMap, List.flatMap_def, size_node,
    Nat.add_sub_cancel_left]
  exact blocks

/-- A schema numbered from a number on, its root last. -/
theorem ids_last (start : Nat) (origin : Path) (n : Schema Unit) :
    ids (Site.last start origin n) = List.range' start n.size :=
  ids_eq_range' n.size_pos (ids_descendants_locate _ _ n) (congrArg Site.id (mark_locate _ _ n))

end Schema

/-! ### Documents -/

theorem range'_zero_append (m n : Nat) :
    List.range' 0 m ++ List.range' m n = List.range' 0 (m + n) := by
  rw [← List.range'_append_1, Nat.zero_add]

namespace Document

theorem length_sizesBelow (labels : Mapping (Schema Unit)) :
    (sizesBelow labels).length = labels.size := by
  simp [sizesBelow, Mapping.values]

theorem values_locateLabels (labels : Mapping (Schema Unit)) :
    (locateLabels labels).values =
      labels.entries.mapIdx fun i e => locateLabel (sizesBelow labels) i e.1 e.2 := by
  rw [Mapping.values, locateLabels, Mapping.entries_ofEntries, map_mapIdx]

/-- The labels have the first numbers. -/
theorem ids_labels (labels : Mapping (Schema Unit)) :
    (locateLabels labels).values.map (·.mark.id) = List.range' 0 labels.size := by
  rw [values_locateLabels, map_mapIdx]
  apply List.ext_getElem
  · simp
  · simp [locateLabel]

/-- What is below the labels is numbered next, label by label. -/
theorem ids_below_labels (labels : Mapping (Schema Unit)) :
    ((locateLabels labels).values.flatMap Schema.descendants).map (·.mark.id) =
      List.range' labels.size (total id (sizesBelow labels)) := by
  rw [← Schema.flatten_blocks, List.map_flatMap, List.flatMap_def, values_locateLabels,
    map_mapIdx]
  simp only [locateLabel, Schema.ids_descendants_locate, length_sizesBelow]
  simp only [sizesBelow, Mapping.values, mapIdx_map]

private theorem ids_nodes_locate_eq_range' (d : Document Unit) :
    d.locate.nodes.map (·.mark.id) =
      List.range' 0 (d.labels.size + total id (sizesBelow d.labels) + d.root.size) := by
  have root := Schema.ids_last (d.labels.size + total id (sizesBelow d.labels)) schemaPath d.root
  rw [nodes, List.append_assoc, List.map_append, List.map_append]
  show (locateLabels d.labels).values.map _ ++
    ((locateLabels d.labels).values.flatMap _).map _ ++ Schema.ids (Site.last _ _ _) = _
  rw [ids_labels, ids_below_labels, root, range'_zero_append, range'_zero_append]

theorem length_nodes_locate (d : Document Unit) : d.locate.nodes.length =
    d.labels.size + total id (sizesBelow d.labels) + d.root.size := by
  have length := congrArg List.length (ids_nodes_locate_eq_range' d)
  rwa [List.length_map, List.length_range'] at length

/-- **The nodes of a document are numbered from zero**, in their order. -/
theorem ids_nodes_locate (d : Document Unit) :
    d.locate.nodes.map (·.mark.id) = List.range d.locate.nodes.length := by
  rw [ids_nodes_locate_eq_range', length_nodes_locate, List.range_eq_range']

/-- Nodes with one mark are one node. -/
def Identified {α : Type} (d : Document α) : Prop :=
  ∀ n ∈ d.nodes, ∀ m ∈ d.nodes, n.mark = m.mark → n = m

/-- **The nodes of a compiled document are known by their marks.** -/
theorem identified_of_compile {source : Value} {d : Document Site}
    (h : compile source = .ok d) : d.Identified := by
  intro n hn m hm mark
  obtain ⟨e, -, rfl⟩ := compile_eq_ok_iff.mp h
  have nodup : (e.locate.nodes.map (·.mark.id)).Nodup := by
    rw [ids_nodes_locate]
    exact List.nodup_range
  exact List.inj_on_of_nodup_map nodup hn hm (congrArg Site.id mark)

end Document

end TreeSchema
