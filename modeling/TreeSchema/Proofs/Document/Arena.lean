import TreeSchema.Proofs.Document.Numbering

/-!
# Compiled documents as arenas

The nodes of a compiled document, in the order of their numbers, make up an arena: every
number that a node mentions is that of a node. But for references, which lead to the labels,
it is a forest: each node belongs to one parent, at one place, and comes before it.

* `Schema.flatMap_parts_perm` — the parts of the nodes of a tree are the nodes below its root.
* `Schema.id_part_lt` — parts have smaller numbers.
* `acyclic_of_lt` — a relation that lowers a measure has no cycle.
* `Document.IsArena`, `Document.isArena_of_compile` — what makes an arena, and that compiled
  documents have it.
-/

namespace TreeSchema

/-- A relation that lowers a measure has no cycle. -/
theorem acyclic_of_lt {β : Type} {r : β → β → Prop} (measure : β → Nat)
    (lowers : ∀ a b, r a b → measure b < measure a) (a : β) : ¬ Relation.TransGen r a a := by
  intro cycle
  have descent : Relation.TransGen (· > ·) (measure a) (measure a) :=
    cycle.lift measure lowers
  rw [Relation.transGen_eq_self] at descent
  exact Nat.lt_irrefl _ descent

/-! ### Trees -/

namespace Schema

variable {α : Type}

/-- **The parts of the nodes of a tree are the nodes below its root**, each once. -/
theorem flatMap_parts_perm (n : Schema α) :
    ((n.descendants ++ [n]).flatMap fun m => m.rule.parts).Perm n.descendants := by
  induction n using parts_induction with
  | node mark rule ih =>
  have below : (rule.parts.flatMap fun part =>
      (part.descendants ++ [part]).flatMap fun m => m.rule.parts).Perm
        (rule.parts.flatMap descendants) :=
    List.Perm.flatMap_left _ ih
  have parts : rule.parts.flatMap (fun part => [part]) = rule.parts := List.flatMap_singleton' _
  have gathered := List.flatMap_append_perm rule.parts descendants fun part => [part]
  rw [parts] at gathered
  rw [descendants_node, List.flatMap_append, List.flatMap_assoc, List.flatMap_singleton]
  exact (below.append_right _).trans gathered

/-- The parts of a schema that is numbered last have smaller numbers. -/
theorem id_part_last_lt (start : Nat) (origin : Path) (n : Schema Unit) :
    ∀ part ∈ (Site.last start origin n).rule.parts,
      part.mark.id < (Site.last start origin n).mark.id := by
  intro part hp
  have below : part.mark.id ∈ List.range' start (n.size - 1) := by
    rw [← ids_descendants_locate ⟨start + n.size - 1, origin⟩]
    exact List.mem_map_of_mem (mem_descendants_of_mem_parts hp)
  rw [List.mem_range'_1] at below
  rw [Site.last, mark_locate]
  show part.mark.id < start + n.size - 1
  omega

/-- **Below a node parts have smaller numbers.** -/
theorem id_part_lt (site : Site) (start : Nat) (n : Schema Unit) :
    ∀ m ∈ (n.locate site start).descendants, ∀ part ∈ m.rule.parts, part.mark.id < m.mark.id := by
  induction n using parts_induction generalizing site start with
  | node mark rule ih =>
  rw [locate, descendants_node]
  intro m hm
  obtain ⟨q, hq, hm⟩ := List.mem_flatMap.mp hm
  revert q
  refine Rule.forall_mem_parts_mapParts fun i path part hp => ?_
  intro hm
  rcases List.mem_append.mp hm with hm | hm
  · exact ih part hp _ _ m hm
  · rw [List.mem_singleton.mp hm]
    exact id_part_last_lt _ _ part

end Schema

/-! ### Forests -/

namespace Document

/-- The nodes below the labels and below the root. -/
def inner {α : Type} (d : Document α) : List (Schema α) :=
  d.labels.values.flatMap Schema.descendants ++ d.root.descendants

theorem nodes_eq {α : Type} (d : Document α) :
    d.nodes = d.labels.values ++ (d.inner ++ [d.root]) := by
  simp only [nodes, inner, List.append_assoc]

/-- The nodes of a document, tree by tree. -/
theorem nodes_perm {α : Type} (d : Document α) :
    d.nodes.Perm ((d.labels.values.flatMap fun body => body.descendants ++ [body]) ++
      (d.root.descendants ++ [d.root])) := by
  have bodies := List.flatMap_append_perm d.labels.values (fun body => [body]) Schema.descendants
  rw [List.flatMap_singleton'] at bodies
  rw [nodes, List.append_assoc]
  refine (bodies.trans (List.Perm.flatMap_left _ fun body _ => ?_)).append_right _
  exact List.perm_append_comm

/-- **The parts of the nodes of a document are its inner nodes**, each once. -/
theorem flatMap_parts_nodes_perm {α : Type} (d : Document α) :
    (d.nodes.flatMap fun n => n.rule.parts).Perm d.inner := by
  refine (d.nodes_perm.flatMap_right _).trans ?_
  rw [List.flatMap_append, List.flatMap_assoc]
  refine List.Perm.append (List.Perm.flatMap_left _ fun body _ => ?_) d.root.flatMap_parts_perm
  exact body.flatMap_parts_perm

/-! ### Numbers as positions -/

section

variable {e : Document Unit}

/-- The number of a node is its position. -/
theorem id_of_node? {id : Nat} {n : Node} (h : e.locate.node? id = some n) : n.mark.id = id := by
  have position := congrArg (fun ids => ids[id]?) (ids_nodes_locate e)
  have small : id < e.locate.nodes.length := (List.getElem?_eq_some_iff.mp h).1
  rw [node?] at h
  simpa only [List.getElem?_map, h, Option.map_some, List.getElem?_range small,
    Option.some.injEq] using position

theorem node?_eq_some_of_mem {n : Node} (hn : n ∈ e.locate.nodes) :
    e.locate.node? n.mark.id = some n := by
  obtain ⟨i, hi⟩ := List.mem_iff_getElem?.mp hn
  rw [id_of_node? hi]
  exact hi

theorem nodup_nodes_locate (e : Document Unit) : e.locate.nodes.Nodup := by
  refine List.Nodup.of_map (·.mark.id) ?_
  rw [ids_nodes_locate]
  exact List.nodup_range

theorem eq_of_id_eq {n m : Node} (hn : n ∈ e.locate.nodes) (hm : m ∈ e.locate.nodes)
    (same : n.mark.id = m.mark.id) : n = m := by
  have := node?_eq_some_of_mem hn
  rw [same, node?_eq_some_of_mem hm] at this
  exact (Option.some.inj this).symm

theorem size_labels_locate (e : Document Unit) : e.locate.labels.size = e.labels.size := by
  rw [Mapping.size, Mapping.size]
  exact congrArg List.length (keys_locateLabels e.labels)

/-- The labels are the nodes with the first numbers. -/
theorem mem_values_labels_iff {n : Node} (hn : n ∈ e.locate.nodes) :
    n ∈ e.locate.labels.values ↔ n.mark.id < e.locate.labels.size := by
  have ids : e.locate.labels.values.map (·.mark.id) = List.range' 0 e.labels.size :=
    ids_labels e.labels
  have first : n.mark.id ∈ e.locate.labels.values.map (·.mark.id) ↔
      n.mark.id < e.locate.labels.size := by
    rw [ids, List.mem_range'_1, size_labels_locate]
    omega
  rw [← first]
  constructor
  · exact fun h => List.mem_map_of_mem h
  · intro h
    obtain ⟨m, hm, same⟩ := List.mem_map.mp h
    have : m ∈ e.locate.nodes := by
      rw [nodes_eq]
      exact List.mem_append_left _ hm
    exact eq_of_id_eq this hn same ▸ hm

/-- The inner nodes are those that are no label and not the root. -/
theorem mem_inner_iff {n : Node} (hn : n ∈ e.locate.nodes) :
    n ∈ e.locate.inner ↔ e.locate.labels.size ≤ n.mark.id ∧ n.mark.id ≠ e.locate.root.mark.id := by
  have nodup := nodup_nodes_locate e
  have hn' := hn
  rw [nodes_eq] at nodup hn'
  obtain ⟨-, rest, apart⟩ := List.nodup_append.mp nodup
  obtain ⟨-, -, apart_root⟩ := List.nodup_append.mp rest
  rw [← Nat.not_lt, ← mem_values_labels_iff hn]
  constructor
  · intro h
    refine ⟨fun hv => apart n hv n (List.mem_append_left _ h) rfl, fun same => ?_⟩
    exact apart_root n h _ (List.mem_singleton_self _) (eq_of_id_eq hn (root_mem_nodes _) same)
  · rintro ⟨hv, hr⟩
    have := (List.mem_append.mp hn').resolve_left hv
    refine (List.mem_append.mp this).resolve_right fun h => hr ?_
    rw [List.mem_singleton.mp h]

end

/-! ### Arenas -/

end Document

namespace Rule

/-- A rule that lists its parts or members lists at least one; members are null, booleans,
numbers and strings. -/
def IsFilled {β : Type} : Rule β → Prop
  | array initial rest => initial ++ [rest] ≠ []
  | tuple elements => elements.toList ≠ []
  | oneof alternatives => alternatives.toList ≠ []
  | enum members => members.toList ≠ [] ∧ ∀ member ∈ members.toList,
      member.toValue.kind ∈ [Kind.null, Kind.bool, Kind.number, Kind.string]
  | _ => True

theorem isFilled {β : Type} (rule : Rule β) : rule.IsFilled := by
  cases rule with
  | array initial rest => exact List.append_ne_nil_of_right_ne_nil _ (List.cons_ne_nil _ _)
  | tuple elements => exact elements.toList_ne_nil
  | oneof alternatives => exact alternatives.toList_ne_nil
  | enum members =>
    refine ⟨members.toList_ne_nil, fun member _ => ?_⟩
    cases member <;> simp [Literal.toValue, Value.kind]
  | _ => trivial

end Rule

namespace Document

/-- From a node, by its number, to a part at a position, by its number. -/
def HasPart (d : Document Site) (parent position part : Nat) : Prop :=
  ∃ n m, d.node? parent = some n ∧ n.rule.parts[position]? = some m ∧ m.mark.id = part

/-- What makes the nodes of a document an arena. -/
structure IsArena (d : Document Site) : Prop where
  node?_root : d.node? d.root.mark.id = some d.root
  node?_child : ∀ n ∈ d.nodes, ∀ m ∈ d.children n, d.node? m.mark.id = some m
  isFilled : ∀ n ∈ d.nodes, n.rule.IsFilled
  /-- The labels have the first numbers, in the order of their declaration. -/
  ids_labels : d.labels.values.map (·.mark.id) = List.range d.labels.size
  /-- A reference leads to its label. -/
  target : ∀ n ∈ d.nodes, ∀ label, n.rule = .ref label →
    ∃ slot, d.labels.keys[slot]? = some label ∧ (d.children n).map (·.mark.id) = [slot]
  /-- The children of a node that is no label come before it. -/
  child_lt : ∀ n ∈ d.nodes, d.labels.size ≤ n.mark.id →
    ∀ m ∈ d.children n, m.mark.id < n.mark.id
  /-- A node that is no label and not the root has one parent, at one position. -/
  existsUnique_parent : ∀ id < d.nodes.length, d.labels.size ≤ id → id ≠ d.root.mark.id →
    ∃! place : Nat × Nat, d.HasPart place.1 place.2 id
  /-- Labels and the root have no parent. -/
  inner_of_hasPart : ∀ parent position part, d.HasPart parent position part →
    d.labels.size ≤ part ∧ part ≠ d.root.mark.id
  /-- Only references lead back. -/
  acyclic : ∀ id, ¬ Relation.TransGen (fun parent part => ∃ position,
    d.HasPart parent position part) id id

section

variable {e : Document Unit}

/-- **A node has one parent at most**, and is one of its parts only. -/
theorem place_unique {n n' m : Node} {i j : Nat} (hn : n ∈ e.locate.nodes)
    (hn' : n' ∈ e.locate.nodes) (hi : n.rule.parts[i]? = some m)
    (hj : n'.rule.parts[j]? = some m) : n = n' ∧ i = j := by
  have nodup : (e.locate.nodes.flatMap fun n => n.rule.parts).Nodup := by
    rw [(flatMap_parts_nodes_perm e.locate).nodup_iff]
    have := nodup_nodes_locate e
    rw [nodes_eq] at this
    exact (List.nodup_append.mp (List.nodup_append.mp this).2.1).1
  obtain ⟨parts, apart⟩ := List.nodup_flatMap.mp nodup
  have symm : Std.Symm (Function.onFun List.Disjoint fun n : Node => n.rule.parts) :=
    ⟨fun _ _ h => h.symm⟩
  have same : n = n' := by
    by_contra differ
    exact apart.forall hn hn' differ (List.mem_of_getElem? hi) (List.mem_of_getElem? hj)
  subst same
  have small := (List.getElem?_eq_some_iff.mp hi).1
  exact ⟨rfl, (List.getElem?_inj small (parts n hn)).mp (hi.trans hj.symm)⟩

/-- The children of a node are nodes, if every reference has a target. -/
theorem mem_nodes_of_mem_children {α : Type} {d : Document α} {n m : Schema α} (hn : n ∈ d.nodes)
    (h : m ∈ d.children n) : m ∈ d.nodes := by
  unfold children at h
  split at h
  · exact mem_nodes_of_body? (Option.mem_toList.mp h)
  · exact mem_nodes_of_mem_parts hn h

/-- Parts belong to inner nodes. -/
theorem mem_inner_of_mem_parts {n m : Node} (hn : n ∈ e.locate.nodes) (h : m ∈ n.rule.parts) :
    m ∈ e.locate.inner :=
  (flatMap_parts_nodes_perm e.locate).mem_iff.mp (List.mem_flatMap.mpr ⟨n, hn, h⟩)

/-- A label has its position for its number. -/
theorem id_of_body? {label : String} {body : Node} (h : e.locate.body? label = some body) :
    e.locate.labels.keys[body.mark.id]? = some label := by
  obtain ⟨i, hi⟩ := List.mem_iff_getElem?.mp (Mapping.mem_entries_iff.mpr h)
  have ids : e.locate.labels.values.map (·.mark.id) = List.range' 0 e.labels.size :=
    ids_labels e.labels
  obtain ⟨small, -⟩ := List.getElem?_eq_some_iff.mp hi
  rw [Mapping.length_entries, size_labels_locate] at small
  have position := congrArg (fun ids => ids[i]?) ids
  simp only [Mapping.values, List.getElem?_map, hi, Option.map_some, List.getElem?_range' small,
    Option.some.injEq] at position
  rw [position, ← Mapping.entries_map_fst, List.getElem?_map]
  simp [hi]

/-- Inner nodes come after their parts. -/
theorem id_part_lt_of_mem_inner {n part : Node} (hn : n ∈ e.locate.inner)
    (h : part ∈ n.rule.parts) : part.mark.id < n.mark.id := by
  rcases List.mem_append.mp hn with hn | hn
  · obtain ⟨body, hb, hn⟩ := List.mem_flatMap.mp hn
    obtain ⟨label, hb⟩ := Mapping.mem_values_iff.mp hb
    obtain ⟨i, source, -, rfl⟩ := get?_locateLabels hb
    exact Schema.id_part_lt _ _ source n hn part h
  · exact Schema.id_part_lt _ _ e.root n hn part h

/-- **A node that is no label comes after its children.** -/
theorem id_child_lt {n m : Node} (hn : n ∈ e.locate.nodes)
    (inner : e.locate.labels.size ≤ n.mark.id) (h : m ∈ e.locate.children n) :
    m.mark.id < n.mark.id := by
  unfold children at h
  split at h
  · next label _ =>
    have body := id_of_body? (Option.mem_toList.mp h)
    exact Nat.lt_of_lt_of_le (List.getElem?_eq_some_iff.mp body).1 inner
  · by_cases root : n.mark.id = e.locate.root.mark.id
    · obtain rfl := eq_of_id_eq hn (root_mem_nodes _) root
      exact Schema.id_part_last_lt _ _ e.root m h
    · exact id_part_lt_of_mem_inner ((mem_inner_iff hn).mpr ⟨inner, root⟩) h

theorem existsUnique_place {id : Nat} (small : id < e.locate.nodes.length)
    (inner : e.locate.labels.size ≤ id) (ne : id ≠ e.locate.root.mark.id) :
    ∃! place : Nat × Nat, e.locate.HasPart place.1 place.2 id := by
  obtain ⟨m, hm⟩ : ∃ m, e.locate.node? id = some m := ⟨_, List.getElem?_eq_getElem small⟩
  have hid := id_of_node? hm
  have mem : m ∈ e.locate.nodes := List.mem_of_getElem? hm
  have below : m ∈ e.locate.inner := (mem_inner_iff mem).mpr ⟨hid ▸ inner, hid ▸ ne⟩
  obtain ⟨n, hn, hp⟩ := List.mem_flatMap.mp ((flatMap_parts_nodes_perm e.locate).mem_iff.mpr below)
  obtain ⟨i, hi⟩ := List.mem_iff_getElem?.mp hp
  refine ⟨(n.mark.id, i), ⟨n, m, node?_eq_some_of_mem hn, hi, hid⟩, ?_⟩
  rintro ⟨parent, j⟩ ⟨n', m', hn', hj, hid'⟩
  have mem' : n' ∈ e.locate.nodes := List.mem_of_getElem? hn'
  have part := mem_nodes_of_mem_parts mem' (List.mem_of_getElem? hj)
  obtain rfl := eq_of_id_eq part mem (hid'.trans hid.symm)
  obtain ⟨rfl, rfl⟩ := place_unique hn mem' hi hj
  exact Prod.ext (id_of_node? hn').symm rfl

/-- Parts are smaller, so only references lead back. -/
theorem not_transGen_hasPart (id : Nat) : ¬ Relation.TransGen (fun parent part => ∃ position,
    e.locate.HasPart parent position part) id id := by
  refine acyclic_of_lt (fun id => (e.locate.node? id).elim 0 Schema.size) ?_ id
  rintro parent part ⟨position, ⟨mark, rule⟩, m, hn, hm, rfl⟩
  have hp := List.mem_of_getElem? hm
  have mem := mem_nodes_of_mem_parts (List.mem_of_getElem? hn) hp
  rw [hn, node?_eq_some_of_mem mem]
  show m.size < (Schema.node mark rule).size
  exact Schema.size_lt_of_mem_parts hp

end

/-- **A compiled document is an arena.** -/
theorem isArena_of_compile {source : Value} {d : Document Site} (h : compile source = .ok d) :
    d.IsArena := by
  have complete := complete_of_compile h
  obtain ⟨e, -, rfl⟩ := compile_eq_ok_iff.mp h
  refine
    { node?_root := node?_eq_some_of_mem (root_mem_nodes _)
      node?_child := fun n hn m hm => node?_eq_some_of_mem (mem_nodes_of_mem_children hn hm)
      isFilled := fun n _ => n.rule.isFilled
      ids_labels := ?_
      target := ?_
      child_lt := fun n hn inner m hm => id_child_lt hn inner hm
      existsUnique_parent := fun id small inner ne => existsUnique_place small inner ne
      inner_of_hasPart := ?_
      acyclic := not_transGen_hasPart }
  · rw [size_labels_locate, List.range_eq_range']
    exact Document.ids_labels e.labels
  · rintro ⟨mark, rule⟩ hn label rfl
    obtain ⟨body, hb⟩ := complete mark label hn
    refine ⟨body.mark.id, id_of_body? hb, ?_⟩
    show ((e.locate.body? label).toList).map _ = _
    rw [hb]
    rfl
  · rintro parent position part ⟨n, m, hn, hm, rfl⟩
    have hp := List.mem_of_getElem? hm
    have mem : n ∈ e.locate.nodes := List.mem_of_getElem? hn
    exact (mem_inner_iff (mem_nodes_of_mem_parts mem hp)).mp (mem_inner_of_mem_parts mem hp)

/-- Trees of texts, of which the one label refers to itself. -/
theorem isArena_tree : compile treeSource = .ok tree.locate ∧ tree.locate.IsArena :=
  ⟨compile_treeSource, isArena_of_compile compile_treeSource⟩

end Document

end TreeSchema
