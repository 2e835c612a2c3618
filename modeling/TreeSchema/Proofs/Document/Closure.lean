import Mathlib
import TreeSchema.Document.Nodes
import TreeSchema.Proofs.Traversal

/-!
# The nodes of a document are closed

Whatever a node of a document leads to is a node of the document: its parts, and
the body of a label. In a document that was read from a source every reference
has a body to lead to.

* `Document.mem_nodes_of_mem_parts`, `Document.mem_nodes_of_body?`,
  `Document.mem_nodes_of_unfolds` — the nodes are closed under what they lead to.
* `Document.ofSource_eq_ok_iff` — what reading a source amounts to.
* `Document.complete_of_compile` — every reference of a compiled document has a target.
* `Document.unfolds_induction`, `Document.descent`, `Document.descent_nodes` — induction on
  the height of a schema, and on the size of a value with it.
-/

namespace TreeSchema

/-! ### Parts -/

namespace Rule

variable {β γ : Type}

theorem itemAt_of_getElem? {initial : List β} {rest part : β} {i : Nat}
    (h : initial[i]? = some part) : itemAt initial rest i = part := by
  rw [itemAt, h, Option.getD_some]

theorem itemAt_length_add (initial : List β) (rest : β) (i : Nat) :
    itemAt initial rest (initial.length + i) = rest := by
  rw [itemAt, List.getElem?_eq_none (Nat.le_add_right _ _), Option.getD_none]

theorem mem_parts_itemAt (initial : List β) (rest : β) (i : Nat) :
    itemAt initial rest i ∈ (array initial rest).parts := by
  unfold itemAt
  cases h : initial[i]? with
  | none => exact mem_parts_rest initial rest
  | some part => exact mem_parts_initial (List.mem_of_getElem? h)

/-- What a function makes of every part, it makes of the parts of the new rule. -/
theorem forall_mem_parts_mapParts {rule : Rule β}
    {f : Nat → Path → (part : β) → part ∈ rule.parts → γ} {P : γ → Prop}
    (h : ∀ i path part hp, P (f i path part hp)) : ∀ q ∈ (rule.mapParts f).parts, P q := by
  have same : (rule.mapParts f).parts.map P = rule.parts.map fun _ => True :=
    map_parts_mapParts rule f (k := fun _ => True) fun i path part hp => eq_true (h i path part hp)
  intro q hq
  have : P q ∈ rule.parts.map fun _ => True := same ▸ List.mem_map_of_mem hq
  obtain ⟨-, -, hP⟩ := List.mem_map.mp this
  exact hP ▸ trivial

end Rule

namespace Schema

variable {α : Type}

theorem mem_descendants_of_mem_parts {n part : Schema α} (h : part ∈ n.rule.parts) :
    part ∈ n.descendants := by
  obtain ⟨mark, rule⟩ := n
  rw [descendants_node]
  exact List.mem_flatMap.mpr ⟨part, h, by simp⟩

theorem descendants_subset {n part : Schema α} (h : part ∈ n.rule.parts) :
    part.descendants ⊆ n.descendants := by
  obtain ⟨mark, rule⟩ := n
  intro m hm
  rw [descendants_node]
  exact List.mem_flatMap.mpr ⟨part, h, List.mem_append_left _ hm⟩

/-- What is below a schema is closed under parts. -/
theorem part_mem_descendants {n m part : Schema α} (hm : m ∈ n.descendants)
    (h : part ∈ m.rule.parts) : part ∈ n.descendants := by
  induction n using parts_induction with
  | node mark rule ih =>
  rw [descendants_node] at hm
  obtain ⟨q, hq, hm⟩ := List.mem_flatMap.mp hm
  have sub := descendants_subset (n := .node mark rule) hq
  rcases List.mem_append.mp hm with hm | hm
  · exact sub (ih q hq hm)
  · obtain rfl := List.mem_singleton.mp hm
    exact sub (mem_descendants_of_mem_parts h)

/-- Every reference in the schema is to one of the labels. -/
inductive Closed (labels : List String) : Schema α → Prop where
  | node {mark : α} {rule : Rule (Schema α)} :
      (∀ label, rule = .ref label → label ∈ labels) →
      (∀ part ∈ rule.parts, Closed labels part) → Closed labels (.node mark rule)

theorem Closed.of_mem_descendants {labels : List String} {n m : Schema α} (h : n.Closed labels)
    (hm : m ∈ n.descendants) : m.Closed labels := by
  induction h with
  | @node mark rule _ parts ih =>
    rw [descendants_node] at hm
    obtain ⟨part, hp, hm⟩ := List.mem_flatMap.mp hm
    rcases List.mem_append.mp hm with hm | hm
    · exact ih part hp hm
    · obtain rfl := List.mem_singleton.mp hm
      exact parts _ hp

/-- Marking keeps the references. -/
theorem Closed.locate {labels : List String} {n : Schema Unit} (h : n.Closed labels)
    (site : Site) (start : Nat) : (n.locate site start).Closed labels := by
  induction n using parts_induction generalizing site start with
  | node mark rule ih =>
  cases h with
  | node refs parts =>
  rw [Schema.locate]
  refine .node ?_ ?_
  · intro label hl
    cases rule with
    | ref label' =>
      cases hl
      exact refs label rfl
    | _ => cases hl
  · refine Rule.forall_mem_parts_mapParts ?_
    intro i path part hp
    exact ih part hp (parts part hp) _ _

/-- **What is read refers to defined labels only.** -/
theorem closed_of_ofSource {labels : List String} {defined : String → Bool}
    (hdef : ∀ label, defined label = true → label ∈ labels) {v : Value} {n : Schema Unit}
    (h : ofSource defined v = .ok n) : n.Closed labels := by
  induction hs : v.size using Nat.strongRecOn generalizing v n with
  | ind size ih =>
  -- Arguments of a directive are read one by one, each from a smaller source.
  have read : ∀ {form : Form} {xs : OneOrMore Value} {ys : OneOrMore (Schema Unit)},
      Form.ofValue v = .ok form → form.fragments = xs.toList →
      xs.traverse 0 (fun i x _ => within (Rule.argumentPath i) (ofSource defined x)) = .ok ys →
      ∀ y ∈ ys.toList, y.Closed labels := by
    intro form xs ys hf hx hys y hy
    obtain ⟨i, hi⟩ := List.mem_iff_getElem?.mp hy
    obtain ⟨x, hxi, hxy⟩ := (OneOrMore.traverse_eq_ok_iff.mp hys).exists_left hi
    have smaller := Form.size_lt_of_mem_fragments hf (hx ▸ List.mem_of_getElem? hxi)
    exact ih x.size (hs ▸ smaller) (within_eq_ok hxy) rfl
  rw [ofSource] at h
  split at h
  case h_1 => cases h
  case h_2 =>
    cases h
    exact .node (by rintro label ⟨⟩) (by rintro part ⟨⟩)
  case h_3 =>
    cases h
    exact .node (by rintro label ⟨⟩) (by rintro part ⟨⟩)
  case h_4 =>
    obtain ⟨members, -, h⟩ := bind_eq_ok h
    cases h
    exact .node (by rintro label ⟨⟩) (by rintro part ⟨⟩)
  case h_5 elements hf =>
    obtain ⟨ys, hys, h⟩ := bind_eq_ok h
    cases h
    exact .node (by rintro label ⟨⟩) (read hf rfl hys)
  case h_6 items hf =>
    obtain ⟨ys, hys, h⟩ := bind_eq_ok h
    cases h
    refine .node (by rintro label ⟨⟩) ?_
    rw [Rule.parts, OneOrMore.initial_append_last]
    exact read hf rfl hys
  case h_7 values hf =>
    obtain ⟨y, hy, h⟩ := bind_eq_ok h
    cases h
    refine .node (by rintro label ⟨⟩) ?_
    intro part hp
    obtain rfl := List.mem_singleton.mp hp
    exact ih values.size (hs ▸ Form.size_lt_of_mem_fragments hf List.mem_cons_self)
      (within_eq_ok hy) rfl
  case h_8 alternatives hf =>
    obtain ⟨ys, hys, h⟩ := bind_eq_ok h
    cases h
    exact .node (by rintro label ⟨⟩) (read hf rfl hys)
  case h_9 label hf =>
    rw [refOfSource] at h
    split at h
    next hl =>
      cases h
      refine .node ?_ (by rintro part ⟨⟩)
      rintro label' hl'
      cases hl'
      exact hdef label hl
    next => cases h
  case h_10 sources hf =>
    obtain ⟨fields, hfields, h⟩ := bind_eq_ok h
    cases h
    refine .node (by rintro label ⟨⟩) ?_
    intro part hp
    obtain ⟨field, hfield, rfl⟩ := List.mem_map.mp hp
    obtain ⟨key, hk⟩ := Mapping.mem_values_iff.mp hfield
    obtain ⟨x, hx, hread⟩ := (Mapping.traverse_eq_ok_iff.mp hfields).exists_left hk
    have smaller : x.size < v.size :=
      Form.size_lt_of_mem_fragments hf (Mapping.mem_values_iff.mpr ⟨key, hx⟩)
    split at hread
    next => cases hread
    next form hform =>
      obtain ⟨type, htype, hread⟩ := bind_eq_ok hread
      cases hread
      have : form.type.size ≤ x.size := FieldForm.size_le_of_ofValue hform
      exact ih form.type.size (by omega) (within_eq_ok htype) rfl

end Schema

/-! ### Nodes -/

namespace Document

variable {α : Type}

theorem mem_nodes_iff {d : Document α} {n : Schema α} :
    n ∈ d.nodes ↔ (∃ label body, d.body? label = some body ∧ (n = body ∨ n ∈ body.descendants)) ∨
      n = d.root ∨ n ∈ d.root.descendants := by
  simp only [nodes, List.mem_append, List.mem_flatMap, Mapping.mem_values_iff,
    List.mem_singleton, body?]
  grind

theorem root_mem_nodes (d : Document α) : d.root ∈ d.nodes :=
  mem_nodes_iff.mpr (.inr (.inl rfl))

/-- The body of a label is a node. -/
theorem mem_nodes_of_body? {d : Document α} {label : String} {body : Schema α}
    (h : d.body? label = some body) : body ∈ d.nodes :=
  mem_nodes_iff.mpr (.inl ⟨label, body, h, .inl rfl⟩)

/-- **Parts of nodes are nodes.** -/
theorem mem_nodes_of_mem_parts {d : Document α} {n part : Schema α} (hn : n ∈ d.nodes)
    (h : part ∈ n.rule.parts) : part ∈ d.nodes := by
  have below : ∀ {top : Schema α}, n = top ∨ n ∈ top.descendants → part ∈ top.descendants := by
    rintro top (rfl | hm)
    · exact Schema.mem_descendants_of_mem_parts h
    · exact Schema.part_mem_descendants hm h
  rcases mem_nodes_iff.mp hn with ⟨label, body, hb, hm⟩ | hm
  · exact mem_nodes_iff.mpr (.inl ⟨label, body, hb, .inr (below hm)⟩)
  · exact mem_nodes_iff.mpr (.inr (.inr (below hm)))

/-- What a node unfolds to is a node. -/
theorem mem_nodes_of_unfolds {d : Document α} {n m : Schema α} (hn : n ∈ d.nodes)
    (h : d.Unfolds n m) : m ∈ d.nodes := by
  cases h with
  | target hb => exact mem_nodes_of_body? hb
  | alternative ha => exact mem_nodes_of_mem_parts hn (Rule.mem_parts_oneof ha)

/-- Every reference in the document has a body to lead to. -/
def Complete (d : Document α) : Prop :=
  ∀ mark label, Schema.node mark (.ref label) ∈ d.nodes → ∃ body, d.body? label = some body

theorem complete_of_closed {d : Document α}
    (bodies : ∀ label body, d.body? label = some body → body.Closed d.labels.keys)
    (root : d.root.Closed d.labels.keys) : d.Complete := by
  intro mark label hn
  have closed : (Schema.node mark (.ref label)).Closed d.labels.keys := by
    rcases mem_nodes_iff.mp hn with ⟨label', body, hb, rfl | hm⟩ | hm | hm
    · exact bodies label' _ hb
    · exact (bodies label' body hb).of_mem_descendants hm
    · exact hm ▸ root
    · exact root.of_mem_descendants hm
  cases closed with
  | node refs => exact Option.isSome_iff_exists.mp (Mapping.get?_isSome_iff.mpr (refs label rfl))

/-! ### Documents that were read -/

theorem readParts_eq_ok_iff {sources : Mapping Value}
    {guarded : Search.Guarded (sourceLabelHeads sources) sources.keys}
    {root : Except SchemaError Value} {d : Document Unit} :
    readParts sources guarded root = .ok d ↔
      readLabels sources = .ok d.labels ∧ ∃ v, root = .ok v ∧
        Schema.within schemaPath (Schema.ofSource sources.contains v) = .ok d.root := by
  unfold readParts
  split
  · next e he => simp [he]
  · next labels hl =>
    constructor
    · intro h
      obtain ⟨v, hv, h⟩ := bind_eq_ok h
      obtain ⟨n, hn, h⟩ := bind_eq_ok h
      cases h
      exact ⟨hl, v, hv, hn⟩
    · rintro ⟨hd, v, hv, hn⟩
      obtain ⟨labels', root', guarded'⟩ := d
      obtain rfl : labels = labels' := Except.ok.inj (hl.symm.trans hd)
      exact bind_eq_ok_iff.mpr ⟨v, hv, bind_eq_ok_iff.mpr ⟨root', hn, rfl⟩⟩

/-- **Reading a source, step by step**: the version, the labels, that they are
guarded, what they stand for, and the root. -/
theorem ofSource_eq_ok_iff {fields : Mapping Value} {d : Document Unit} :
    ofSource (.mapping fields) = .ok d ↔
      checkVersion fields = .ok () ∧ ∃ sources, labelSources fields = .ok sources ∧
        sources.keys.find? (isUnguarded sources) = none ∧ readLabels sources = .ok d.labels ∧
        ∃ v, rootSource fields = .ok v ∧
          Schema.within schemaPath (Schema.ofSource sources.contains v) = .ok d.root := by
  constructor
  · intro h
    obtain ⟨u, hu, h⟩ := bind_eq_ok h
    obtain ⟨sources, hs, h⟩ := bind_eq_ok h
    refine ⟨hu, sources, hs, ?_⟩
    split at h
    · cases h
    · next hg => exact ⟨hg, readParts_eq_ok_iff.mp h⟩
  · rintro ⟨hu, sources, hs, hg, hparts⟩
    refine bind_eq_ok_iff.mpr ⟨(), hu, bind_eq_ok_iff.mpr ⟨sources, hs, ?_⟩⟩
    split
    · next label hl => simp [hg] at hl
    · exact readParts_eq_ok_iff.mpr hparts

/-- A source that is read is a mapping. -/
theorem exists_mapping_of_ofSource {source : Value} {d : Document Unit}
    (h : ofSource source = .ok d) : ∃ fields, source = .mapping fields := by
  unfold ofSource at h
  split at h
  · exact ⟨_, rfl⟩
  · cases h

theorem compile_eq_ok_iff {source : Value} {d : Document Site} :
    compile source = .ok d ↔ ∃ e, ofSource source = .ok e ∧ e.locate = d := by
  rw [compile]
  cases ofSource source <;> simp [Except.map]

theorem get?_locateLabels {labels : Mapping (Schema Unit)} {label : String} {body : Node}
    (h : (locateLabels labels).get? label = some body) :
    ∃ i source, labels.get? label = some source ∧
      body = locateLabel (sizesBelow labels) i label source := by
  rw [← Mapping.mem_entries_iff, locateLabels, Mapping.entries_ofEntries] at h
  obtain ⟨i, hi, he⟩ := List.mem_mapIdx.mp h
  cases he
  exact ⟨i, _, Mapping.get?_of_mem_entries (List.getElem_mem hi), rfl⟩

/-- **In a compiled document every reference has a target.** -/
theorem complete_of_compile {source : Value} {d : Document Site} (h : compile source = .ok d) :
    d.Complete := by
  obtain ⟨e, hs, rfl⟩ := compile_eq_ok_iff.mp h
  obtain ⟨fields, rfl⟩ := exists_mapping_of_ofSource hs
  obtain ⟨-, sources, -, -, hlabels, v, -, hroot⟩ := ofSource_eq_ok_iff.mp hs
  have keys : e.labels.keys = sources.keys := Mapping.keys_of_traverse hlabels
  have defined : ∀ label, sources.contains label = true → label ∈ e.labels.keys := by
    intro label hl
    rw [keys]
    exact Mapping.contains_iff.mp hl
  have located : e.locate.labels.keys = e.labels.keys := keys_locateLabels e.labels
  refine complete_of_closed ?_ ?_
  · intro label body hb
    obtain ⟨i, n, hn, rfl⟩ := get?_locateLabels hb
    obtain ⟨x, hx, hread⟩ := (Mapping.traverse_eq_ok_iff.mp hlabels).exists_left hn
    rw [located]
    exact (Schema.closed_of_ofSource defined (Schema.within_eq_ok hread)).locate _ _
  · rw [located]
    exact (Schema.closed_of_ofSource defined (Schema.within_eq_ok hroot)).locate _ _

/-! ### Induction -/

/-- **Induction along references and alternatives.** What holds of a schema if it holds of
what the schema unfolds to holds of all. -/
theorem unfolds_induction (d : Document α) {motive : Schema α → Prop}
    (step : ∀ n, (∀ m, d.Unfolds n m → motive m) → motive n) (n : Schema α) : motive n :=
  step n fun m _ => unfolds_induction d step m
termination_by d.height n
decreasing_by exact d.height_lt ‹_›

/-- **Induction on a value and a schema.** What holds of a schema and a value if it
holds of every schema and smaller value, and of what the schema unfolds to and the
same value, holds of all. -/
theorem descent (d : Document α) {motive : Schema α → Value → Prop}
    (step : ∀ n v, (∀ m w, w.size < v.size → motive m w) →
      (∀ m, d.Unfolds n m → motive m v) → motive n v) (n : Schema α) (v : Value) :
    motive n v :=
  step n v (fun m w _ => descent d step m w) (fun m _ => descent d step m v)
termination_by (v.size, d.height n)
decreasing_by
  · exact .left _ _ ‹_›
  · exact .right _ (d.height_lt ‹_›)

/-- **Induction on a value and a node of a document**: what holds of a node if it holds of
its parts and smaller values, and of what it unfolds to, holds of all nodes. -/
theorem descent_nodes (d : Document α) {motive : Schema α → Value → Prop}
    (step : ∀ mark rule v, .node mark rule ∈ d.nodes →
      (∀ part ∈ rule.parts, ∀ w, w.size < v.size → motive part w) →
      (∀ m, d.Unfolds (.node mark rule) m → motive m v) → motive (.node mark rule) v)
    {n : Schema α} (hn : n ∈ d.nodes) (v : Value) : motive n v := by
  refine d.descent (motive := fun n v => n ∈ d.nodes → motive n v) ?_ n v hn
  intro n v smaller unfolded hn
  obtain ⟨mark, rule⟩ := n
  refine step mark rule v hn ?_ ?_
  · intro part hp w hw
    exact smaller part w hw (mem_nodes_of_mem_parts hn hp)
  · intro m hm
    exact unfolded m hm (mem_nodes_of_unfolds hn hm)

/-! ### A recursive document -/

/-- The source of trees of texts, or nothing. -/
def treeSource : Value :=
  .mapping <| .ofList
    [(labelsKey, .mapping <| .ofList
      [("tree", .mapping <| .ofList
        [("text", .string "string"),
          ("children", .sequence [.string "array", .sequence [.string "ref", .string "tree"]])])]),
      (schemaKey,
        .sequence [.string "oneof", .string "null", .sequence [.string "ref", .string "tree"]])]

/-- Trees of texts, or nothing. -/
def tree : Document Unit where
  labels := .ofList
    [("tree", .node () <| .object <| .ofList
      [("text", ⟨false, .node () (.scalar .string)⟩),
        ("children", ⟨false, .node () (.array [] (.node () (.ref "tree")))⟩)])]
  root := .node () (.oneof ⟨.node () (.scalar .null), [.node () (.ref "tree")]⟩)
  guarded := of_decide_eq_true (by cbv)

theorem ofSource_treeSource : ofSource treeSource = .ok tree :=
  ofSource_eq_ok_iff.mpr ⟨by cbv, _, rfl, by cbv, by cbv, _, rfl, by cbv⟩

theorem compile_treeSource : compile treeSource = .ok tree.locate := by
  rw [compile, ofSource_treeSource]
  rfl

end Document

end TreeSchema
