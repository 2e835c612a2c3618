import TreeSchema.Proofs.Document.Numbering

/-!
# Numbers handed out one by one

Marking a document computes the number of a node from the sizes of the nodes before it. The
numbers can also be handed out on a single walk over the document, which carries the next number
that is free. Every label takes its number before the body of any label is walked, as bodies may
refer to all of them; everywhere else a node takes its number when its parts have theirs.

* `Schema.allocate`, `Document.allocate` — the walk over a schema and over a document.
* `Rule.run_traverseParts` — walking the parts of a rule, each gets the numbers that follow those
  of the parts before it.
* `Schema.run_allocate` — a schema takes the numbers from the next free one on, its root the last.
* `Document.run_allocate` — **the walk from zero marks a document as `locate` does**, and takes
  as many numbers as there are nodes.
-/

namespace TreeSchema

/-! ### The walk -/

/-- Takes the next free number. -/
def takeNumber : StateM Nat Nat :=
  modifyGet fun next => (next, next + 1)

/-- Runs a step on every part of a rule, in order. It is given the path of the part in the
source of the rule, and that it is a part. -/
def Rule.traverseParts {β γ : Type} {m : Type → Type} [Monad m] (rule : Rule β)
    (f : Path → (part : β) → part ∈ rule.parts → m γ) : m (Rule γ) :=
  match rule with
  | scalar type => return scalar type
  | any => return any
  | enum members => return enum members
  | object fields => do
    let fields ← fields.traverse fun e h => do
      let type ← f (fieldPath e.1 e.2.optional) e.2.type (mem_parts_object h)
      return { optional := e.2.optional, type }
    return object fields
  | array initial rest => do
    let parts ← traverse 0 initial fun i part h => f (argumentPath i) part (mem_parts_initial h)
    let last ← f (argumentPath initial.length) rest (mem_parts_rest initial rest)
    return array parts last
  | tuple elements => do
    let elements ← elements.traverse 0 fun i part h => f (argumentPath i) part (mem_parts_tuple h)
    return tuple elements
  | dictionary values => do
    let values ← f (argumentPath 0) values (mem_parts_dictionary values)
    return dictionary values
  | oneof alternatives => do
    let alternatives ← alternatives.traverse 0 fun i part h =>
      f (argumentPath i) part (mem_parts_oneof h)
    return oneof alternatives
  | ref label => return ref label

/-- Marks a schema that was read at a place in the source: the parts take their numbers first. -/
def Schema.allocate (origin : Path) : Schema Unit → StateM Nat Node
  | node _ rule => do
    let rule ← rule.traverseParts fun path part _ => part.allocate (origin ++ path)
    let id ← takeNumber
    return node ⟨id, origin⟩ rule
termination_by n => n.size
decreasing_by exact size_lt_of_mem_parts ‹_›

/-- Marks the parts of a rule that was read at a place in the source. -/
def Rule.allocate (origin : Path) (rule : Rule (Schema Unit)) : StateM Nat (Rule Node) :=
  rule.traverseParts fun path part _ => part.allocate (origin ++ path)

/-- Marks a schema that has its number already, and what is below it. -/
def Schema.allocateAt (site : Site) : Schema Unit → StateM Nat Node
  | node _ rule => do
    let rule ← rule.allocate site.origin
    return node site rule

/-- Takes a number for a schema. -/
def Schema.reserve (n : Schema Unit) : StateM Nat (Nat × Schema Unit) := do
  let id ← takeNumber
  return (id, n)

/-- Takes a number for each label. -/
def Document.reserveLabels (labels : Mapping (Schema Unit)) :
    StateM Nat (Mapping (Nat × Schema Unit)) :=
  labels.traverse fun e _ => e.2.reserve

/-- Marks the labels, which have their numbers. -/
def Document.allocateLabels (slots : Mapping (Nat × Schema Unit)) : StateM Nat (Mapping Node) :=
  slots.traverse fun e _ => e.2.2.allocateAt ⟨e.2.1, labelPath e.1⟩

/-- Marks the labels and the root of a document. -/
def Document.allocate (d : Document Unit) : StateM Nat (Mapping Node × Node) := do
  let slots ← reserveLabels d.labels
  let labels ← allocateLabels slots
  let root ← d.root.allocate schemaPath
  return (labels, root)

theorem Schema.allocate_node (origin : Path) (mark : Unit) (rule : Rule (Schema Unit)) :
    (node mark rule).allocate origin = do
      let rule ← rule.allocate origin
      let id ← takeNumber
      return node ⟨id, origin⟩ rule := by
  rw [allocate]
  rfl

/-! ### Runs -/

section

variable {β γ : Type}

theorem run_takeNumber (next : Nat) : takeNumber.run next = (next, next + 1) := rfl

/-- A walk goes on with the number that is free when its first part has ended. -/
theorem run_bind {next middle : Nat} {first : StateM Nat β} {rest : β → StateM Nat γ} {x : β}
    (h : first.run next = (x, middle)) : (first >>= rest).run next = (rest x).run middle := by
  rw [StateT.run_bind, h]
  rfl

/-- **Steps that each take as many numbers as their element is in size**: each finds the next
free number where the elements before it have left it. -/
theorem run_traverse {xs : List β} {f : (i : Nat) → (x : β) → x ∈ xs → StateM Nat γ}
    {g : Nat → β → Nat → γ} {size : β → Nat}
    (run : ∀ i x h next, (f i x h).run next = (g i x next, next + size x)) (start next : Nat) :
    (traverse start xs f).run next =
      (xs.mapIdx fun i x => g (start + i) x (next + Schema.sizeBefore (xs.map size) i),
        next + total size xs) := by
  induction xs generalizing start next with
  | nil => rfl
  | cons x xs ih =>
    have later := ih (fun i y h => run i y (List.mem_cons_of_mem x h)) (start + 1) (next + size x)
    rw [traverse, run_bind (run ..), run_bind later, List.mapIdx_cons, total_cons, ← Nat.add_assoc]
    simp only [List.map_cons, Schema.sizeBefore_zero, Schema.sizeBefore_cons_succ, Nat.add_zero,
      ← Nat.add_assoc, Nat.add_right_comm start]
    rfl

theorem OneOrMore.run_traverse {xs : OneOrMore β}
    {f : (i : Nat) → (x : β) → x ∈ xs.toList → StateM Nat γ} {g : Nat → β → Nat → γ}
    {size : β → Nat} (run : ∀ i x h next, (f i x h).run next = (g i x next, next + size x))
    (next : Nat) :
    (xs.traverse 0 f).run next =
      (⟨g 0 xs.first next, xs.others.attach.mapIdx fun i x =>
          g (i + 1) x.1 (next + Schema.sizeBefore (xs.toList.map size) (i + 1))⟩,
        next + total size xs.toList) := by
  have others := TreeSchema.run_traverse (fun i x h => run i x (xs.other_mem h)) (0 + 1)
    (next + size xs.first)
  refine (run_bind (run ..)).trans ((run_bind others).trans ?_)
  rw [mapIdx_attach (k := fun i x => g (i + 1) x _) fun _ _ => rfl]
  simp only [toList, List.map_cons, Schema.sizeBefore_cons_succ, total_cons, ← Nat.add_assoc,
    Nat.zero_add, Nat.add_comm 1]
  rfl

theorem Mapping.exists_run_traverse {m : Mapping β}
    {f : (e : String × β) → e ∈ m.entries → StateM Nat γ} {g : String × β → Nat → γ}
    {size : String × β → Nat}
    (run : ∀ e h next, (f e h).run next = (g e next, next + size e)) (next : Nat) :
    ∃ results : Mapping γ,
      (m.traverse f).run next = (results, next + total size m.entries) ∧
        results.entries = m.entries.mapIdx fun i e =>
          (e.1, g e (next + Schema.sizeBefore (m.entries.map size) i)) := by
  have values := TreeSchema.run_traverse (fun _ e h => run e h) 0 next
  refine ⟨_, run_bind values, ?_⟩
  simp only [entries_ofEntries, ← entries_map_fst, zip_map_mapIdx]

/-! ### The parts of a rule -/

/-- **Each part of a rule gets the numbers that follow those of the parts before it.** -/
theorem Rule.run_traverseParts {rule : Rule β}
    {f : Path → (part : β) → part ∈ rule.parts → StateM Nat γ} {g : Path → β → Nat → γ}
    {size : β → Nat}
    (run : ∀ path part h next, (f path part h).run next = (g path part next, next + size part))
    (next : Nat) :
    (rule.traverseParts f).run next =
      (rule.mapParts fun i path part _ =>
          g path part (next + Schema.sizeBefore (rule.parts.map size) i),
        next + total size rule.parts) := by
  cases rule with
  | object fields =>
    have field : ∀ e (h : e ∈ fields.entries) (next : Nat),
        StateT.run (m := Id) (do
          let type ← f (fieldPath e.1 e.2.optional) e.2.type (mem_parts_object h)
          return Field.mk e.2.optional type) next =
        (Field.mk e.2.optional (g (fieldPath e.1 e.2.optional) e.2.type next),
          next + size e.2.type) :=
      fun e h next => run_bind (run ..)
    have sizes : fields.entries.map (fun e => size e.2.type) = (object fields).parts.map size := by
      simp [parts, Mapping.values]
    obtain ⟨results, walk, entries⟩ := Mapping.exists_run_traverse field next
    refine (run_bind walk).trans ?_
    rw [total, sizes]
    refine Prod.ext (congrArg object (Mapping.ext_entries ?_)) rfl
    rw [entries, sizes, Mapping.entries_ofEntries]
    exact (mapIdx_attach fun _ _ => rfl).symm
  | array initial rest =>
    have walk := run_traverse
      (fun i part h next => run (argumentPath i) part (mem_parts_initial h) next) 0 next
    have sizes : (array initial rest).parts.map size = initial.map size ++ [size rest] := by
      rw [parts, List.map_append]
      rfl
    have last : Schema.sizeBefore (initial.map size ++ [size rest]) initial.length =
        total size initial := by
      have := Schema.sizeBefore_append_length (initial.map size) [size rest]
      rwa [List.length_map, total_map] at this
    refine (run_bind walk).trans ((run_bind (run ..)).trans ?_)
    rw [mapParts, sizes, last, mapIdx_attach (k := fun i part => g (argumentPath i) part
      (next + Schema.sizeBefore (initial.map size ++ [size rest]) i)) fun _ _ => rfl]
    refine Prod.ext (congrArg (array · _) (mapIdx_congr fun i part h => ?_)) ?_
    · have bound : i ≤ (initial.map size).length := by
        rw [List.length_map]
        exact (List.getElem?_eq_some_iff.mp h).1.le
      rw [Schema.sizeBefore_append bound, Nat.zero_add]
    · rw [parts, total_append, ← Nat.add_assoc]
      rfl
  | tuple elements =>
    exact run_bind (OneOrMore.run_traverse (fun i part h => run (argumentPath i) part h) next)
  | dictionary values => exact run_bind (run ..)
  | oneof alternatives =>
    exact run_bind (OneOrMore.run_traverse (fun i part h => run (argumentPath i) part h) next)
  | _ => rfl

end

/-! ### Schemas and documents -/

/-- **A schema takes the numbers from the next free one on**, as many as it has nodes, its root
the last. -/
theorem Schema.run_allocate (origin : Path) (n : Schema Unit) (next : Nat) :
    (n.allocate origin).run next = (Site.last next origin n, next + n.size) := by
  induction n using parts_induction generalizing origin next with
  | node mark rule ih =>
  have parts := Rule.run_traverseParts
    (fun path part h next => ih part h (origin ++ path) next) next
  rw [allocate_node, size_node, Site.last, size_node, locate, Nat.add_comm 1, ← Nat.add_assoc,
    Nat.add_sub_cancel]
  exact (run_bind parts).trans (run_bind (run_takeNumber _))

/-- A schema that has its number already takes those for what is below it. -/
theorem Schema.run_allocateAt (site : Site) (n : Schema Unit) (next : Nat) :
    (n.allocateAt site).run next = (n.locate site next, next + (n.size - 1)) := by
  obtain ⟨mark, rule⟩ := n
  have parts := Rule.run_traverseParts
    (fun path part (_ : part ∈ rule.parts) next => part.run_allocate (site.origin ++ path) next) next
  rw [locate, size_node, Nat.add_sub_cancel_left]
  exact run_bind parts

theorem Schema.run_reserve (n : Schema Unit) (next : Nat) :
    n.reserve.run next = ((next, n), next + 1) := rfl

namespace Document

/-- The labels take the first numbers, in their order. -/
theorem exists_run_reserveLabels (labels : Mapping (Schema Unit)) :
    ∃ slots : Mapping (Nat × Schema Unit),
      (reserveLabels labels).run 0 = (slots, labels.size) ∧
        slots.entries = labels.entries.mapIdx fun i e => (e.1, i, e.2) := by
  obtain ⟨slots, run, entries⟩ := Mapping.exists_run_traverse
    (fun e (_ : e ∈ labels.entries) next => e.2.run_reserve next) 0
  refine ⟨slots, ?_, entries.trans (mapIdx_congr fun i e he => ?_)⟩
  · rw [reserveLabels, run, total_one, Mapping.length_entries, Nat.zero_add]
  · have before : Schema.sizeBefore (labels.entries.map fun _ => 1) i = i := by
      rw [Schema.sizeBefore, ← List.map_take, total_map]
      exact (total_one _).trans (List.length_take_of_le (List.getElem?_eq_some_iff.mp he).1.le)
    rw [before, Nat.zero_add]

/-- What is below the labels takes the numbers after those of the labels. -/
theorem run_allocateLabels {labels : Mapping (Schema Unit)} {slots : Mapping (Nat × Schema Unit)}
    (entries : slots.entries = labels.entries.mapIdx fun i e => (e.1, i, e.2)) :
    (allocateLabels slots).run labels.size =
      (locateLabels labels, labels.size + total id (sizesBelow labels)) := by
  obtain ⟨results, run, located⟩ := Mapping.exists_run_traverse
    (fun e (_ : e ∈ slots.entries) next => e.2.2.run_allocateAt ⟨e.2.1, labelPath e.1⟩ next)
    labels.size
  have sizes : slots.entries.map (fun e => e.2.2.size - 1) = sizesBelow labels := by
    rw [entries, map_mapIdx, mapIdx_eq_map labels.entries fun e => e.2.size - 1, sizesBelow,
      Mapping.values, List.map_map]
    rfl
  have same : results = locateLabels labels := by
    apply Mapping.ext_entries
    rw [located, sizes, entries, List.mapIdx_mapIdx, locateLabels, Mapping.entries_ofEntries]
    simp only [locateLabel, length_sizesBelow]
    rfl
  rw [allocateLabels, run, total, sizes, same, total, List.map_id]

/-- **Handed out one by one, the numbers are those that `locate` computes**: the walk over a
document from zero on marks every node as `locate` does, and leaves the number of its nodes. -/
theorem run_allocate (d : Document Unit) :
    d.allocate.run 0 = ((d.locate.labels, d.locate.root), d.locate.nodes.length) := by
  obtain ⟨slots, reserve, entries⟩ := exists_run_reserveLabels d.labels
  rw [length_nodes_locate]
  exact (run_bind reserve).trans
    ((run_bind (run_allocateLabels entries)).trans (run_bind (d.root.run_allocate schemaPath _)))

end Document

end TreeSchema
