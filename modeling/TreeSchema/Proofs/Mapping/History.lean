import Mathlib.Data.List.Induction
import TreeSchema.Mapping

/-!
# Histories of mappings

A mapping comes about by operations: keys are bound and removed, and a mapping may be given up
for one built from pairs. What it holds in the end, and in which order, can be read off its
history, which lists what happened to it. A key is there if it was bound and not removed since.
Its value is the one it was bound to last, but its place is that of the first time it was bound
since it was last removed.

* `Mapping.LastBound`, `Mapping.FirstBound` — what the history says about the value and the place
  of a key; `Mapping.lastBound_concat_iff`, `Mapping.firstBound_concat_iff` — as it goes on.
* `Mapping.Records` — the mapping is as the history says; `Mapping.Records.insert`,
  `Mapping.Records.erase`, `Mapping.Records.clear` — it stays so, whatever happens.
* `Mapping.records_after` — **so it is after any operations.**
* `Mapping.after_by_history` — what follows for lookups, the order of keys, and answers.
-/

namespace TreeSchema.Mapping

variable {α : Type}

/-! ### Operations -/

/-- What can be done to a mapping. -/
inductive Operation (α : Type) where
  | insert (key : String) (a : α)
  | remove (key : String)
  /-- The mapping is given up for one that is built from pairs. -/
  | build (pairs : List (String × α))

/-- What an operation answers, and the mapping after it. -/
def Operation.run (m : Mapping α) : Operation α → Option α × Mapping α
  | insert key a => m.getThenInsert key a
  | remove key => m.getThenErase key
  | build pairs => (none, ofList pairs)

/-- The mapping that operations make of the empty one. -/
def after (ops : List (Operation α)) : Mapping α :=
  ops.foldl (fun m op => (op.run m).2) ∅

/-! ### Histories -/

/-- What can happen to a mapping: a key is bound, a key is removed, or all keys are. -/
inductive Event (α : Type) where
  | insert (key : String) (a : α)
  | remove (key : String)
  | clear

/-- The mapping after an event. -/
def Event.apply (m : Mapping α) : Event α → Mapping α
  | insert key a => m.insert key a
  | remove key => m.erase key
  | clear => ∅

/-- The key is not there after the event, whether or not it was before. -/
def Event.Removes (key : String) : Event α → Prop
  | insert _ _ => False
  | remove other => other = key
  | clear => True

/-- What happens by an operation. -/
def Operation.events : Operation α → List (Event α)
  | insert key a => [.insert key a]
  | remove key => [.remove key]
  | build pairs => .clear :: pairs.map fun e => .insert e.1 e.2

/-- What happened by operations one after the other. -/
def history (ops : List (Operation α)) : List (Event α) :=
  ops.flatMap Operation.events

/-- Between some events and others the key is bound to a value, and the others do not remove
it. -/
structure Binds (events before : List (Event α)) (key : String) (a : α)
    (later : List (Event α)) : Prop where
  split : events = before ++ .insert key a :: later
  kept : ∀ e ∈ later, ¬ e.Removes key

/-- The key was bound and not removed since. -/
def Present (events : List (Event α)) (key : String) : Prop :=
  ∃ before a later, Binds events before key a later

/-- The last time the key was bound it was to this value, and it was not removed since. -/
def LastBound (events : List (Event α)) (key : String) (a : α) : Prop :=
  ∃ before later, Binds events before key a later ∧ ∀ b, .insert key b ∉ later

/-- The first time the key was bound since it was last removed is the event with this number. -/
def FirstBound (events : List (Event α)) (key : String) (i : Nat) : Prop :=
  ∃ before a later, Binds events before key a later ∧ ¬ Present before key ∧ before.length = i

section

variable {events before later : List (Event α)} {e : Event α} {key : String} {a : α} {i : Nat}

/-- A key is bound by the last event, or was bound before and is not removed by it. -/
theorem binds_concat_iff :
    Binds (events ++ [e]) before key a later ↔
      (before = events ∧ e = .insert key a ∧ later = []) ∨
        ∃ rest, later = rest ++ [e] ∧ ¬ e.Removes key ∧ Binds events before key a rest := by
  constructor
  · rintro ⟨split, kept⟩
    rcases List.eq_nil_or_concat later with rfl | ⟨rest, x, rfl⟩
    · obtain ⟨rfl, h⟩ := List.append_inj' split rfl
      exact .inl ⟨rfl, List.singleton_inj.mp h, rfl⟩
    · rw [List.concat_eq_append] at split kept ⊢
      rw [← List.cons_append, ← List.append_assoc] at split
      obtain ⟨rfl, h⟩ := List.append_inj' split rfl
      obtain rfl := List.singleton_inj.mp h
      refine .inr ⟨rest, rfl, kept e (by simp), rfl, fun x hx => kept x ?_⟩
      exact List.mem_append_left _ hx
  · rintro (⟨rfl, rfl, rfl⟩ | ⟨rest, rfl, stays, rfl, kept⟩)
    · exact ⟨rfl, fun _ h => absurd h List.not_mem_nil⟩
    · refine ⟨by simp, fun x hx => ?_⟩
      rcases List.mem_append.mp hx with hx | hx
      · exact kept x hx
      · exact List.mem_singleton.mp hx ▸ stays

theorem present_concat_iff :
    Present (events ++ [e]) key ↔
      (∃ a, e = .insert key a) ∨ (Present events key ∧ ¬ e.Removes key) := by
  simp only [Present, binds_concat_iff]
  constructor
  · rintro ⟨before, a, later, ⟨-, h, -⟩ | ⟨rest, -, stays, binds⟩⟩
    · exact .inl ⟨a, h⟩
    · exact .inr ⟨⟨before, a, rest, binds⟩, stays⟩
  · rintro (⟨a, h⟩ | ⟨⟨before, a, rest, binds⟩, stays⟩)
    · exact ⟨events, a, [], .inl ⟨rfl, h, rfl⟩⟩
    · exact ⟨before, a, rest ++ [e], .inr ⟨rest, rfl, stays, binds⟩⟩

/-- **What a key was last bound to, as the history goes on.** -/
theorem lastBound_concat_iff :
    LastBound (events ++ [e]) key a ↔
      e = .insert key a ∨
        (LastBound events key a ∧ ¬ e.Removes key ∧ ∀ b, e ≠ .insert key b) := by
  simp only [LastBound, binds_concat_iff]
  constructor
  · rintro ⟨before, later, ⟨-, h, -⟩ | ⟨rest, rfl, stays, binds⟩, last⟩
    · exact .inl h
    · refine .inr ⟨⟨before, rest, binds, fun b hb => last b ?_⟩, stays, ?_⟩
      · exact List.mem_append_left _ hb
      · rintro b rfl
        exact last b (by simp)
  · rintro (h | ⟨⟨before, rest, binds, last⟩, stays, other⟩)
    · exact ⟨events, [], .inl ⟨rfl, h, rfl⟩, fun _ => List.not_mem_nil⟩
    · refine ⟨before, rest ++ [e], .inr ⟨rest, rfl, stays, binds⟩, fun b hb => ?_⟩
      rcases List.mem_append.mp hb with hb | hb
      · exact last b hb
      · exact other b (List.mem_singleton.mp hb).symm

/-- **Where a key was first bound, as the history goes on.** -/
theorem firstBound_concat_iff :
    FirstBound (events ++ [e]) key i ↔
      ((∃ a, e = .insert key a) ∧ ¬ Present events key ∧ events.length = i) ∨
        (FirstBound events key i ∧ ¬ e.Removes key) := by
  simp only [FirstBound, binds_concat_iff]
  constructor
  · rintro ⟨before, a, later, ⟨rfl, h, -⟩ | ⟨rest, -, stays, binds⟩, absent, place⟩
    · exact .inl ⟨⟨a, h⟩, absent, place⟩
    · exact .inr ⟨⟨before, a, rest, binds, absent, place⟩, stays⟩
  · rintro (⟨⟨a, h⟩, absent, place⟩ | ⟨⟨before, a, rest, binds, absent, place⟩, stays⟩)
    · exact ⟨events, a, [], .inl ⟨rfl, h, rfl⟩, absent, place⟩
    · exact ⟨before, a, rest ++ [e], .inr ⟨rest, rfl, stays, binds⟩, absent, place⟩

theorem not_present_nil : ¬ Present ([] : List (Event α)) key := by
  rintro ⟨before, a, later, split, -⟩
  simp at split

theorem FirstBound.present (h : FirstBound events key i) : Present events key := by
  obtain ⟨before, a, later, binds, -, -⟩ := h
  exact ⟨before, a, later, binds⟩

theorem FirstBound.lt_length (h : FirstBound events key i) : i < events.length := by
  obtain ⟨before, a, later, ⟨rfl, -⟩, -, rfl⟩ := h
  simp

/-- A key that is present was bound a first time since it was last removed. -/
theorem present_iff_exists_firstBound : Present events key ↔ ∃ i, FirstBound events key i := by
  refine ⟨fun h => ?_, fun ⟨_, h⟩ => h.present⟩
  induction events using List.reverseRecOn with
  | nil => exact absurd h not_present_nil
  | append_singleton events e ih =>
    simp only [firstBound_concat_iff]
    -- A key that was present keeps its place; one that was not has the last event for it.
    by_cases before : Present events key
    · obtain ⟨i, hi⟩ := ih before
      refine ⟨i, .inr ⟨hi, ?_⟩⟩
      rcases present_concat_iff.mp h with ⟨a, rfl⟩ | ⟨-, stays⟩
      · exact id
      · exact stays
    · rcases present_concat_iff.mp h with now | ⟨still, -⟩
      · exact ⟨events.length, .inl ⟨now, before, rfl⟩⟩
      · exact absurd still before

end

/-! ### What a history says of a mapping -/

/-- The mapping is as the history says. -/
structure Records (events : List (Event α)) (m : Mapping α) : Prop where
  get?_iff : ∀ key a, m.get? key = some a ↔ LastBound events key a
  mem_keys_iff : ∀ key, key ∈ m.keys ↔ Present events key
  ordered : m.keys.Pairwise fun k k' =>
    ∀ i i', FirstBound events k i → FirstBound events k' i' → i < i'

namespace Records

variable {events : List (Event α)} {m : Mapping α}

theorem empty : Records ([] : List (Event α)) ∅ where
  get?_iff key a := by
    refine ⟨nofun, ?_⟩
    rintro ⟨before, later, binds, -⟩
    exact absurd ⟨before, a, later, binds⟩ not_present_nil
  mem_keys_iff key := iff_of_false List.not_mem_nil not_present_nil
  ordered := .nil

/-- A key that is there keeps its place, and a new one was bound later than all others. -/
theorem insert (h : Records events m) (key : String) (a : α) :
    Records (events ++ [.insert key a]) (m.insert key a) where
  get?_iff query b := by
    rw [get?_insert, lastBound_concat_iff, ← h.get?_iff]
    by_cases same : query = key
    · subst same
      simp
    · simp [same, Ne.symm same, Event.Removes]
  mem_keys_iff query := by
    rw [← get?_isSome_iff, get?_insert, present_concat_iff, ← h.mem_keys_iff, ← get?_isSome_iff]
    by_cases same : query = key
    · subst same
      simp
    · simp [same, Ne.symm same, Event.Removes]
  ordered := by
    -- Where the other keys were first bound does not change.
    have others : ∀ k i, k ∈ m.keys →
        FirstBound (events ++ [.insert key a]) k i → FirstBound events k i := by
      intro k i hk hi
      rcases firstBound_concat_iff.mp hi with ⟨-, absent, -⟩ | ⟨hi, -⟩
      · exact absurd ((h.mem_keys_iff k).mp hk) absent
      · exact hi
    have old : m.keys.Pairwise fun k k' => ∀ i i',
        FirstBound (events ++ [.insert key a]) k i →
          FirstBound (events ++ [.insert key a]) k' i' → i < i' :=
      h.ordered.imp_of_mem fun hk hk' before i i' hi hi' =>
        before i i' (others _ i hk hi) (others _ i' hk' hi')
    rw [keys_insert]
    split
    · exact old
    · next new =>
      refine List.pairwise_append.mpr ⟨old, List.pairwise_singleton _ _, ?_⟩
      intro k hk k' hk' i i' hi hi'
      obtain rfl := List.mem_singleton.mp hk'
      rcases firstBound_concat_iff.mp hi' with ⟨-, -, rfl⟩ | ⟨hi', -⟩
      · exact (others k i hk hi).lt_length
      · exact absurd ((h.mem_keys_iff k').mpr hi'.present) new

/-- The other keys keep their places. -/
theorem erase (h : Records events m) (key : String) :
    Records (events ++ [.remove key]) (m.erase key) where
  get?_iff query b := by
    rw [get?_erase, lastBound_concat_iff, ← h.get?_iff]
    by_cases same : query = key
    · subst same
      simp [Event.Removes]
    · simp [same, Ne.symm same, Event.Removes]
  mem_keys_iff query := by
    rw [keys_erase, List.mem_filter, present_concat_iff, h.mem_keys_iff]
    by_cases same : query = key
    · subst same
      simp [Event.Removes]
    · simp [same, Ne.symm same, Event.Removes]
  ordered := by
    have kept : ∀ k i, FirstBound (events ++ [.remove key]) k i → FirstBound events k i := by
      intro k i hi
      rcases firstBound_concat_iff.mp hi with ⟨⟨_, ⟨⟩⟩, -⟩ | ⟨hi, -⟩
      exact hi
    rw [keys_erase]
    exact (h.ordered.imp fun before i i' hi hi' =>
      before i i' (kept _ i hi) (kept _ i' hi')).filter _

theorem clear : Records (events ++ [.clear]) ∅ where
  get?_iff key a := by
    rw [lastBound_concat_iff]
    simp [Event.Removes]
  mem_keys_iff key := by
    rw [present_concat_iff]
    simp [Event.Removes]
  ordered := .nil

/-- **The mapping stays as the history says**, whatever happens. -/
theorem apply (h : Records events m) (e : Event α) : Records (events ++ [e]) (e.apply m) := by
  cases e with
  | insert key a => exact h.insert key a
  | remove key => exact h.erase key
  | clear => exact .clear

theorem foldl_apply (h : Records events m) (more : List (Event α)) :
    Records (events ++ more) (more.foldl Event.apply m) := by
  induction more generalizing events m with
  | nil =>
    rw [List.append_nil]
    exact h
  | cons e more ih =>
    rw [List.append_cons]
    exact ih (h.apply e)

end Records

/-- An operation does what happens by it. -/
theorem Operation.run_snd (m : Mapping α) (op : Operation α) :
    (op.run m).2 = op.events.foldl Event.apply m := by
  cases op with
  | insert | remove => rfl
  | build pairs =>
    show ofList pairs = (pairs.map fun e => Event.insert e.1 e.2).foldl Event.apply ∅
    rw [ofList_eq_foldl_insert, List.foldl_map]
    rfl

theorem after_eq_foldl_apply (ops : List (Operation α)) :
    after ops = (history ops).foldl Event.apply ∅ := by
  rw [history, List.foldl_flatMap, after]
  simp only [Operation.run_snd]

/-- **After any operations the mapping is as its history says.** -/
theorem records_after (ops : List (Operation α)) : Records (history ops) (after ops) := by
  rw [after_eq_foldl_apply]
  exact Records.empty.foldl_apply (history ops)

/-- **What a mapping holds after any operations, by its history.** Its entries have distinct keys.
A key is bound to the value of its last insert, unless it was removed later. The entries stand in
the order in which their keys were first inserted since they were last removed. Removing a key
leaves the other entries as they stand; what inserting and removing it answer is the value that
it was bound to. -/
theorem after_by_history (ops : List (Operation α)) :
    ((after ops).entries.map (·.1)).Nodup ∧
      (∀ key a, (after ops).get? key = some a ↔ LastBound (history ops) key a) ∧
      (∀ key, key ∈ (after ops).entries.map (·.1) ↔ ∃ i, FirstBound (history ops) key i) ∧
      ((after ops).entries.map (·.1)).Pairwise (fun k k' => ∀ i i',
        FirstBound (history ops) k i → FirstBound (history ops) k' i' → i < i') ∧
      (∀ key, ((Operation.remove key).run (after ops)).2.entries =
        (after ops).entries.filter (·.1 != key)) ∧
      (∀ key a old, ((Operation.insert key a).run (after ops)).1 = some old ↔
        LastBound (history ops) key old) ∧
      ∀ key old, ((Operation.remove key).run (after ops)).1 = some old ↔
        LastBound (history ops) key old := by
  have records := records_after ops
  rw [entries_map_fst]
  refine ⟨(after ops).nodup, records.get?_iff, fun key => ?_, records.ordered,
    entries_erase (after ops), fun key _ => records.get?_iff key, records.get?_iff⟩
  rw [records.mem_keys_iff, present_iff_exists_firstBound]

/-- A key that is bound again keeps its place. -/
example : (after [.build [("a", 0), ("b", 1)], .insert "a" 2]).entries = [("a", 2), ("b", 1)] := by
  decide

/-- A key that was removed goes last. -/
example : (after [.build [("a", 0), ("b", 1)], .remove "a", .insert "a" 2]).entries =
    [("b", 1), ("a", 2)] := by
  decide

end TreeSchema.Mapping
