/-
# Search in a finite graph

A graph is given by the successors of each vertex and a finite list of vertices,
its *room*; successors outside the room are not part of it. `visit` lists the
vertices reachable from some starting vertices. It takes a vertex out of the room
when it visits it, so it visits none twice and ends when the room is empty.

* `Walk` — reachability in the room, as a relation.
* `mem_visit_iff` — **`visit` lists exactly the vertices that a walk from a start reaches.**
* `Guarded`, `rank`, `rank_lt` — in a graph without cycles each vertex has a rank
  above the ranks of its successors.
-/

namespace TreeSchema.Search

variable {κ : Type} {next : κ → List κ}

/-! ### Walks -/

/-- A walk from one vertex to another that stays in the room. -/
inductive Walk (next : κ → List κ) (room : List κ) : κ → κ → Prop where
  | here {x : κ} : x ∈ room → Walk next room x x
  | step {x y z : κ} : x ∈ room → y ∈ next x → Walk next room y z → Walk next room x z

theorem Walk.mem_start {room : List κ} {x y : κ} (h : Walk next room x y) : x ∈ room := by
  cases h with
  | here h => exact h
  | step h _ _ => exact h

theorem Walk.mem_end {room : List κ} {x y : κ} (h : Walk next room x y) : y ∈ room := by
  induction h with
  | here h => exact h
  | step _ _ _ ih => exact ih

theorem Walk.mono {room larger : List κ} (sub : room ⊆ larger) {x y : κ}
    (h : Walk next room x y) : Walk next larger x y := by
  induction h with
  | here h => exact .here (sub h)
  | step h hn _ ih => exact .step (sub h) hn ih

theorem Walk.trans {room : List κ} {x y z : κ} (h : Walk next room x y)
    (h' : Walk next room y z) : Walk next room x z := by
  induction h with
  | here _ => exact h'
  | step hx hn _ ih => exact .step hx hn (ih h')

/-- Successors that agree on the room make the same graph. -/
theorem Walk.congr {next' : κ → List κ} {room : List κ} (same : ∀ x ∈ room, next x = next' x)
    {x y : κ} (h : Walk next room x y) : Walk next' room x y := by
  induction h with
  | here h => exact .here h
  | step h hn _ ih => exact .step h (same _ h ▸ hn) ih

private theorem indicator_le {a b : Bool} (h : a → b) :
    (if a then 1 else 0) ≤ if b then 1 else 0 := by
  cases a with
  | false => exact Nat.zero_le _
  | true => exact Nat.le_of_eq (by rw [h rfl])

private theorem countP_lt_countP {p q : κ → Bool} {xs : List κ} (le : ∀ x ∈ xs, p x → q x)
    {x : κ} (hx : x ∈ xs) (hp : p x = false) (hq : q x = true) : xs.countP p < xs.countP q := by
  induction xs with
  | nil => cases hx
  | cons y ys ih =>
    have tail : ys.countP p ≤ ys.countP q :=
      List.countP_mono_left fun z hz => le z (List.mem_cons_of_mem _ hz)
    rw [List.countP_cons, List.countP_cons]
    rcases List.mem_cons.mp hx with rfl | hx
    · rw [hp, hq, if_neg Bool.false_ne_true, if_pos rfl]
      omega
    · have rest := ih (fun z hz => le z (List.mem_cons_of_mem _ hz)) hx
      have head := indicator_le (le y List.mem_cons_self)
      omega

/-! ### The search -/

variable [DecidableEq κ]

/-- The room without a vertex. -/
def without (room : List κ) (x : κ) : List κ :=
  room.filter (· ≠ x)

@[simp] theorem mem_without {room : List κ} {x y : κ} :
    y ∈ without room x ↔ y ∈ room ∧ y ≠ x := by
  simp [without]

theorem without_subset (room : List κ) (x : κ) : without room x ⊆ room := fun _ h =>
  (mem_without.mp h).1

theorem length_without_lt {room : List κ} {x : κ} (h : x ∈ room) :
    (without room x).length < room.length := by
  rw [without, List.length_filter_lt_length_iff_exists]
  exact ⟨x, h, by simp⟩

theorem without_of_not_mem {room : List κ} {x : κ} (h : x ∉ room) : without room x = room := by
  rw [without, List.filter_eq_self]
  intro y hy
  exact decide_eq_true (ne_of_mem_of_not_mem hy h)

/-- The room without the vertices that were come to. -/
def unseen (room seen : List κ) : List κ :=
  room.filter (· ∉ seen)

@[simp] theorem mem_unseen {room seen : List κ} {x : κ} :
    x ∈ unseen room seen ↔ x ∈ room ∧ x ∉ seen := by
  simp [unseen]

theorem unseen_cons (room seen : List κ) (x : κ) :
    unseen room (x :: seen) = without (unseen room seen) x := by
  simp [unseen, without, List.filter_filter]

/-- The vertices of the room reachable from the pending ones, in the order in
which they are first met. -/
def visit (next : κ → List κ) (room : List κ) : (pending : List κ) → List κ
  | [] => []
  | x :: pending =>
    if x ∈ room then x :: visit next (without room x) (next x ++ pending)
    else visit next room pending
termination_by pending => (room.length, pending.length)
decreasing_by
  · exact .left _ _ (length_without_lt ‹_›)
  · exact .right _ (by simp)

/-- A walk ends at a given vertex, avoids it, or avoids it after its last visit there. -/
theorem Walk.avoid {room : List κ} {x z : κ} (a : κ) (h : Walk next room x z) :
    z = a ∨ Walk next (without room a) x z ∨
      ∃ y ∈ next a, Walk next (without room a) y z := by
  induction h with
  | @here x hx =>
    by_cases hxa : x = a
    · exact .inl hxa
    · exact .inr (.inl (.here (by simp [hx, hxa])))
  | @step x y z hx hn _ ih =>
    rcases ih with rfl | hw | hw
    · exact .inl rfl
    · by_cases hxa : x = a
      · exact .inr (.inr ⟨y, hxa ▸ hn, hw⟩)
      · exact .inr (.inl (.step (by simp [hx, hxa]) hn hw))
    · exact .inr (.inr hw)

/-- **The search finds what can be reached.** -/
theorem mem_visit_iff {room pending : List κ} {z : κ} :
    z ∈ visit next room pending ↔ ∃ x ∈ pending, Walk next room x z := by
  fun_induction visit next room pending with
  | case1 => simp
  | case2 room x pending hx ih =>
    rw [List.mem_cons, ih]
    constructor
    · rintro (rfl | ⟨y, hy, hw⟩)
      · exact ⟨z, by simp, .here hx⟩
      · have hw' := hw.mono (without_subset room x)
        rcases List.mem_append.mp hy with hn | hp
        · exact ⟨x, by simp, .step hx hn hw'⟩
        · exact ⟨y, by simp [hp], hw'⟩
    · rintro ⟨y, hy, hw⟩
      rcases hw.avoid x with rfl | hw' | ⟨y', hn, hw'⟩
      · exact .inl rfl
      · rcases List.mem_cons.mp hy with rfl | hp
        · exact absurd hw'.mem_start (by simp)
        · exact .inr ⟨y, by simp [hp], hw'⟩
      · exact .inr ⟨y', by simp [hn], hw'⟩
  | case3 room x pending hx ih =>
    rw [ih]
    constructor
    · rintro ⟨y, hy, hw⟩
      exact ⟨y, by simp [hy], hw⟩
    · rintro ⟨y, hy, hw⟩
      rcases List.mem_cons.mp hy with rfl | hp
      · exact absurd hw.mem_start hx
      · exact ⟨y, hp, hw⟩

/-- What is found does not depend on the order of the starts. -/
theorem mem_visit_congr {room pending pending' : List κ} {z : κ}
    (same : ∀ x, x ∈ pending ↔ x ∈ pending') :
    z ∈ visit next room pending ↔ z ∈ visit next room pending' := by
  simp only [mem_visit_iff, same]

/-! ### Ranks -/

/-- The vertices of the room reachable by one step or more. -/
def reach (next : κ → List κ) (room : List κ) (x : κ) : List κ :=
  visit next room (next x)

/-- No vertex of the room reaches itself. -/
def Guarded (next : κ → List κ) (room : List κ) : Prop :=
  ∀ x ∈ room, x ∉ reach next room x

instance (next : κ → List κ) (room : List κ) : Decidable (Guarded next room) :=
  inferInstanceAs (Decidable (∀ x ∈ room, x ∉ reach next room x))

theorem Guarded.congr {next' : κ → List κ} {room : List κ}
    (same : ∀ x ∈ room, next x = next' x) (h : Guarded next room) : Guarded next' room := by
  intro x hx hr
  obtain ⟨y, hy, hw⟩ := mem_visit_iff.mp hr
  exact h x hx (mem_visit_iff.mpr
    ⟨y, same x hx ▸ hy, hw.congr fun z hz => (same z hz).symm⟩)

/-- The number of vertices of the room that a vertex reaches by one step or more. -/
def rank (next : κ → List κ) (room : List κ) (x : κ) : Nat :=
  room.countP fun y => y ∈ reach next room x

/-- **In a guarded graph a successor has a lower rank.** -/
theorem rank_lt {room : List κ} (guarded : Guarded next room) {x y : κ} (hn : y ∈ next x)
    (hy : y ∈ room) : rank next room y < rank next room x := by
  apply countP_lt_countP (x := y)
  · intro z _ hz
    obtain ⟨y', hy', hw⟩ := mem_visit_iff.mp (of_decide_eq_true hz)
    exact decide_eq_true (mem_visit_iff.mpr ⟨y, hn, .step hy hy' hw⟩)
  · exact hy
  · exact decide_eq_false (guarded y hy)
  · exact decide_eq_true (mem_visit_iff.mpr ⟨y, hn, .here hy⟩)

end TreeSchema.Search
