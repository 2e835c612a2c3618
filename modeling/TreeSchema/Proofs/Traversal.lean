import Mathlib.Tactic.Choose
import TreeSchema.Traversal

/-!
# Collections related element by element

A traversal that succeeds relates the collection it was given and the one it
returns position by position, or key by key. `Pointwise` and `Mapping.Pointwise`
are that relation, with the position or key as a parameter of what holds between
the elements.

* `exists_pointwise`, `Mapping.exists_pointwise` — results chosen one by one make
  up a collection of results.
* `traverse_eq_ok_iff`, `traverse_run_eq_some_iff`, `Mapping.traverse_eq_ok_iff` —
  a traversal succeeds exactly with pointwise successful results.
* `exists_sublist_pointwise` — the results that are there, against the elements they are of.
* `exists_resultsUntil` — the results up to the first that passes a test.
* `exists_of_traverse_eq_error`, `exists_of_traverse_run_eq_error`,
  `Mapping.exists_of_traverse_eq_error`, `exists_of_firstSome_eq_error` — a traversal that fails
  fails at an element.
* `failure?`, `failure?_mapM` — the error that computations one after the other fail with.
* `Mapping.get?_somes`, `Mapping.mem_keys_somes_iff` — what is left of a mapping
  of results when absent ones are dropped.
* `traverse_map`, `Mapping.traverse_map`, `firstSome_map`, `resultsUntil_map` — traversals of
  the images of elements.
-/

namespace TreeSchema

variable {α β γ : Type}

/-! ### Lists -/

/-- The lists have one length, and elements at one position are related. -/
structure Pointwise (R : Nat → α → β → Prop) (xs : List α) (ys : List β) : Prop where
  length : ys.length = xs.length
  related : ∀ i x y, xs[i]? = some x → ys[i]? = some y → R i x y

theorem pointwise_nil {R : Nat → α → β → Prop} : Pointwise R [] [] :=
  ⟨rfl, fun i x y hx => by simp at hx⟩

theorem pointwise_cons_iff {R : Nat → α → β → Prop} {x : α} {xs : List α} {y : β}
    {ys : List β} :
    Pointwise R (x :: xs) (y :: ys) ↔ R 0 x y ∧ Pointwise (fun i => R (i + 1)) xs ys := by
  constructor
  · rintro ⟨hl, h⟩
    refine ⟨h 0 x y rfl rfl, by simpa using hl, ?_⟩
    intro i a b ha hb
    exact h (i + 1) a b ha hb
  · rintro ⟨h0, hl, h⟩
    refine ⟨by simpa using hl, ?_⟩
    intro i a b ha hb
    cases i with
    | zero =>
      cases ha
      cases hb
      exact h0
    | succ i => exact h i a b ha hb

theorem not_pointwise_nil_cons {R : Nat → α → β → Prop} {y : β} {ys : List β} :
    ¬ Pointwise R [] (y :: ys) := fun h => by simpa using h.length

theorem not_pointwise_cons_nil {R : Nat → α → β → Prop} {x : α} {xs : List α} :
    ¬ Pointwise R (x :: xs) [] := fun h => by simpa using h.length

theorem Pointwise.mono {R S : Nat → α → β → Prop} {xs : List α} {ys : List β}
    (h : Pointwise R xs ys) (sub : ∀ i x y, R i x y → S i x y) : Pointwise S xs ys :=
  ⟨h.length, fun i x y hx hy => sub i x y (h.related i x y hx hy)⟩

theorem pointwise_map_iff {δ : Type} {R : Nat → γ → δ → Prop} {xs : List α} {ys : List β}
    {f : α → γ} {g : β → δ} :
    Pointwise R (xs.map f) (ys.map g) ↔ Pointwise (fun i x y => R i (f x) (g y)) xs ys := by
  constructor
  · rintro ⟨hl, h⟩
    refine ⟨by simpa using hl, ?_⟩
    intro i x y hx hy
    exact h i (f x) (g y) (by simp [hx]) (by simp [hy])
  · rintro ⟨hl, h⟩
    refine ⟨by simpa using hl, ?_⟩
    intro i a b ha hb
    rw [List.getElem?_map, Option.map_eq_some_iff] at ha hb
    obtain ⟨x, hx, rfl⟩ := ha
    obtain ⟨y, hy, rfl⟩ := hb
    exact h i x y hx hy

theorem pointwise_self {R : Nat → α → α → Prop} {xs : List α}
    (h : ∀ i x, xs[i]? = some x → R i x x) : Pointwise R xs xs := by
  refine ⟨rfl, fun i x y hx hy => ?_⟩
  obtain rfl := Option.some.inj (hx.symm.trans hy)
  exact h i x hx

/-- Lists that end in one element each. -/
theorem Pointwise.of_concat {R : Nat → α → β → Prop} {xs : List α} {x : α} {ys : List β} {y : β}
    (h : Pointwise R (xs ++ [x]) (ys ++ [y])) : Pointwise R xs ys ∧ R xs.length x y := by
  have length : ys.length = xs.length := by simpa using h.length
  refine ⟨⟨length, ?_⟩, ?_⟩
  · intro i a b ha hb
    obtain ⟨hi, -⟩ := List.getElem?_eq_some_iff.mp ha
    refine h.related i a b ?_ ?_
    · rwa [List.getElem?_append_left hi]
    · rwa [List.getElem?_append_left (length ▸ hi)]
  · refine h.related xs.length x y List.getElem?_concat_length ?_
    rw [← length]
    exact List.getElem?_concat_length

/-- Every element has a related one at its position. -/
theorem Pointwise.exists_right {R : Nat → α → β → Prop} {xs : List α} {ys : List β}
    (h : Pointwise R xs ys) {i : Nat} {x : α} (hx : xs[i]? = some x) :
    ∃ y, ys[i]? = some y ∧ R i x y := by
  obtain ⟨hi, -⟩ := List.getElem?_eq_some_iff.mp hx
  rw [← h.length] at hi
  exact ⟨ys[i], List.getElem?_eq_getElem hi, h.related i x _ hx (List.getElem?_eq_getElem hi)⟩

theorem Pointwise.exists_left {R : Nat → α → β → Prop} {xs : List α} {ys : List β}
    (h : Pointwise R xs ys) {i : Nat} {y : β} (hy : ys[i]? = some y) :
    ∃ x, xs[i]? = some x ∧ R i x y := by
  obtain ⟨hi, -⟩ := List.getElem?_eq_some_iff.mp hy
  rw [h.length] at hi
  exact ⟨xs[i], List.getElem?_eq_getElem hi, h.related i _ y (List.getElem?_eq_getElem hi) hy⟩

/-- A position is in neither list or in both, with related elements. -/
theorem Pointwise.getElem? {R : Nat → α → β → Prop} {xs : List α} {ys : List β}
    (h : Pointwise R xs ys) (i : Nat) :
    (xs[i]? = none ∧ ys[i]? = none) ∨ ∃ x y, xs[i]? = some x ∧ ys[i]? = some y ∧ R i x y := by
  cases hx : xs[i]? with
  | none =>
    refine .inl ⟨rfl, ?_⟩
    rwa [List.getElem?_eq_none_iff, h.length, ← List.getElem?_eq_none_iff]
  | some x =>
    obtain ⟨y, hy, hxy⟩ := h.exists_right hx
    exact .inr ⟨x, y, rfl, hy, hxy⟩

/-- Lists of one length have the same positions. -/
theorem exists_getElem?_of_length {xs : List α} {ys : List β} (length : ys.length = xs.length)
    {i : Nat} {y : β} (hy : ys[i]? = some y) : ∃ x, xs[i]? = some x := by
  obtain ⟨hi, -⟩ := List.getElem?_eq_some_iff.mp hy
  exact ⟨_, List.getElem?_eq_getElem (length ▸ hi)⟩

theorem Pointwise.of_exists_right {R : Nat → α → β → Prop} {xs : List α} {ys : List β}
    (length : ys.length = xs.length)
    (h : ∀ i x, xs[i]? = some x → ∃ y, ys[i]? = some y ∧ R i x y) : Pointwise R xs ys := by
  refine ⟨length, fun i x y hx hy => ?_⟩
  obtain ⟨y', hy', hxy⟩ := h i x hx
  exact Option.some.inj (hy.symm.trans hy') ▸ hxy

/-- **Results chosen position by position make up a list.** -/
theorem exists_pointwise {R : Nat → α → β → Prop} {xs : List α}
    (h : ∀ i x, xs[i]? = some x → ∃ y, R i x y) : ∃ ys, Pointwise R xs ys := by
  induction xs generalizing R with
  | nil => exact ⟨[], pointwise_nil⟩
  | cons x xs ih =>
    obtain ⟨y, hy⟩ := h 0 x rfl
    obtain ⟨ys, hys⟩ := ih (R := fun i => R (i + 1)) fun i a ha => h (i + 1) a ha
    exact ⟨y :: ys, pointwise_cons_iff.mpr ⟨hy, hys⟩⟩

/-- Where related elements have the same images, so have the lists. -/
theorem Pointwise.map_eq {f : α → γ} {g : β → γ} {xs : List α} {ys : List β}
    (h : Pointwise (fun _ x y => g y = f x) xs ys) : ys.map g = xs.map f := by
  refine List.ext_getElem (by simp [h.length]) fun i hi hi' => ?_
  rw [List.length_map] at hi hi'
  rw [List.getElem_map, List.getElem_map]
  exact h.related i _ _ (List.getElem?_eq_getElem hi') (List.getElem?_eq_getElem hi)

theorem Pointwise.eq {xs ys : List α} (h : Pointwise (fun _ => Eq) xs ys) : xs = ys := by
  have images : Pointwise (fun _ x y => id y = id x) xs ys := h.mono fun _ _ _ h => h.symm
  simpa using images.map_eq.symm

/-- Where every element of the second list has a related one at its position, the lists are
related as far as the second goes. -/
theorem pointwise_take {R : α → β → Prop} {xs : List α} {ys : List β}
    (h : ∀ (i : Nat) y, ys[i]? = some y → ∃ x, xs[i]? = some x ∧ R x y) :
    Pointwise (fun _ => R) (xs.take ys.length) ys := by
  have le : ys.length ≤ xs.length := by
    refine Nat.le_of_not_lt fun longer => ?_
    obtain ⟨x, hx, -⟩ := h xs.length _ (List.getElem?_eq_getElem longer)
    rw [List.getElem?_eq_none (Nat.le_refl _)] at hx
    cases hx
  refine ⟨by rw [List.length_take, Nat.min_eq_left le], fun i x y hx hy => ?_⟩
  obtain ⟨x', hx', related⟩ := h i y hy
  rw [List.getElem?_take_of_lt (List.getElem?_eq_some_iff.mp hy).1, hx'] at hx
  exact Option.some.inj hx ▸ related

/-- The results that are there are those of a sublist. -/
theorem exists_sublist_pointwise {R : α → β → Prop} {xs : List α} {ys : List (Option β)}
    (h : Pointwise (fun _ x y? => ∀ y, y? = some y → R x y) xs ys) :
    ∃ chosen, chosen.Sublist xs ∧ Pointwise (fun _ => R) chosen (ys.filterMap id) := by
  induction xs generalizing ys with
  | nil =>
    cases ys with
    | nil => exact ⟨[], .slnil, pointwise_nil⟩
    | cons y ys => exact absurd h not_pointwise_nil_cons
  | cons x xs ih =>
    cases ys with
    | nil => exact absurd h not_pointwise_cons_nil
    | cons y? ys =>
      obtain ⟨first, others⟩ := pointwise_cons_iff.mp h
      obtain ⟨chosen, sub, related⟩ := ih others
      cases y? with
      | none => exact ⟨chosen, sub.cons x, related⟩
      | some y => exact ⟨x :: chosen, sub.cons_cons x, pointwise_cons_iff.mpr ⟨first y rfl, related⟩⟩

/-- Where nothing is dropped, everything is there. -/
theorem eq_map_some_of_length {xs : List (Option α)}
    (h : (xs.filterMap id).length = xs.length) : xs = (xs.filterMap id).map some := by
  induction xs with
  | nil => rfl
  | cons x xs ih =>
    cases x with
    | none =>
      have := List.length_filterMap_le id xs
      rw [List.filterMap_cons_none rfl, List.length_cons] at h
      omega
    | some x =>
      exact congrArg (some x :: ·) (ih (Nat.succ.inj h))

/-- A list made block by block has what the block of an element has. -/
theorem mem_flatten_mapIdx_iff {xs : List α} {f : Nat → α → List β} {y : β} :
    y ∈ (xs.mapIdx f).flatten ↔ ∃ i x, xs[i]? = some x ∧ y ∈ f i x := by
  rw [List.mem_flatten]
  constructor
  · rintro ⟨block, hblock, hy⟩
    obtain ⟨i, hi, rfl⟩ := List.mem_mapIdx.mp hblock
    exact ⟨i, xs[i], List.getElem?_eq_getElem hi, hy⟩
  · rintro ⟨i, x, hx, hy⟩
    exact ⟨f i x, List.mem_of_getElem? (i := i) (by simp [hx]), hy⟩

section

variable {ε : Type}

theorem bind_eq_ok_iff {x : Except ε α} {f : α → Except ε β} {b : β} :
    (x >>= f) = .ok b ↔ ∃ a, x = .ok a ∧ f a = .ok b := by
  constructor
  · exact bind_eq_ok
  · rintro ⟨a, rfl, h⟩
    exact h

/-- **A traversal of a list succeeds exactly with pointwise successful results.** -/
theorem traverse_eq_ok_iff {start : Nat} {xs : List α} {f : Nat → α → Except ε β}
    {ys : List β} :
    traverse start xs (fun i x _ => f i x) = .ok ys ↔
      Pointwise (fun i x y => f (start + i) x = .ok y) xs ys := by
  induction xs generalizing start ys with
  | nil =>
    cases ys with
    | nil => exact ⟨fun _ => pointwise_nil, fun _ => rfl⟩
    | cons y ys =>
      constructor
      · intro h
        cases h
      · intro h
        exact absurd h not_pointwise_nil_cons
  | cons x xs ih =>
    rw [traverse, bind_eq_ok_iff]
    constructor
    · rintro ⟨y, hy, h⟩
      obtain ⟨zs, hzs, h⟩ := bind_eq_ok h
      cases h
      refine pointwise_cons_iff.mpr ⟨hy, (ih.mp hzs).mono fun i a b hab => ?_⟩
      rwa [Nat.add_right_comm] at hab
    · intro h
      cases ys with
      | nil => exact absurd h not_pointwise_cons_nil
      | cons y ys =>
        obtain ⟨hy, hys⟩ := pointwise_cons_iff.mp h
        refine ⟨y, hy, bind_eq_ok_iff.mpr ⟨ys, ih.mpr (hys.mono fun i a b hab => ?_), rfl⟩⟩
        rwa [Nat.add_right_comm]

/-- The same without positions. -/
theorem mapM_eq_ok_iff {xs : List α} {f : α → Except ε β} {ys : List β} :
    xs.mapM f = .ok ys ↔ Pointwise (fun _ x y => f x = .ok y) xs ys := by
  induction xs generalizing ys with
  | nil =>
    cases ys with
    | nil => exact ⟨fun _ => pointwise_nil, fun _ => rfl⟩
    | cons y ys => exact ⟨nofun, fun h => absurd h not_pointwise_nil_cons⟩
  | cons x xs ih =>
    rw [List.mapM_cons, bind_eq_ok_iff]
    constructor
    · rintro ⟨y, hy, h⟩
      obtain ⟨zs, hzs, h⟩ := bind_eq_ok h
      cases h
      exact pointwise_cons_iff.mpr ⟨hy, ih.mp hzs⟩
    · intro h
      cases ys with
      | nil => exact absurd h not_pointwise_cons_nil
      | cons y ys =>
        obtain ⟨hy, hys⟩ := pointwise_cons_iff.mp h
        exact ⟨y, hy, bind_eq_ok_iff.mpr ⟨ys, ih.mpr hys, rfl⟩⟩

theorem OneOrMore.traverse_eq_ok_iff {start : Nat} {xs : OneOrMore α} {f : Nat → α → Except ε β}
    {ys : OneOrMore β} :
    xs.traverse start (fun i x _ => f i x) = .ok ys ↔
      Pointwise (fun i x y => f (start + i) x = .ok y) xs.toList ys.toList := by
  rw [OneOrMore.traverse, bind_eq_ok_iff, toList, toList, pointwise_cons_iff]
  constructor
  · rintro ⟨y, hy, h⟩
    obtain ⟨zs, hzs, h⟩ := bind_eq_ok h
    cases h
    refine ⟨hy, (TreeSchema.traverse_eq_ok_iff.mp hzs).mono fun i a b hab => ?_⟩
    rwa [Nat.add_right_comm] at hab
  · rintro ⟨hy, h⟩
    refine ⟨ys.first, hy, bind_eq_ok_iff.mpr ⟨ys.others, ?_, rfl⟩⟩
    refine TreeSchema.traverse_eq_ok_iff.mpr (h.mono fun i a b hab => ?_)
    rwa [Nat.add_right_comm]

/-- A traversal that may give up: it has a result exactly if every element has one. -/
theorem traverse_run_eq_some_iff {start : Nat} {xs : List α}
    {f : Nat → α → Except ε (Option β)} {ys : List β} :
    (traverse start xs fun i x _ => OptionT.mk (f i x)).run = .ok (some ys) ↔
      Pointwise (fun i x y => f (start + i) x = .ok (some y)) xs ys := by
  induction xs generalizing start ys with
  | nil =>
    cases ys with
    | nil => exact ⟨fun _ => pointwise_nil, fun _ => rfl⟩
    | cons y ys =>
      constructor
      · intro h
        cases h
      · intro h
        exact absurd h not_pointwise_nil_cons
  | cons x xs ih =>
    rw [traverse, OptionT.run_bind, Option.elimM, bind_eq_ok_iff]
    constructor
    · rintro ⟨y?, hy, h⟩
      cases y? with
      | none => cases h
      | some y =>
        rw [Option.elim_some, OptionT.run_bind, Option.elimM] at h
        obtain ⟨zs?, hzs, h⟩ := bind_eq_ok h
        cases zs? with
        | none => cases h
        | some zs =>
          cases h
          refine pointwise_cons_iff.mpr ⟨hy, (ih.mp hzs).mono fun i a b hab => ?_⟩
          rwa [Nat.add_right_comm] at hab
    · intro h
      cases ys with
      | nil => exact absurd h not_pointwise_cons_nil
      | cons y ys =>
        obtain ⟨hy, hys⟩ := pointwise_cons_iff.mp h
        refine ⟨some y, hy, ?_⟩
        rw [Option.elim_some, OptionT.run_bind, Option.elimM]
        refine bind_eq_ok_iff.mpr ⟨some ys, ih.mpr (hys.mono fun i a b hab => ?_), rfl⟩
        rwa [Nat.add_right_comm]

/-- A traversal gives up at an element that has no result. -/
theorem exists_of_traverse_run_eq_none {start : Nat} {xs : List α}
    {f : Nat → α → Except ε (Option β)}
    (h : (traverse start xs fun i x _ => OptionT.mk (f i x)).run = .ok none) :
    ∃ i, ∃ x ∈ xs, f i x = .ok none := by
  induction xs generalizing start with
  | nil => cases h
  | cons x xs ih =>
    rw [traverse, OptionT.run_bind, Option.elimM] at h
    obtain ⟨y?, hy, h⟩ := bind_eq_ok h
    cases y? with
    | none => exact ⟨start, x, List.mem_cons_self, hy⟩
    | some y =>
      rw [Option.elim_some, OptionT.run_bind, Option.elimM] at h
      obtain ⟨ys?, hys, h⟩ := bind_eq_ok h
      cases ys? with
      | none =>
        obtain ⟨i, a, ha, hf⟩ := ih hys
        exact ⟨i, a, List.mem_cons_of_mem _ ha, hf⟩
      | some ys => cases h

/-- Where no step gives up, a traversal that does not fail has results of all. -/
theorem exists_of_traverse_run_eq_ok {start : Nat} {xs : List α}
    {f : Nat → α → Except ε (Option β)} {ys? : Option (List β)}
    (never : ∀ i, ∀ x ∈ xs, f i x ≠ .ok none)
    (h : (traverse start xs fun i x _ => OptionT.mk (f i x)).run = .ok ys?) {x : α} (hx : x ∈ xs) :
    ∃ i y, f i x = .ok (some y) := by
  cases ys? with
  | none =>
    obtain ⟨i, a, ha, hf⟩ := exists_of_traverse_run_eq_none h
    exact absurd hf (never i a ha)
  | some ys =>
    obtain ⟨i, hi⟩ := List.mem_iff_getElem?.mp hx
    obtain ⟨y, -, hy⟩ := (traverse_run_eq_some_iff.mp h).exists_right hi
    exact ⟨start + i, y, hy⟩

/-- Where no step fails, a traversal that may give up does not fail. -/
theorem exists_traverse_run {start : Nat} {xs : List α} {f : Nat → α → Except ε (Option β)}
    (h : ∀ i x, xs[i]? = some x → ∃ y?, f (start + i) x = .ok y?) :
    ∃ ys?, (traverse start xs fun i x _ => OptionT.mk (f i x)).run = .ok ys? := by
  induction xs generalizing start with
  | nil => exact ⟨some [], rfl⟩
  | cons x xs ih =>
    obtain ⟨y?, hy⟩ := h 0 x rfl
    have later : ∀ i a, xs[i]? = some a → ∃ y?, f (start + 1 + i) a = .ok y? := by
      intro i a ha
      rw [Nat.add_assoc, Nat.add_comm 1]
      exact h (i + 1) a ha
    obtain ⟨ys?, hys⟩ := ih later
    simp only [bind_eq_ok_iff, traverse, OptionT.run_bind, Option.elimM]
    cases y? with
    | none => exact ⟨none, none, hy, rfl⟩
    | some y =>
      cases ys? with
      | none => exact ⟨none, some y, hy, bind_eq_ok_iff.mpr ⟨none, hys, rfl⟩⟩
      | some ys => exact ⟨some (y :: ys), some y, hy, bind_eq_ok_iff.mpr ⟨some ys, hys, rfl⟩⟩

/-! ### First results -/

theorem exists_of_firstSome {xs : List α} {f : α → Except ε (Option β)} {y : β}
    (h : firstSome xs (fun x _ => f x) = .ok (some y)) : ∃ x ∈ xs, f x = .ok (some y) := by
  induction xs with
  | nil => cases h
  | cons x xs ih =>
    rw [firstSome] at h
    obtain ⟨y?, hy, h⟩ := bind_eq_ok h
    cases y? with
    | some y' =>
      cases h
      exact ⟨x, List.mem_cons_self, hy⟩
    | none =>
      obtain ⟨a, ha, hf⟩ := ih h
      exact ⟨a, List.mem_cons_of_mem _ ha, hf⟩

theorem eq_none_of_firstSome {xs : List α} {f : α → Except ε (Option β)}
    (h : firstSome xs (fun x _ => f x) = .ok none) : ∀ x ∈ xs, f x = .ok none := by
  induction xs with
  | nil =>
    intro x hx
    cases hx
  | cons x xs ih =>
    rw [firstSome] at h
    obtain ⟨y?, hy, h⟩ := bind_eq_ok h
    cases y? with
    | some y => cases h
    | none =>
      intro a ha
      rcases List.mem_cons.mp ha with rfl | ha
      · exact hy
      · exact ih h a ha

/-- Where no step fails, the results up to the first that passes the test have the
same first result, and the same first that passes, as all results. -/
theorem exists_resultsUntil (test : β → Bool) {xs : List α} {f : α → Except ε (Option β)}
    {g : α → Option β} (total : ∀ x ∈ xs, f x = .ok (g x)) :
    ∃ ys, resultsUntil test xs (fun x _ => f x) = .ok ys ∧
      ys.find? test = (xs.filterMap g).find? test ∧ ys.head? = (xs.filterMap g).head? := by
  induction xs with
  | nil => exact ⟨[], rfl, rfl, rfl⟩
  | cons x xs ih =>
    obtain ⟨ys, hys, hfind, hhead⟩ := ih fun a ha => total a (List.mem_cons_of_mem _ ha)
    rw [resultsUntil, total x List.mem_cons_self]
    cases hg : g x with
    | none =>
      refine ⟨ys, hys, ?_, ?_⟩
      · rw [List.filterMap_cons_none hg]
        exact hfind
      · rw [List.filterMap_cons_none hg]
        exact hhead
    | some y =>
      rw [List.filterMap_cons_some hg]
      by_cases hy : test y = true
      · refine ⟨[y], ?_, ?_, rfl⟩
        · show (if test y = true then _ else _) = _
          rw [if_pos hy]
          rfl
        · rw [List.find?_cons_of_pos hy, List.find?_cons_of_pos hy]
      · refine ⟨y :: ys, ?_, ?_, rfl⟩
        · show (if test y = true then _ else _) = _
          rw [if_neg hy, hys]
          rfl
        · rw [List.find?_cons_of_neg hy, List.find?_cons_of_neg hy]
          exact hfind

end

/-! ### Mappings -/

namespace Mapping

/-- The mappings have the same keys in the same order, and values of one key are related. -/
structure Pointwise (R : String → α → β → Prop) (m : Mapping α) (n : Mapping β) : Prop where
  keys : n.keys = m.keys
  related : ∀ key a b, m.get? key = some a → n.get? key = some b → R key a b

/-- Every value has a related one under its key. -/
theorem Pointwise.exists_right {R : String → α → β → Prop} {m : Mapping α} {n : Mapping β}
    (h : m.Pointwise R n) {key : String} {a : α} (ha : m.get? key = some a) :
    ∃ b, n.get? key = some b ∧ R key a b := by
  have hk : key ∈ n.keys := h.keys ▸ mem_keys_of_get? ha
  have hb := n.get?_eq_some_value hk
  exact ⟨_, hb, h.related key a _ ha hb⟩

theorem Pointwise.exists_left {R : String → α → β → Prop} {m : Mapping α} {n : Mapping β}
    (h : m.Pointwise R n) {key : String} {b : β} (hb : n.get? key = some b) :
    ∃ a, m.get? key = some a ∧ R key a b := by
  have hk : key ∈ m.keys := h.keys ▸ mem_keys_of_get? hb
  have ha := m.get?_eq_some_value hk
  exact ⟨_, ha, h.related key _ b ha hb⟩

theorem pointwise_map {δ : Type} {R : String → γ → δ → Prop} {m : Mapping α} {f : α → γ}
    {g : α → δ} (h : ∀ key a, m.get? key = some a → R key (f a) (g a)) :
    (m.map f).Pointwise R (m.map g) := by
  refine ⟨by rw [keys_map, keys_map], fun key b c hb hc => ?_⟩
  rw [get?_map, Option.map_eq_some_iff] at hb hc
  obtain ⟨a, ha, rfl⟩ := hb
  obtain ⟨a', ha', rfl⟩ := hc
  obtain rfl := Option.some.inj (ha.symm.trans ha')
  exact h key a ha

/-- Mappings are related key by key exactly if their entries are, under the same keys. -/
theorem pointwise_iff_entries {R : String → α → β → Prop} {m : Mapping α} {n : Mapping β} :
    m.Pointwise R n ↔
      TreeSchema.Pointwise (fun _ d e => e.1 = d.1 ∧ R d.1 d.2 e.2) m.entries n.entries := by
  constructor
  · rintro ⟨keys, related⟩
    refine ⟨by rw [length_entries, length_entries, size, size, keys], ?_⟩
    intro i d e hd he
    have key : m.keys[i]? = some d.1 := by
      rw [← entries_map_fst, List.getElem?_map, hd, Option.map_some]
    have same : e.1 = d.1 := by
      rw [← keys, ← entries_map_fst, List.getElem?_map, he, Option.map_some] at key
      exact Option.some.inj key
    have found := get?_of_mem_entries (List.mem_of_getElem? he)
    rw [same] at found
    exact ⟨same, related d.1 d.2 e.2 (get?_of_mem_entries (List.mem_of_getElem? hd)) found⟩
  · intro h
    refine ⟨?_, ?_⟩
    · rw [← entries_map_fst, ← entries_map_fst]
      exact (h.mono fun _ _ _ h => h.1).map_eq
    · intro key a b ha hb
      obtain ⟨i, hi⟩ := List.mem_iff_getElem?.mp (mem_entries_iff.mpr hb)
      obtain ⟨d, hd, rfl, hab⟩ := h.exists_left hi
      have found := get?_of_mem_entries (List.mem_of_getElem? hd)
      exact Option.some.inj (found.symm.trans ha) ▸ hab

/-- **Results chosen key by key make up a mapping.** -/
theorem exists_pointwise {R : String → α → β → Prop} {m : Mapping α}
    (h : ∀ key a, m.get? key = some a → ∃ b, R key a b) : ∃ n, m.Pointwise R n := by
  have chosen (key : { key : String // key ∈ m.keys }) : ∃ b, R key.1 (m.value key) b :=
    h key.1 _ (m.get?_eq_some_value key.2)
  choose value hvalue using chosen
  refine ⟨⟨m.keys, m.nodup, value⟩, rfl, ?_⟩
  intro key a b ha hb
  have hk := mem_keys_of_get? ha
  rw [m.get?_eq_some_value hk] at ha
  rw [get?_eq_some_value ⟨m.keys, m.nodup, value⟩ hk] at hb
  cases ha
  cases hb
  exact hvalue ⟨key, hk⟩

/-- Two mappings of results of one function are equal. -/
theorem Pointwise.unique {R : String → α → β → Prop} {m : Mapping α} {n n' : Mapping β}
    (functional : ∀ key a b b', R key a b → R key a b' → b = b') (h : m.Pointwise R n)
    (h' : m.Pointwise R n') : n = n' := by
  refine ext_get? (h.keys.trans h'.keys.symm) fun key => ?_
  cases hb : n.get? key with
  | none =>
    have : key ∉ n'.keys := by
      rw [h'.keys, ← h.keys]
      exact get?_eq_none_iff.mp hb
    exact (get?_eq_none_iff.mpr this).symm
  | some b =>
    obtain ⟨a, ha, hab⟩ := h.exists_left hb
    obtain ⟨b', hb', hab'⟩ := h'.exists_right ha
    rw [hb', functional key a b b' hab hab']

private theorem exists_traverse {ε : Type} {m : Mapping α} {f : String × α → Except ε β}
    (h : ∀ key a, m.get? key = some a → ∃ b, f (key, a) = .ok b) :
    ∃ n, m.traverse (fun e _ => f e) = .ok n := by
  have results : ∃ bs, TreeSchema.Pointwise (fun _ e b => f e = .ok b) m.entries bs :=
    TreeSchema.exists_pointwise fun i e he =>
      h e.1 e.2 (get?_of_mem_entries (List.mem_of_getElem? he))
  obtain ⟨bs, hbs⟩ := results
  exact ⟨_, bind_eq_ok_iff.mpr ⟨bs, TreeSchema.traverse_eq_ok_iff.mpr hbs, rfl⟩⟩

/-- **A traversal of a mapping succeeds exactly with pointwise successful results.** -/
theorem traverse_eq_ok_iff {ε : Type} {m : Mapping α} {f : String × α → Except ε β}
    {n : Mapping β} :
    m.traverse (fun e _ => f e) = .ok n ↔ m.Pointwise (fun key a b => f (key, a) = .ok b) n := by
  have sound : ∀ n, m.traverse (fun e _ => f e) = .ok n →
      m.Pointwise (fun key a b => f (key, a) = .ok b) n := by
    intro n h
    refine ⟨keys_of_traverse h, fun key a b ha hb => ?_⟩
    obtain ⟨c, hc, hg⟩ := get?_of_traverse h (mem_entries_iff.mpr ha)
    rw [hb] at hg
    cases hg
    exact hc
  constructor
  · exact sound n
  · intro h
    obtain ⟨n', hn'⟩ := exists_traverse fun key a ha => by
      obtain ⟨b, -, hb⟩ := h.exists_right ha
      exact ⟨b, hb⟩
    -- The results of one function are determined by their keys.
    have same : n' = n := by
      refine (sound n' hn').unique ?_ h
      intro key a b b' hb hb'
      exact Except.ok.inj (hb.symm.trans hb')
    rw [← same]
    exact hn'

/-! ### Absent results -/

theorem mem_entries_somes_iff {m : Mapping (Option α)} {key : String} {a : α} :
    (key, a) ∈ m.somes.entries ↔ m.get? key = some (some a) := by
  rw [somes, entries_ofEntries, List.mem_filterMap, ← mem_entries_iff]
  constructor
  · rintro ⟨⟨k, a?⟩, he, h⟩
    obtain ⟨b, hb, h⟩ := Option.map_eq_some_iff.mp h
    obtain ⟨rfl, rfl⟩ := Prod.mk.inj h
    rwa [← hb]
  · intro h
    exact ⟨(key, some a), h, rfl⟩

@[simp] theorem get?_somes (m : Mapping (Option α)) (key : String) :
    m.somes.get? key = (m.get? key).join := by
  apply Option.ext
  intro a
  rw [← mem_entries_iff, mem_entries_somes_iff, Option.join_eq_some_iff]

theorem mem_keys_somes_iff {m : Mapping (Option α)} {key : String} :
    key ∈ m.somes.keys ↔ ∃ a, m.get? key = some (some a) := by
  rw [← get?_isSome_iff, get?_somes, Option.isSome_iff_exists]
  simp only [Option.join_eq_some_iff]

end Mapping

/-! ### Failures -/

section

variable {ε : Type}

/-- A computation in two parts fails in the first or, given its result, in the second. -/
theorem bind_eq_error {x : Except ε α} {f : α → Except ε β} {e : ε} (h : (x >>= f) = .error e) :
    x = .error e ∨ ∃ a, x = .ok a ∧ f a = .error e := by
  cases x with
  | error e' =>
    cases h
    exact .inl rfl
  | ok a => exact .inr ⟨a, rfl, h⟩

/-- A computation that ends in a result fails in what comes before. -/
theorem eq_error_of_bind_ok {x : Except ε α} {g : α → β} {e : ε}
    (h : (x >>= fun a => .ok (g a)) = .error e) : x = .error e := by
  rcases bind_eq_error h with h | ⟨_, _, ⟨⟩⟩
  exact h

/-- The error of a result that is one. -/
def failure? : Except ε α → Option ε
  | .ok _ => none
  | .error e => some e

theorem eq_error_iff_failure? {result : Except ε α} {e : ε} :
    result = .error e ↔ failure? result = some e := by
  cases result <;> simp [failure?]

theorem failure?_bind_ok {x : Except ε α} {g : α → β} :
    failure? (x >>= fun a => .ok (g a)) = failure? x := by
  cases x <;> rfl

/-- **A list of computations fails with the first of their errors.** -/
theorem failure?_mapM {xs : List α} {f : α → Except ε β} {error? : α → Option ε}
    (h : ∀ x ∈ xs, failure? (f x) = error? x) :
    failure? (xs.mapM f) = xs.findSome? error? := by
  induction xs with
  | nil => rfl
  | cons x xs ih =>
    obtain ⟨first, later⟩ := List.forall_mem_cons.mp h
    rw [List.mapM_cons, List.findSome?_cons, ← first]
    cases f x with
    | error e => rfl
    | ok y =>
      have rest : failure? (xs.mapM f >>= fun ys => .ok (y :: ys)) = xs.findSome? error? := by
        rw [failure?_bind_ok, ih later]
      exact rest

/-- **A traversal fails at an element.** -/
theorem exists_of_traverse_eq_error {start : Nat} {xs : List α} {f : Nat → α → Except ε β} {e : ε}
    (h : traverse start xs (fun i x _ => f i x) = .error e) :
    ∃ (i : Nat) (x : α), xs[i]? = some x ∧ f (start + i) x = .error e := by
  induction xs generalizing start with
  | nil => cases h
  | cons x xs ih =>
    rw [traverse] at h
    rcases bind_eq_error h with h | ⟨y, -, h⟩
    · exact ⟨0, x, rfl, h⟩
    · obtain ⟨i, a, ha, hf⟩ := ih (eq_error_of_bind_ok h)
      exact ⟨i + 1, a, ha, by rwa [← Nat.add_assoc, Nat.add_right_comm]⟩

theorem Mapping.exists_of_traverse_eq_error {m : Mapping α} {f : String × α → Except ε β} {e : ε}
    (h : m.traverse (fun d _ => f d) = .error e) :
    ∃ key a, m.get? key = some a ∧ f (key, a) = .error e := by
  rw [Mapping.traverse] at h
  obtain ⟨i, d, hd, hf⟩ :=
    TreeSchema.exists_of_traverse_eq_error (f := fun _ => f) (eq_error_of_bind_ok h)
  exact ⟨d.1, d.2, get?_of_mem_entries (List.mem_of_getElem? hd), hf⟩

/-- So does a traversal that may give up. -/
theorem exists_of_traverse_run_eq_error {start : Nat} {xs : List α}
    {f : Nat → α → Except ε (Option β)} {e : ε}
    (h : (traverse start xs fun i x _ => OptionT.mk (f i x)).run = .error e) :
    ∃ (i : Nat) (x : α), xs[i]? = some x ∧ f (start + i) x = .error e := by
  induction xs generalizing start with
  | nil => cases h
  | cons x xs ih =>
    rw [traverse, OptionT.run_bind, Option.elimM] at h
    rcases bind_eq_error h with h | ⟨y?, -, h⟩
    · exact ⟨0, x, rfl, h⟩
    · cases y? with
      | none => cases h
      | some y =>
        rw [Option.elim_some, OptionT.run_bind, Option.elimM] at h
        rcases bind_eq_error h with h | ⟨ys?, -, h⟩
        · obtain ⟨i, a, ha, hf⟩ := ih h
          exact ⟨i + 1, a, ha, by rwa [← Nat.add_assoc, Nat.add_right_comm]⟩
        · cases ys? <;> cases h

/-- The search for a first result fails at an element that none before has a result. -/
theorem exists_of_firstSome_eq_error {xs : List α} {f : α → Except ε (Option β)} {e : ε}
    (h : firstSome xs (fun x _ => f x) = .error e) :
    ∃ before x after, xs = before ++ x :: after ∧ (∀ y ∈ before, f y = .ok none) ∧
      f x = .error e := by
  induction xs with
  | nil => cases h
  | cons x xs ih =>
    rw [firstSome] at h
    rcases bind_eq_error h with h | ⟨y?, hy, h⟩
    · exact ⟨[], x, xs, rfl, List.forall_mem_nil _, h⟩
    · cases y? with
      | some y => cases h
      | none =>
        obtain ⟨before, a, after, rfl, none_before, ha⟩ := ih h
        exact ⟨x :: before, a, after, rfl, List.forall_mem_cons.mpr ⟨hy, none_before⟩, ha⟩

end

/-! ### Images -/

section

variable {m : Type → Type} [Monad m]

theorem traverse_map {start : Nat} {xs : List α} {g : α → β} {f : Nat → β → m γ} :
    (traverse start (xs.map g) fun i y _ => f i y) = traverse start xs fun i x _ => f i (g x) := by
  induction xs generalizing start with
  | nil => rfl
  | cons x xs ih => rw [List.map_cons, traverse, traverse, ih]

theorem Mapping.traverse_map {fields : Mapping α} {g : α → β} {f : String × β → m γ} :
    ((fields.map g).traverse fun e _ => f e) = fields.traverse fun e _ => f (e.1, g e.2) := by
  have entries : (TreeSchema.traverse 0 (fields.map g).entries fun _ e _ => f e) =
      TreeSchema.traverse 0 fields.entries fun _ e _ => f (e.1, g e.2) := by
    rw [entries_map]
    exact TreeSchema.traverse_map
  rw [Mapping.traverse, Mapping.traverse, entries]
  simp only [keys_map]

theorem firstSome_map {xs : List α} {g : α → β} {f : β → m (Option γ)} :
    (firstSome (xs.map g) fun y _ => f y) = firstSome xs fun x _ => f (g x) := by
  induction xs with
  | nil => rfl
  | cons x xs ih => rw [List.map_cons, firstSome, firstSome, ih]

theorem resultsUntil_map {test : γ → Bool} {xs : List α} {g : α → β} {f : β → m (Option γ)} :
    (resultsUntil test (xs.map g) fun y _ => f y) = resultsUntil test xs fun x _ => f (g x) := by
  induction xs with
  | nil => rfl
  | cons x xs ih => rw [List.map_cons, resultsUntil, resultsUntil, ih]

end

/-- A traversal with an optional step whose results are mapped. -/
theorem traverse_option_map {δ : Type} {start : Nat} {xs : List α}
    {f : (i : Nat) → (x : α) → x ∈ xs → Option β} {g : β → δ} :
    (traverse start xs fun i x hx => (f i x hx).map g) =
      (traverse start xs f).map (List.map g) := by
  induction xs generalizing start with
  | nil => rfl
  | cons x xs ih =>
    rw [traverse, traverse, ih]
    cases f start x List.mem_cons_self with
    | none => rfl
    | some y =>
      cases traverse (start + 1) xs fun i a ha => f i a (List.mem_cons_of_mem _ ha) <;> rfl

end TreeSchema
