import Mathlib.Data.List.Forall2
import TreeSchema.Proofs.Value.Equality
import TreeSchema.Restriction.Fill

/-!
# Results that follow others

Of two computations that may fail one *follows* the other if it succeeds wherever the other
does, with a related result. Traversals follow each other if their steps do: of lists position
by position, of mappings key by key whatever the orders of their keys, since where all steps
succeed the order in which they are made does not matter.

* `Follows.bind` — one computation after another.
* `Concur`, `Follows.concur` — computations that follow each other fail together and succeed
  together.
* `follows_traverse`, `follows_traverse_run`, `Mapping.follows_traverse` — traversals.
* `follows_firstSome`, `follows_resultsUntil` — traversals that stop early.
* `pointwise_iff_forall₂` — related lists, where positions do not matter.
-/

namespace TreeSchema

variable {ε ε' α β γ δ : Type}

/-- Where the first computation succeeds so does the second, with a related result. -/
def Follows (R : α → β → Prop) (x : Except ε α) (y : Except ε' β) : Prop :=
  ∀ a, x = .ok a → ∃ b, y = .ok b ∧ R a b

namespace Follows

variable {R : α → β → Prop} {S : γ → δ → Prop}

theorem ok {a : α} {b : β} (h : R a b) :
    Follows R (.ok a : Except ε α) (.ok b : Except ε' β) := by
  rintro _ ⟨⟩
  exact ⟨b, rfl, h⟩

theorem error {e : ε} {y : Except ε' β} : Follows R (.error e) y := nofun

theorem mono {R' : α → β → Prop} {x : Except ε α} {y : Except ε' β} (h : Follows R x y)
    (sub : ∀ a b, R a b → R' a b) : Follows R' x y := by
  intro a ha
  obtain ⟨b, hb, hab⟩ := h a ha
  exact ⟨b, hb, sub a b hab⟩

theorem bind {x : Except ε α} {y : Except ε' β} {f : α → Except ε γ} {g : β → Except ε' δ}
    (h : Follows R x y) (after : ∀ a b, R a b → Follows S (f a) (g b)) :
    Follows S (x >>= f) (y >>= g) := by
  intro c hc
  obtain ⟨a, ha, hc⟩ := bind_eq_ok hc
  obtain ⟨b, hb, hab⟩ := h a ha
  obtain ⟨d, hd, hcd⟩ := after a b hab c hc
  exact ⟨d, bind_eq_ok_iff.mpr ⟨b, hb, hd⟩, hcd⟩

/-- A second attempt follows where a first attempt does. -/
theorem orElse {x x₂ : Except ε (Option α)} {y y₂ : Except ε' (Option β)}
    (first : Follows (Option.Rel R) x y) (second : Follows (Option.Rel R) x₂ y₂) :
    Follows (Option.Rel R) (TreeSchema.orElse x fun _ => x₂)
      (TreeSchema.orElse y fun _ => y₂) := by
  cases x with
  | error e => exact error
  | ok a? =>
    obtain ⟨b?, rfl, related⟩ := first a? rfl
    cases related with
    | none => exact second
    | some hab => exact ok (.some hab)

end Follows

/-- Both computations fail, or both succeed with related results. -/
inductive Concur (R : α → β → Prop) : Except ε α → Except ε' β → Prop where
  | fail {e : ε} {e' : ε'} : Concur R (.error e) (.error e')
  | succeed {a : α} {b : β} : R a b → Concur R (.ok a) (.ok b)

/-- Computations that follow each other concur. -/
theorem Follows.concur {R : α → β → Prop} {S : β → α → Prop} {x : Except ε α} {y : Except ε' β}
    (h : Follows R x y) (back : Follows S y x) : Concur R x y := by
  cases x with
  | ok a =>
    obtain ⟨b, rfl, hab⟩ := h a rfl
    exact .succeed hab
  | error e =>
    cases y with
    | ok b =>
      obtain ⟨a, ha, -⟩ := back b rfl
      cases ha
    | error e' => exact .fail

/-! ### Lists -/

section

variable {R : γ → δ → Prop}

/-- Lists related regardless of positions, by induction on both. -/
theorem pointwise_iff_forall₂ {cs : List γ} {ds : List δ} :
    Pointwise (fun _ => R) cs ds ↔ List.Forall₂ R cs ds := by
  constructor
  · intro h
    induction cs generalizing ds with
    | nil =>
      cases ds with
      | nil => exact .nil
      | cons d ds => exact absurd h not_pointwise_nil_cons
    | cons c cs ih =>
      cases ds with
      | nil => exact absurd h not_pointwise_cons_nil
      | cons d ds =>
        obtain ⟨first, others⟩ := pointwise_cons_iff.mp h
        exact .cons first (ih others)
  · intro h
    induction h with
    | nil => exact pointwise_nil
    | cons first _ ih => exact pointwise_cons_iff.mpr ⟨first, ih⟩

theorem follows_traverse {start : Nat} {xs : List α} {ys : List β} {f : Nat → α → Except ε γ}
    {g : Nat → β → Except ε' δ}
    (h : Pointwise (fun i x y => Follows R (f (start + i) x) (g (start + i) y)) xs ys) :
    Follows (Pointwise fun _ => R) (traverse start xs fun i x _ => f i x)
      (traverse start ys fun i y _ => g i y) := by
  induction xs generalizing start ys with
  | nil =>
    cases ys with
    | nil => exact .ok pointwise_nil
    | cons y ys => exact absurd h not_pointwise_nil_cons
  | cons x xs ih =>
    cases ys with
    | nil => exact absurd h not_pointwise_cons_nil
    | cons y ys =>
      obtain ⟨first, others⟩ := pointwise_cons_iff.mp h
      rw [traverse, traverse]
      refine first.bind fun c d hcd => (ih ?_).bind fun cs ds hcds => ?_
      · refine others.mono fun i a b hab => ?_
        rwa [Nat.add_right_comm]
      · exact .ok (pointwise_cons_iff.mpr ⟨hcd, hcds⟩)

theorem OneOrMore.follows_traverse {start : Nat} {xs : OneOrMore α} {ys : OneOrMore β}
    {f : Nat → α → Except ε γ} {g : Nat → β → Except ε' δ}
    (h : Pointwise (fun i x y => Follows R (f (start + i) x) (g (start + i) y))
      xs.toList ys.toList) :
    Follows (fun zs ws => Pointwise (fun _ => R) zs.toList ws.toList)
      (xs.traverse start fun i x _ => f i x) (ys.traverse start fun i y _ => g i y) := by
  obtain ⟨first, others⟩ := pointwise_cons_iff.mp h
  have later : Follows (Pointwise fun _ => R)
      (TreeSchema.traverse (start + 1) xs.others fun i x _ => f i x)
      (TreeSchema.traverse (start + 1) ys.others fun i y _ => g i y) := by
    refine TreeSchema.follows_traverse (others.mono fun i a b hab => ?_)
    rwa [Nat.add_right_comm]
  refine Follows.bind first fun z w hzw => later.bind fun zs ws hzws => ?_
  exact .ok (pointwise_cons_iff.mpr ⟨hzw, hzws⟩)

/-- Traversals that may give up. -/
theorem follows_traverse_run {start : Nat} {xs : List α} {ys : List β}
    {f : Nat → α → Except ε (Option γ)} {g : Nat → β → Except ε' (Option δ)}
    (h : Pointwise (fun i x y => Follows (Option.Rel R) (f (start + i) x) (g (start + i) y))
      xs ys) :
    Follows (Option.Rel (Pointwise fun _ => R))
      (traverse start xs fun i x _ => OptionT.mk (f i x)).run
      (traverse start ys fun i y _ => OptionT.mk (g i y)).run := by
  induction xs generalizing start ys with
  | nil =>
    cases ys with
    | nil => exact .ok (.some pointwise_nil)
    | cons y ys => exact absurd h not_pointwise_nil_cons
  | cons x xs ih =>
    cases ys with
    | nil => exact absurd h not_pointwise_cons_nil
    | cons y ys =>
      obtain ⟨first, others⟩ := pointwise_cons_iff.mp h
      simp only [traverse, OptionT.run_bind, Option.elimM]
      refine first.bind fun c? d? related => ?_
      cases related with
      | none => exact .ok .none
      | some hcd =>
        simp only [Option.elim_some]
        refine (ih ?_).bind fun cs? ds? related => ?_
        · refine others.mono fun i a b hab => ?_
          rwa [Nat.add_right_comm]
        · cases related with
          | none => exact .ok .none
          | some hcds => exact .ok (.some (pointwise_cons_iff.mpr ⟨hcd, hcds⟩))

theorem follows_firstSome {xs : List α} {ys : List β} {f : α → Except ε (Option γ)}
    {g : β → Except ε' (Option δ)}
    (h : Pointwise (fun _ x y => Follows (Option.Rel R) (f x) (g y)) xs ys) :
    Follows (Option.Rel R) (firstSome xs fun x _ => f x) (firstSome ys fun y _ => g y) := by
  induction pointwise_iff_forall₂.mp h with
  | nil => exact .ok .none
  | cons first others ih =>
    rw [firstSome, firstSome]
    refine first.bind fun c? d? related => ?_
    cases related with
    | none => exact ih (pointwise_iff_forall₂.mpr others)
    | some hcd => exact .ok (.some hcd)

/-- Related results pass the tests alike. -/
theorem follows_resultsUntil {test : γ → Bool} {test' : δ → Bool} {xs : List α} {ys : List β}
    {f : α → Except ε (Option γ)} {g : β → Except ε' (Option δ)}
    (alike : ∀ c d, R c d → test' d = test c)
    (h : Pointwise (fun _ x y => Follows (Option.Rel R) (f x) (g y)) xs ys) :
    Follows (Pointwise fun _ => R) (resultsUntil test xs fun x _ => f x)
      (resultsUntil test' ys fun y _ => g y) := by
  induction pointwise_iff_forall₂.mp h with
  | nil => exact .ok pointwise_nil
  | cons first others ih =>
    have later := ih (pointwise_iff_forall₂.mpr others)
    rw [resultsUntil, resultsUntil]
    refine first.bind fun c? d? related => ?_
    cases related with
    | none => exact later
    | @some c d hcd =>
      dsimp only
      rw [alike c d hcd]
      cases test c with
      | true => exact .ok (pointwise_cons_iff.mpr ⟨hcd, pointwise_nil⟩)
      | false =>
        refine later.bind fun cs ds hcds => ?_
        exact .ok (pointwise_cons_iff.mpr ⟨hcd, hcds⟩)

theorem Pointwise.find? {test : γ → Bool} {test' : δ → Bool} {cs : List γ} {ds : List δ}
    (alike : ∀ c d, R c d → test' d = test c) (h : Pointwise (fun _ => R) cs ds) :
    Option.Rel R (cs.find? test) (ds.find? test') := by
  induction pointwise_iff_forall₂.mp h with
  | nil => exact .none
  | @cons c d _ _ hcd others ih =>
    rw [List.find?_cons, List.find?_cons, alike c d hcd]
    cases test c with
    | true => exact .some hcd
    | false => exact ih (pointwise_iff_forall₂.mpr others)

theorem Pointwise.head? {cs : List γ} {ds : List δ} (h : Pointwise (fun _ => R) cs ds) :
    Option.Rel R cs.head? ds.head? := by
  cases pointwise_iff_forall₂.mp h with
  | nil => exact .none
  | cons hcd _ => exact .some hcd

/-- The results that are there, where results at one position are absent together. -/
theorem Pointwise.somes {cs : List (Option γ)} {ds : List (Option δ)}
    (h : Pointwise (fun _ => Option.Rel R) cs ds) :
    Pointwise (fun _ => R) (cs.filterMap id) (ds.filterMap id) := by
  induction pointwise_iff_forall₂.mp h with
  | nil => exact pointwise_nil
  | cons first others ih =>
    have later := ih (pointwise_iff_forall₂.mpr others)
    cases first with
    | none =>
      rw [List.filterMap_cons_none rfl, List.filterMap_cons_none rfl]
      exact later
    | some hcd => exact pointwise_cons_iff.mpr ⟨hcd, later⟩

theorem Pointwise.append {cs cs' : List γ} {ds ds' : List δ} (h : Pointwise (fun _ => R) cs ds)
    (h' : Pointwise (fun _ => R) cs' ds') : Pointwise (fun _ => R) (cs ++ cs') (ds ++ ds') := by
  rw [pointwise_iff_forall₂] at h h' ⊢
  exact List.rel_append h h'

end

/-! ### Mappings -/

namespace Mapping

variable {R : γ → δ → Prop}

/-- Traversals of mappings with the same keys in any order. -/
theorem follows_traverse {m : Mapping α} {n : Mapping β} {f : String × α → Except ε γ}
    {g : String × β → Except ε' δ} (keys : ∀ key, key ∈ m.keys ↔ key ∈ n.keys)
    (h : ∀ key a b, m.get? key = some a → n.get? key = some b →
      Follows R (f (key, a)) (g (key, b))) :
    Follows (Mapping.Matching R) (m.traverse fun e _ => f e) (n.traverse fun e _ => g e) := by
  intro results hr
  have done := traverse_eq_ok_iff.mp hr
  have chosen : ∀ key b, n.get? key = some b → ∃ d, g (key, b) = .ok d ∧
      ∃ c, results.get? key = some c ∧ R c d := by
    intro key b hb
    have ha := m.get?_eq_some_value ((keys key).mpr (mem_keys_of_get? hb))
    obtain ⟨c, hc, hf⟩ := done.exists_right ha
    obtain ⟨d, hd, hcd⟩ := h key _ b ha hb c hf
    exact ⟨d, hd, c, hc, hcd⟩
  obtain ⟨results', hr'⟩ := exists_pointwise chosen
  refine ⟨results', traverse_eq_ok_iff.mpr ⟨hr'.keys, ?_⟩, ?_, ?_⟩
  · intro key b d hb hd
    exact (hr'.related key b d hb hd).1
  · intro key
    rw [done.keys, hr'.keys]
    exact keys key
  · intro key c d hc hd
    obtain ⟨b, hb, -, c', hc', hcd⟩ := hr'.exists_left hd
    exact Option.some.inj (hc'.symm.trans hc) ▸ hcd

/-- The results that are there, where results of one key are absent together. -/
theorem Matching.somes {m : Mapping (Option γ)} {n : Mapping (Option δ)}
    (h : m.Matching (Option.Rel R) n) : m.somes.Matching R n.somes := by
  refine ⟨?_, ?_⟩
  · intro key
    rw [mem_keys_somes_iff, mem_keys_somes_iff]
    constructor
    · rintro ⟨c, hc⟩
      obtain ⟨d?, hd, related⟩ := h.exists_right hc
      cases related with
      | some _ => exact ⟨_, hd⟩
    · rintro ⟨d, hd⟩
      have hc := m.get?_eq_some_value ((h.keys key).mpr (mem_keys_of_get? hd))
      have related := h.related key _ _ hc hd
      generalize m.value ⟨key, _⟩ = c? at hc related
      cases related with
      | some _ => exact ⟨_, hc⟩
  · intro key c d hc hd
    rw [get?_somes, Option.join_eq_some_iff] at hc hd
    have related := h.related key _ _ hc hd
    cases related with
    | some hcd => exact hcd

end Mapping

end TreeSchema
