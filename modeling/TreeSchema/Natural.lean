/-
# Natural numbers

Sums of a measure over a list, which sizes are made of, and the reading of powers.

* `total` — the sum of a measure over a list.
* `le_total` — a summand is at most the sum.
-/

namespace TreeSchema

/-- A power of naturals is repeated multiplication of naturals, also in a module
that imports an algebraic hierarchy with powers of its own. -/
scoped instance (priority := high) powNat : Pow Nat Nat := instPowNat

/-- The sum of a measure over a list. Its addition and its zero are those of the
naturals themselves, also in a module that imports an algebraic hierarchy. -/
def total {α : Type} (measure : α → Nat) (xs : List α) : Nat :=
  @List.sum Nat instAddNat Zero.ofOfNat0 (xs.map measure)

variable {α β : Type} {measure : α → Nat}

@[simp] theorem total_nil : total measure [] = 0 := rfl

@[simp] theorem total_cons (x : α) (xs : List α) :
    total measure (x :: xs) = measure x + total measure xs := by
  rw [total, List.map_cons, List.sum_cons, total]

@[simp] theorem total_append (xs ys : List α) :
    total measure (xs ++ ys) = total measure xs + total measure ys := by
  rw [total, List.map_append, List.sum_append_nat, total, total]

@[simp] theorem total_map (f : β → α) (xs : List β) :
    total measure (xs.map f) = total (fun x => measure (f x)) xs := by
  rw [total, List.map_map]
  rfl

@[simp] theorem total_reverse (xs : List α) : total measure xs.reverse = total measure xs := by
  rw [total, List.map_reverse, List.sum_reverse_nat, total]

theorem total_one (xs : List α) : total (fun _ => 1) xs = xs.length := by
  rw [total, List.map_const', List.sum_replicate_nat, Nat.mul_one]

/-- **A summand is at most the sum.** -/
theorem le_total (measure : α → Nat) {x : α} {xs : List α} (h : x ∈ xs) :
    measure x ≤ total measure xs := by
  obtain ⟨before, after, rfl⟩ := List.append_of_mem h
  rw [total_append, total_cons]
  omega

end TreeSchema
