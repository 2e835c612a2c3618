import TreeSchema.Number.Numeral

/-!
# Numbers in a fixed width

A numeral has no more digits than its number needs, and zeros before it change neither its
value nor that it is made of digits.

* `Numeral.length_digits_le` — how many digits a number needs.
* `Numeral.length_padded`, `Numeral.value_padded` — a number in a fixed width.
-/

namespace TreeSchema.Numeral

theorem length_digits_le {width n : Nat} (hw : 0 < width) (h : n < 10 ^ width) :
    (digits n).length ≤ width := by
  induction n using digits.induct generalizing width with
  | case1 n hn =>
    rw [digits, if_pos hn]
    exact hw
  | case2 n hn ih =>
    obtain ⟨width, rfl⟩ := Nat.exists_eq_add_of_lt hw
    rw [Nat.zero_add, Nat.pow_succ] at h
    have shorter : 0 < width := by
      refine Nat.pos_of_ne_zero ?_
      rintro rfl
      omega
    have := ih shorter (by omega)
    rw [digits, if_neg hn, List.length_append, List.length_singleton]
    omega

theorem length_padded {width n : Nat} (hw : 0 < width) (h : n < 10 ^ width) :
    (padded width n).length = width := by
  have := length_digits_le hw h
  rw [padded, List.length_append, List.length_replicate]
  omega

/-- Leading zeros do not count. -/
theorem value_padded (width n : Nat) : value (padded width n) = n := by
  have zeros : ∀ k, value (List.replicate k '0' ++ digits n) = value (digits n) := by
    intro k
    induction k with
    | zero => rfl
    | succ k ih => exact ih
  rw [padded, zeros, value_digits]

theorem isDigit_of_mem_padded {width n : Nat} {c : Char} (h : c ∈ padded width n) :
    c.isDigit = true := by
  rcases List.mem_append.mp h with h | h
  · rw [List.eq_of_mem_replicate h]
    rfl
  · exact isDigit_of_mem_digits h

theorem padded_ne_nil (width n : Nat) : padded width n ≠ [] :=
  List.append_ne_nil_of_right_ne_nil _ (digits_ne_nil n)

end TreeSchema.Numeral
