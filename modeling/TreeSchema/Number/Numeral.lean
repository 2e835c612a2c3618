import TreeSchema.Natural

/-!
# Decimal numerals

Natural numbers as decimal digits, and back. Digits are the ten ASCII digits
only.

* `Numeral.value_digits` — the numeral of a number has the number as its value.
* `Numeral.isDigit_of_mem_digits`, `Numeral.digits_ne_nil` — a numeral is a
  non-empty run of digits.
-/

namespace TreeSchema

namespace Numeral

/-- The digit character of a number below ten. -/
def digitChar (d : Nat) : Char :=
  Char.ofNat (48 + d)

/-- The number a digit character stands for. -/
def digitValue (c : Char) : Nat :=
  c.toNat - 48

/-- The decimal digits of a number, without leading zeros. -/
def digits (n : Nat) : List Char :=
  if n < 10 then [digitChar n] else digits (n / 10) ++ [digitChar (n % 10)]
termination_by n

/-- The numeral of a number. -/
def text (n : Nat) : String :=
  .ofList (digits n)

/-- The number a run of digits stands for. -/
def value (cs : List Char) : Nat :=
  cs.foldl (fun n c => 10 * n + digitValue c) 0

/-- The value of a text that is a non-empty run of digits. -/
def value? (cs : List Char) : Option Nat :=
  if cs ≠ [] ∧ cs.all Char.isDigit then some (value cs) else none

/-- The digits of a number, filled up with zeros to a least width. -/
def padded (width n : Nat) : List Char :=
  List.replicate (width - (digits n).length) '0' ++ digits n

/-! ### A numeral stands for its number -/

theorem digitValue_digitChar {d : Nat} (h : d < 10) : digitValue (digitChar d) = d := by
  match d, h with
  | 0, _ | 1, _ | 2, _ | 3, _ | 4, _ | 5, _ | 6, _ | 7, _ | 8, _ | 9, _ => rfl

theorem isDigit_digitChar {d : Nat} (h : d < 10) : (digitChar d).isDigit = true := by
  match d, h with
  | 0, _ | 1, _ | 2, _ | 3, _ | 4, _ | 5, _ | 6, _ | 7, _ | 8, _ | 9, _ => rfl

theorem value_append_singleton (cs : List Char) (c : Char) :
    value (cs ++ [c]) = 10 * value cs + digitValue c := by
  simp [value]

theorem value_digits (n : Nat) : value (digits n) = n := by
  induction n using digits.induct with
  | case1 n h => rw [digits, if_pos h]; simp [value, digitValue_digitChar h]
  | case2 n h ih =>
    rw [digits, if_neg h, value_append_singleton, ih,
      digitValue_digitChar (Nat.mod_lt n (by decide))]
    omega

theorem digits_ne_nil (n : Nat) : digits n ≠ [] := by
  rw [digits]
  split <;> simp

theorem isDigit_of_mem_digits {n : Nat} {c : Char} (h : c ∈ digits n) : c.isDigit = true := by
  induction n using digits.induct with
  | case1 n hn =>
    rw [digits, if_pos hn, List.mem_singleton] at h
    exact h ▸ isDigit_digitChar hn
  | case2 n hn ih =>
    rw [digits, if_neg hn, List.mem_append, List.mem_singleton] at h
    rcases h with h | rfl
    · exact ih h
    · exact isDigit_digitChar (Nat.mod_lt n (by decide))

theorem value?_digits (n : Nat) : value? (digits n) = some n := by
  rw [value?, if_pos ⟨digits_ne_nil n, List.all_eq_true.mpr fun _ => isDigit_of_mem_digits⟩,
    value_digits]

end Numeral

end TreeSchema
