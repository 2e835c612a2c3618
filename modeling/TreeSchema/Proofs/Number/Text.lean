import TreeSchema.Number.Text
import TreeSchema.Proofs.Number.Integers
import TreeSchema.Proofs.Number.Numeral
import TreeSchema.Proofs.Text.Blank

/-!
# Integral numbers are read from their digits

An integral number that is not too long is written with all its digits, and reading rounds the
decimal number that they tell to the nearest number, which is the number itself.

* `Binary64.ofText?_digits` — what digits with a sign are read as.
* `Binary64.ofText?_integerText` — integral numbers are read from their digits, with the sign of
  zero.
* `Binary64.trim_integerText` — no white space is around the digits.
-/

namespace TreeSchema.Binary64

variable {s : Bool} {m p k : Nat} {ds : List Char}

theorem takeSign_signText (nonempty : ds ≠ []) (digits : ∀ c ∈ ds, c.isDigit = true) :
    takeSign (signText s ++ ds) = (s, ds) := by
  cases s with
  | true => rfl
  | false =>
    obtain ⟨c, cs, rfl⟩ := List.exists_cons_of_ne_nil nonempty
    have digit := digits c List.mem_cons_self
    show takeSign (c :: cs) = (false, c :: cs)
    unfold takeSign
    split
    · next h =>
      rw [(List.cons.inj h).1] at digit
      exact absurd digit (by decide)
    · next h =>
      rw [(List.cons.inj h).1] at digit
      exact absurd digit (by decide)
    · rfl

/-- Digits, perhaps behind a minus sign, are read as the decimal number that they tell. -/
theorem ofText?_digits (nonempty : ds ≠ []) (digits : ∀ c ∈ ds, c.isDigit = true) :
    ofText? (signText s ++ ds) = some (ofDecimal s (Numeral.value ds) 0) := by
  have all : ds.takeWhile Char.isDigit = ds := by
    rw [← List.append_nil ds, List.takeWhile_append_of_pos digits, List.takeWhile_nil]
  have none_left : ds.dropWhile Char.isDigit = [] := by
    rw [← List.append_nil ds, List.dropWhile_append_of_pos digits, List.dropWhile_nil]
  rw [ofText?, takeSign_signText nonempty digits]
  simp only [all, none_left, List.append_nil, if_neg nonempty, exponent?, Option.map_some,
    List.length_nil]
  rfl

/-- A whole number of units is the decimal number with its digits. -/
theorem ofDecimal_of_canonical (h : Canonical m p) (exact : m * 2 ^ p = k * unitsPerOne)
    (short : (Numeral.digits k).length ≤ 310) : ofDecimal s k 0 = finite s m p h := by
  by_cases hz : k = 0
  · subst hz
    have zero : Canonical 0 0 := ⟨by decide, .inr rfl, by decide⟩
    obtain ⟨rfl, rfl⟩ := canonical_unique h zero (by rw [exact, Nat.zero_mul, Nat.zero_mul])
    rw [ofDecimal, if_pos (.inl rfl), signedZero]
  · have inside : ¬(k = 0 ∨ ((Numeral.digits k).length : Int) + 0 < -330) := by omega
    have finite : ¬310 < ((Numeral.digits k).length : Int) + 0 := by omega
    rw [ofDecimal, if_neg inside, if_neg finite]
    show ofQuotient s (k * 10 ^ 0) (10 ^ 0) = _
    rw [Nat.pow_zero, Nat.mul_one, ofQuotient_one_of_canonical s h exact]

theorem isIntegralBelow_mono {n : Binary64} {bound larger : Nat} (le : bound ≤ larger)
    (h : n.isIntegralBelow bound = true) : n.isIntegralBelow larger = true := by
  cases n with
  | finite s m p hc =>
    simp only [isIntegralBelow, Bool.and_eq_true, decide_eq_true_eq] at h ⊢
    exact ⟨h.1, Nat.lt_of_lt_of_le h.2 (Nat.mul_le_mul_right _ le)⟩
  | _ => cases h

/-- An integral number is written with the digits of its integer, and its sign. -/
theorem integerText_finite (h : Canonical m p)
    (integer : (finite s m p h).truncate = if s then -(k : Int) else k) :
    (finite s m p h).integerText.toList = signText s ++ Numeral.digits k := by
  have count : (finite s m p h).truncate.natAbs = k := by
    rw [integer]
    split <;> omega
  rw [integerText, String.toList_ofList, count]

/-- **An integral number is read from its digits**, with the sign of zero. -/
theorem ofText?_integerText {n : Binary64} (h : n.isIntegralBelow (10 ^ (21 : Nat)) = true) :
    ofText? n.integerText.toList = some n := by
  obtain ⟨s, m, p, k, hc, rfl, exact, below, integer⟩ := exists_count h
  have short : (Numeral.digits k).length ≤ 21 := Numeral.length_digits_le (by decide) below
  have digits : ∀ c ∈ Numeral.digits k, c.isDigit = true := fun _ => Numeral.isDigit_of_mem_digits
  rw [integerText_finite hc integer, ofText?_digits (Numeral.digits_ne_nil k) digits,
    Numeral.value_digits, ofDecimal_of_canonical hc exact (by omega)]

/-- No white space is around the digits of a number. -/
theorem trim_integerText {n : Binary64} {bound : Nat} (h : n.isIntegralBelow bound = true) :
    Text.trim n.integerText.toList = n.integerText.toList := by
  obtain ⟨s, m, p, k, hc, rfl, -, -, integer⟩ := exists_count h
  rw [integerText_finite hc integer]
  apply Text.trim_of_forall
  intro c hc
  rcases List.mem_append.mp hc with sign | digit
  · cases s with
    | true =>
      rw [List.mem_singleton.mp sign]
      rfl
    | false => cases sign
  · exact Text.isBlank_of_isDigit (Numeral.isDigit_of_mem_digits digit)

end TreeSchema.Binary64
