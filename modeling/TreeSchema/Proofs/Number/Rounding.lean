import TreeSchema.Proofs.Number.Integers

/-!
# Rounding to integers

Rounding a number to the nearest integral one is exact: an integer that is nearest to a number
is itself a number. It is below the bound of exact integers where the number has places behind
the point, and is the number where it has none.

`IsNearest` says which integer is nearest to a number, of two equally near the one further from
zero, in units of magnitude.

* `Binary64.round_of_isIntegral` — an integral number is its own rounding.
* `Binary64.exists_round_eq_finite` — the magnitude of a rounded number.
* `Binary64.isNearest_of_toInt64_round` — the integer that is read off a rounded number is the
  nearest one, as long as it is below the bound.
-/

namespace TreeSchema.Binary64

variable {s : Bool} {m p : Nat}

/-- The integer nearest to so many units of magnitude, the greater of two equally near. -/
def nearestCount (units : Nat) : Nat :=
  (2 * units + unitsPerOne) / (2 * unitsPerOne)

/-- The integer nearest to a finite number, and of two equally near the one further from zero:
its distance from zero is off by at most a half, and by less than a half if it is too small. -/
def IsNearest : Binary64 → Int → Prop
  | finite s m p _, k =>
    (2 * (k.natAbs * unitsPerOne) ≤ 2 * (m * 2 ^ p) + unitsPerOne ∧
      2 * (m * 2 ^ p) < 2 * (k.natAbs * unitsPerOne) + unitsPerOne) ∧
      (k < 0 → s = true) ∧ (0 < k → s = false)
  | _, _ => False

theorem round_finite (h : Canonical m p) :
    (finite s m p h).round = ofQuotient s (nearestCount (m * 2 ^ p)) 1 := rfl

/-- The nearest integer is off by half a unit at most. -/
theorem nearestCount_spec (units : Nat) :
    2 * (nearestCount units * unitsPerOne) ≤ 2 * units + unitsPerOne ∧
      2 * units < 2 * (nearestCount units * unitsPerOne) + unitsPerOne := by
  have pos := unitsPerOne_pos
  have lower := Nat.div_mul_le_self (2 * units + unitsPerOne) (2 * unitsPerOne)
  have upper := Nat.lt_div_mul_add (a := 2 * units + unitsPerOne) (b := 2 * unitsPerOne) (by omega)
  have regroup : nearestCount units * (2 * unitsPerOne) = 2 * (nearestCount units * unitsPerOne) :=
    Nat.mul_left_comm _ _ _
  rw [← nearestCount, regroup] at lower upper
  omega

/-- No other integer is that near. -/
theorem nearestCount_eq {units k : Nat}
    (lower : 2 * (k * unitsPerOne) ≤ 2 * units + unitsPerOne)
    (upper : 2 * units < 2 * (k * unitsPerOne) + unitsPerOne) : nearestCount units = k := by
  apply Nat.div_eq_of_lt_le
  · rw [Nat.mul_left_comm]
    exact lower
  · rw [Nat.mul_left_comm, Nat.succ_mul k]
    omega

theorem nearestCount_mul (k : Nat) : nearestCount (k * unitsPerOne) = k := by
  have pos := unitsPerOne_pos
  exact nearestCount_eq (by omega) (by omega)

/-- **An integral number is its own rounding.** -/
theorem round_of_isIntegral {n : Binary64} (h : n.isIntegral = true) : n.round = n := by
  cases n with
  | nan => cases h
  | infinity => rfl
  | finite s m p hc =>
    obtain ⟨k, hk⟩ := Nat.dvd_of_mod_eq_zero (by simpa [isIntegral] using h)
    rw [Nat.mul_comm unitsPerOne] at hk
    rw [round_finite, hk, nearestCount_mul]
    exact ofQuotient_one_of_canonical s hc hk

theorem round_ofInt (n : Int) : (ofInt n).round = ofInt n :=
  round_of_isIntegral (isIntegral_ofQuotient_one _ n.natAbs)

/-- A number with places behind the point is nearest to an integer below the bound. -/
theorem nearestCount_lt (h : Canonical m p) (places : p < unitPlaces) :
    nearestCount (m * 2 ^ p) < exactBound := by
  have units : unitsPerOne = 2 ^ unitPlaces := by
    unfold unitsPerOne
    rfl
  have half : 2 * 2 ^ p ≤ unitsPerOne := by
    rw [units, Nat.mul_comm, ← Nat.pow_succ]
    exact Nat.pow_le_pow_right (by decide) places
  have below : 2 * (m * 2 ^ p) < 2 * leadingBit * unitsPerOne := by
    calc 2 * (m * 2 ^ p) = m * (2 * 2 ^ p) := Nat.mul_left_comm _ _ _
      _ ≤ m * unitsPerOne := Nat.mul_le_mul_left m half
      _ < 2 * leadingBit * unitsPerOne :=
          Nat.mul_lt_mul_of_pos_right h.significand_lt unitsPerOne_pos
  obtain ⟨lower, -⟩ := nearestCount_spec (m * 2 ^ p)
  apply Nat.lt_of_mul_lt_mul_right (a := unitsPerOne)
  rw [exactBound]
  have one : unitsPerOne ≤ 2 * leadingBit * unitsPerOne :=
    Nat.le_mul_of_pos_left _ (by decide)
  omega

/-- **Rounding is exact**: the magnitude of a rounded number is that of the nearest integer. -/
theorem exists_round_eq_finite (s : Bool) (h : Canonical m p) :
    ∃ m' p', ∃ h' : Canonical m' p', m' * 2 ^ p' = nearestCount (m * 2 ^ p) * unitsPerOne ∧
      (finite s m p h).round = finite s m' p' h' := by
  by_cases places : p < unitPlaces
  · obtain ⟨m', p', h', exact⟩ := exists_canonical (nearestCount_lt h places)
    exact ⟨m', p', h', exact, ofQuotient_one_of_canonical s h' exact⟩
  · have whole : unitsPerOne ∣ m * 2 ^ p := by
      unfold unitsPerOne
      exact Nat.dvd_mul_left_of_dvd (Nat.pow_dvd_pow 2 (Nat.le_of_not_lt places)) m
    obtain ⟨k, hk⟩ := whole
    rw [Nat.mul_comm unitsPerOne] at hk
    have exact : m * 2 ^ p = nearestCount (m * 2 ^ p) * unitsPerOne := by
      rw [hk, nearestCount_mul]
    exact ⟨m, p, h, exact, ofQuotient_one_of_canonical s h exact⟩

theorem isFinite_round {n : Binary64} (h : n.isFinite = true) : n.round.isFinite = true := by
  cases n with
  | finite s m p hc =>
    obtain ⟨m', p', h', -, eq⟩ := exists_round_eq_finite s hc
    rw [eq]
    rfl
  | _ => cases h

/-- A finite number is read as its integer part, if that is below the bound after clamping. -/
theorem truncate_eq_of_toInt64 {k : Int} (h : Canonical m p)
    (read : (finite s m p h).toInt64 = k) (below : k.natAbs < exactBound) :
    (finite s m p h).truncate = k := by
  have clamped : max (-int64Bound) (min (int64Bound - 1) (finite s m p h).truncate) = k := read
  have exact : exactBound = 9007199254740992 := by decide
  have clamp : int64Bound = 9223372036854775808 := by decide
  omega

/-- **The integer that is read off a rounded number is the nearest one**, and equal to what the
number is rounded to, if it is below the bound of exact integers. -/
theorem isNearest_of_toInt64_round {n : Binary64} {k : Int} (hn : n.isFinite = true)
    (read : n.round.toInt64 = k) (below : k.natAbs < exactBound) :
    n.IsNearest k ∧ (ofInt k == n.round) = true := by
  cases n with
  | finite s m p hc =>
    obtain ⟨m', p', h', exact, rounded⟩ := exists_round_eq_finite s hc
    rw [rounded] at read ⊢
    have integer : (finite s m' p' h').truncate = k := truncate_eq_of_toInt64 h' read below
    have signed :
        k = if s then -(nearestCount (m * 2 ^ p) : Int) else nearestCount (m * 2 ^ p) := by
      rw [← integer, truncate, exact, Nat.mul_div_cancel _ unitsPerOne_pos]
    have count : k.natAbs = nearestCount (m * 2 ^ p) := by
      rw [signed]
      split <;> omega
    have sign : (k < 0 → s = true) ∧ (0 < k → s = false) := by
      by_cases hs : s = true
      · rw [if_pos hs] at signed
        exact ⟨fun _ => hs, fun positive => by omega⟩
      · rw [if_neg hs] at signed
        exact ⟨fun negative => by omega, fun _ => by simpa using hs⟩
    constructor
    · rw [IsNearest, count]
      exact ⟨nearestCount_spec (m * 2 ^ p), sign⟩
    · have whole : (finite s m' p' h').isIntegralBelow exactBound = true := by
        simp only [isIntegralBelow, exact, Nat.mul_mod_left, beq_self_eq_true, Bool.true_and,
          decide_eq_true_eq]
        exact Nat.mul_lt_mul_of_pos_right (count ▸ below) unitsPerOne_pos
      rw [← integer]
      exact ofInt_truncate whole
  | _ => cases hn

end TreeSchema.Binary64
