import TreeSchema.Proofs.Scalar.Coercion

/-!
# Integers as numbers

Every integer nearer to zero than `exactBound` is a binary64 number. Its magnitude has a
canonical form, rounding finds the canonical form of a magnitude that has one, and no
magnitude has two.

* `Binary64.ofUnits_of_canonical` — a magnitude that is held exactly is its own rounding.
* `Binary64.exists_ofInt_eq_finite` — the number of an integer below the bound.
* `Binary64.truncate_ofInt`, `Binary64.toInt64_ofInt` — the integer is read off its number.
* `Binary64.exists_count` — an integral number is so many times one.
* `Binary64.ofInt_truncate` — an integral number below the bound is that of its integer.
-/

namespace TreeSchema.Binary64

/-! ### Equality -/

/-- A number is equal to itself unless it is NaN. -/
theorem beq_self {n : Binary64} (h : n ≠ nan) : (n == n) = true := by
  cases n with
  | nan => exact absurd rfl h
  | infinity s => simp [BEq.beq, equal]
  | finite s m p hc => simp [BEq.beq, equal]

theorem ofInt_ne_nan (n : Int) : ofInt n ≠ nan := by
  rw [ofInt, ofQuotient, ofUnits, encode]
  repeat' split
  all_goals
    intro h
    cases h

/-! ### Canonical forms -/

theorem log2_mul_two_pow {m : Nat} (hm : m ≠ 0) (p : Nat) :
    (m * 2 ^ p).log2 = m.log2 + p := by
  induction p with
  | zero => rw [Nat.pow_zero, Nat.mul_one, Nat.add_zero]
  | succ p ih =>
    have pos : m * 2 ^ p ≠ 0 := Nat.mul_ne_zero hm (Nat.ne_of_gt (Nat.two_pow_pos p))
    rw [Nat.pow_succ, ← Nat.mul_assoc, Nat.mul_comm _ 2, Nat.log2_two_mul pos, ih, Nat.add_assoc]

/-- The exponent that rounding chooses for a magnitude is that of its canonical form. -/
theorem exponent_of_canonical {m p : Nat} (h : Canonical m p) : (m * 2 ^ p).log2 - 52 = p := by
  have short := h.significand_lt
  by_cases hm : m = 0
  · subst hm
    have : p = 0 := h.normal.resolve_left (by have := leadingBit_pos; omega)
    simp [this]
  · have below : m.log2 < 53 := (Nat.log2_lt hm).mpr short
    rw [log2_mul_two_pow hm]
    rcases h.normal with full | rfl
    · have : 52 ≤ m.log2 := (Nat.le_log2 hm).mpr full
      omega
    · omega

/-- **A magnitude that is held exactly is its own rounding.** -/
theorem ofUnits_of_canonical (negative : Bool) {m p : Nat} (h : Canonical m p) :
    ofUnits negative (m * 2 ^ p) 1 = .finite negative m p h := by
  rw [ofUnits, Nat.div_one, exponent_of_canonical h, Nat.one_mul,
    nearestEven_of_dvd (Nat.two_pow_pos p) (Nat.dvd_mul_left _ _),
    Nat.mul_div_cancel _ (Nat.two_pow_pos p), encode, dif_pos h]

/-- A magnitude has one canonical form. -/
theorem canonical_unique {m p m' p' : Nat} (h : Canonical m p) (h' : Canonical m' p')
    (same : m * 2 ^ p = m' * 2 ^ p') : m = m' ∧ p = p' := by
  have rounded := ofUnits_of_canonical false h
  rw [same, ofUnits_of_canonical false h'] at rounded
  obtain ⟨-, hm, hp⟩ := finite.inj rounded
  exact ⟨hm.symm, hp.symm⟩

/-- A natural number below the bound has a canonical form: the leading bit of its
significand is its own, moved up. -/
theorem exists_canonical {k : Nat} (hk : k < exactBound) :
    ∃ m p, Canonical m p ∧ m * 2 ^ p = k * unitsPerOne := by
  by_cases hz : k = 0
  · exact ⟨0, 0, ⟨by decide, .inr rfl, by decide⟩, by rw [hz, Nat.zero_mul, Nat.zero_mul]⟩
  · have places : k.log2 < 53 := (Nat.log2_lt hz).mpr hk
    have lower : 2 ^ k.log2 ≤ k := Nat.log2_self_le hz
    have upper : k < 2 ^ (k.log2 + 1) := Nat.lt_log2_self
    have pos : 0 < 2 ^ (52 - k.log2) := Nat.two_pow_pos _
    refine ⟨k * 2 ^ (52 - k.log2), 1022 + k.log2, ⟨?_, .inl ?_, by omega⟩, ?_⟩
    · calc k * 2 ^ (52 - k.log2) < 2 ^ (k.log2 + 1) * 2 ^ (52 - k.log2) :=
            Nat.mul_lt_mul_of_pos_right upper pos
        _ = 2 * leadingBit := by
            rw [← Nat.pow_add, show k.log2 + 1 + (52 - k.log2) = 53 by omega]
            rfl
    · calc leadingBit = 2 ^ k.log2 * 2 ^ (52 - k.log2) := by
            rw [← Nat.pow_add, show k.log2 + (52 - k.log2) = 52 by omega]
            rfl
        _ ≤ k * 2 ^ (52 - k.log2) := Nat.mul_le_mul_right _ lower
    · rw [Nat.mul_assoc, ← Nat.pow_add,
        show 52 - k.log2 + (1022 + k.log2) = unitPlaces by rw [unitPlaces]; omega]
      unfold unitsPerOne
      rfl

/-! ### The number of an integer -/

theorem ofQuotient_one_of_canonical (negative : Bool) {k m p : Nat} (h : Canonical m p)
    (exact : m * 2 ^ p = k * unitsPerOne) : ofQuotient negative k 1 = .finite negative m p h := by
  rw [ofQuotient, ← exact, ofUnits_of_canonical negative h]

/-- **An integer below the bound is held exactly.** -/
theorem exists_ofInt_eq_finite {n : Int} (hn : n.natAbs < exactBound) :
    ∃ m p, ∃ h : Canonical m p, m * 2 ^ p = n.natAbs * unitsPerOne ∧
      ofInt n = .finite (n < 0) m p h := by
  obtain ⟨m, p, h, exact⟩ := exists_canonical hn
  exact ⟨m, p, h, exact, ofQuotient_one_of_canonical _ h exact⟩

theorem isFinite_ofInt {n : Int} (hn : n.natAbs < exactBound) : (ofInt n).isFinite = true := by
  obtain ⟨m, p, h, -, eq⟩ := exists_ofInt_eq_finite hn
  rw [eq]
  rfl

theorem isIntegralBelow_ofInt {n : Int} (hn : n.natAbs < exactBound) :
    (ofInt n).isIntegralBelow exactBound = true := by
  obtain ⟨m, p, h, exact, eq⟩ := exists_ofInt_eq_finite hn
  have small := Nat.mul_lt_mul_of_pos_right hn unitsPerOne_pos
  rw [eq, isIntegralBelow, exact, Nat.mul_mod_left]
  simpa using small

theorem truncate_ofInt {n : Int} (hn : n.natAbs < exactBound) : (ofInt n).truncate = n := by
  obtain ⟨m, p, h, exact, eq⟩ := exists_ofInt_eq_finite hn
  rw [eq, truncate, exact, Nat.mul_div_cancel _ unitsPerOne_pos]
  by_cases hs : n < 0
  · rw [if_pos (by simpa using hs)]
    omega
  · rw [if_neg (by simpa using hs)]
    omega

theorem toInt64_ofInt {n : Int} (hn : n.natAbs < exactBound) : (ofInt n).toInt64 = n := by
  have bounds : -int64Bound ≤ n ∧ n ≤ int64Bound - 1 := by
    have : exactBound < 2 ^ (63 : Nat) := by decide
    unfold int64Bound
    omega
  have clamped := truncate_ofInt hn
  obtain ⟨m, p, h, -, eq⟩ := exists_ofInt_eq_finite hn
  rw [eq] at clamped ⊢
  rw [toInt64, clamped]
  · omega
  · exact nofun
  · exact nofun

/-- **An integral number is so many times one**, and its integer part is that many with its
sign. -/
theorem exists_count {x : Binary64} {bound : Nat} (hx : x.isIntegralBelow bound = true) :
    ∃ s m p k, ∃ h : Canonical m p, x = .finite s m p h ∧ m * 2 ^ p = k * unitsPerOne ∧
      k < bound ∧ x.truncate = if s then -(k : Int) else k := by
  cases x with
  | nan => cases hx
  | infinity s => cases hx
  | finite s m p h =>
    simp only [isIntegralBelow, Bool.and_eq_true, beq_iff_eq, decide_eq_true_eq] at hx
    obtain ⟨whole, below⟩ := hx
    obtain ⟨k, hk⟩ := Nat.dvd_of_mod_eq_zero whole
    rw [Nat.mul_comm unitsPerOne] at hk
    have small : k < bound := by
      rw [hk] at below
      exact Nat.lt_of_mul_lt_mul_right below
    have truncated : (finite s m p h).truncate = if s then -(k : Int) else k := by
      rw [truncate, hk, Nat.mul_div_cancel _ unitsPerOne_pos]
    exact ⟨s, m, p, k, h, rfl, hk, small, truncated⟩

theorem natAbs_truncate_lt {x : Binary64} {bound : Nat} (hx : x.isIntegralBelow bound = true) :
    x.truncate.natAbs < bound := by
  obtain ⟨s, m, p, k, h, -, -, small, truncated⟩ := exists_count hx
  rw [truncated]
  split <;> omega

/-- **An integral number below the bound is that of its integer**, but for the sign of zero. -/
theorem ofInt_truncate {x : Binary64} (hx : x.isIntegralBelow exactBound = true) :
    (ofInt x.truncate == x) = true := by
  obtain ⟨s, m, p, k, h, rfl, hk, small, truncated⟩ := exists_count hx
  have abs : (finite s m p h).truncate.natAbs = k := by
    rw [truncated]
    split <;> omega
  obtain ⟨m', p', h', exact, eq⟩ := exists_ofInt_eq_finite (abs.symm ▸ small)
  rw [abs, ← hk] at exact
  obtain ⟨rfl, rfl⟩ := canonical_unique h' h exact
  have sign : (decide ((finite s m' p' h).truncate < 0) == s || m' == 0) = true := by
    by_cases hz : m' = 0
    · simp [hz]
    · have pos : 0 < k := by
        refine Nat.pos_of_ne_zero ?_
        rintro rfl
        rw [Nat.zero_mul, Nat.mul_eq_zero] at hk
        exact hz (hk.resolve_right (Nat.ne_of_gt (Nat.two_pow_pos p')))
      rw [truncated]
      cases s with
      | false => simp
      | true =>
        simp
        omega
  rw [eq]
  simpa [BEq.beq, equal] using sign

/-- The number of an integer but zero below the bound is equal to itself alone. -/
theorem beq_ofInt_iff {x : Binary64} {n : Int} (nonzero : n ≠ 0) (hn : n.natAbs < exactBound) :
    (x == ofInt n) = true ↔ x = ofInt n := by
  constructor
  · intro same
    obtain ⟨m, p, h, exact, eq⟩ := exists_ofInt_eq_finite hn
    have full : m ≠ 0 := by
      rintro rfl
      have := Nat.mul_pos (Int.natAbs_pos.mpr nonzero) unitsPerOne_pos
      omega
    rw [eq] at same ⊢
    cases x with
    | nan => cases same
    | infinity s => cases same
    | finite s m' p' h' =>
      simp only [BEq.beq, equal, Bool.and_eq_true, Bool.or_eq_true, decide_eq_true_eq] at same
      obtain ⟨⟨rfl, rfl⟩, sign⟩ := same
      rw [sign.resolve_right (by simpa using full)]
  · rintro rfl
    exact beq_self (ofInt_ne_nan n)

end TreeSchema.Binary64
