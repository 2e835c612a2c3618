import TreeSchema.Scalar.Coercion

/-!
# Coercion lands in the target type

`ScalarType.coerce?` converts to a value of the target type or not at all. The type
that is not read off the shape of the result is `integer`: that a rounded number is
integral is a matter of its units of magnitude, of which one has `2 ^ 1074`.

* `Binary64.isIntegral_round` — rounding to integers yields integral numbers.
* `ScalarType.accepts_of_coerce?` — what is coerced is of the type.
-/

namespace TreeSchema

namespace Binary64

/-! ### Magnitudes of integers -/

/-- A significand that makes up for the places that its exponent lacks encodes an
integral number. -/
theorem isIntegral_encode (negative : Bool) {significand exponent : Nat}
    (h : 2 ^ (unitPlaces - exponent) ∣ significand) :
    (encode negative significand exponent).isIntegral = true := by
  have whole : ∀ {m p : Nat}, 2 ^ (unitPlaces - p) ∣ m → (m * 2 ^ p) % unitsPerOne = 0 := by
    rintro m p ⟨c, rfl⟩
    refine Nat.mod_eq_zero_of_dvd ?_
    have : unitsPerOne ∣ 2 ^ (unitPlaces - p) * 2 ^ p := by
      rw [← Nat.pow_add]
      unfold unitsPerOne
      exact Nat.pow_dvd_pow 2 (by omega)
    rw [Nat.mul_right_comm]
    exact Nat.dvd_mul_right_of_dvd this c
  rw [encode]
  split
  · simpa [isIntegral] using whole h
  · split
    · have halved : 2 ^ (unitPlaces - (exponent + 1)) ∣ significand / 2 := by
        by_cases hp : unitPlaces ≤ exponent
        · rw [Nat.sub_eq_zero_of_le (by omega)]
          exact Nat.one_dvd _
        · obtain ⟨c, rfl⟩ := h
          have places : unitPlaces - exponent = unitPlaces - (exponent + 1) + 1 := by omega
          rw [places, Nat.pow_succ, Nat.mul_right_comm, Nat.mul_div_cancel _ (by omega)]
          exact Nat.dvd_mul_right _ _
      simpa [isIntegral] using whole halved
    · rfl

theorem nearestEven_of_dvd {a d : Nat} (hd : 0 < d) (h : d ∣ a) : nearestEven a d = a / d := by
  have hr : a % d = 0 := Nat.mod_eq_zero_of_dvd h
  simp [nearestEven, hr, hd]

/-- An integer is held by an integral number, the nearest one. -/
theorem isIntegral_ofQuotient_one (negative : Bool) (k : Nat) :
    (ofQuotient negative k 1).isIntegral = true := by
  rw [ofQuotient, ofUnits, Nat.div_one, Nat.one_mul]
  generalize Nat.log2 (k * unitsPerOne) - 52 = exponent
  refine isIntegral_encode negative ?_
  by_cases he : exponent ≤ unitPlaces
  · have split : unitsPerOne = 2 ^ (unitPlaces - exponent) * 2 ^ exponent := by
      rw [← Nat.pow_add, Nat.sub_add_cancel he]
      unfold unitsPerOne
      rfl
    have exact : k * unitsPerOne = k * 2 ^ (unitPlaces - exponent) * 2 ^ exponent := by
      rw [split, Nat.mul_assoc]
    rw [exact, nearestEven_of_dvd (Nat.two_pow_pos _) (Nat.dvd_mul_left _ _),
      Nat.mul_div_cancel _ (Nat.two_pow_pos _)]
    exact Nat.dvd_mul_left _ _
  · rw [Nat.sub_eq_zero_of_le (by omega)]
    exact Nat.one_dvd _

/-- **Rounding to integers yields integral numbers.** -/
theorem isIntegral_round {n : Binary64} (h : n.isFinite = true) : n.round.isIntegral = true := by
  cases n with
  | finite => exact isIntegral_ofQuotient_one _ _
  | _ => cases h

end Binary64

namespace ScalarType

theorem isFinite_of_toNumber? {v : Value} {n : Binary64} (h : toNumber? v = some n) :
    n.isFinite = true :=
  (Option.filter_eq_some_iff.mp h).2

theorem coerce?_of_accepts {type : ScalarType} {v : Value} (h : type.accepts v = true) :
    type.coerce? v = some v :=
  if_pos h

theorem coerce?_of_not_accepts {type : ScalarType} {v : Value} (h : type.accepts v = false) :
    type.coerce? v = type.convert? v :=
  if_neg (by simp [h])

/-- **What is coerced to a type is of the type.** -/
theorem accepts_of_coerce? {target : ScalarType} {v w : Value} (h : target.coerce? v = some w) :
    target.accepts w = true := by
  rw [coerce?] at h
  split at h
  · next ha =>
    cases h
    exact ha
  · cases target with
    | null => cases h
    | boolean =>
      rw [convert?] at h
      cases v with
      | null => cases h; rfl
      | number n =>
        rw [toBoolean?] at h
        split at h
        · cases h
        · cases h; rfl
      | _ => cases h
    | integer =>
      obtain ⟨n, hn, rfl⟩ := Option.map_eq_some_iff.mp h
      exact Binary64.isIntegral_round (isFinite_of_toNumber? hn)
    | float =>
      obtain ⟨n, -, rfl⟩ := Option.map_eq_some_iff.mp h
      rfl
    | string =>
      obtain ⟨s, -, rfl⟩ := Option.map_eq_some_iff.mp h
      rfl
    | date =>
      obtain ⟨t, -, rfl⟩ := Option.map_eq_some_iff.mp h
      rfl
    | binary =>
      obtain ⟨data, -, rfl⟩ := Option.map_eq_some_iff.mp h
      rfl

end ScalarType

end TreeSchema
