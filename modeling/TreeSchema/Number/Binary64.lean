import TreeSchema.Natural

/-!
# Binary64 numbers

The numbers of the data model are the IEEE 754 binary64 numbers, with all NaNs
taken as one. A finite number is held exactly: a sign and a *magnitude*
`significand * 2 ^ exponent`, counted in units of `2 ^ -1074`, the smallest
positive number. Counting in that unit keeps every magnitude a natural number,
so comparing, rounding and truncating are arithmetic on naturals.

* `Binary64.ofQuotient` — the correctly rounded value of a quotient of naturals,
  ties to the even significand, overflow to infinity.
* `Binary64.equal` — numerical equality: zeros of either sign are equal, NaN is
  equal to nothing.
* `Binary64.round`, `Binary64.toInt64` — rounding half away from zero, and
  truncation clamped to 64-bit integers.
* `Binary64.ofBits`, `Binary64.toBits` — the interchange encoding.
-/

namespace TreeSchema

namespace Binary64

/-- The leading bit of a significand of full length, of fifty-three bits. -/
def leadingBit : Nat := 2 ^ (52 : Nat)

theorem leadingBit_pos : 0 < leadingBit := by decide

/-- Every integer nearer to zero is a binary64 number. -/
def exactBound : Nat := 2 * leadingBit

/-- A significand and exponent that encode a finite number in the one way
binary64 has for it: the leading bit is set unless the exponent is least. -/
structure Canonical (significand exponent : Nat) : Prop where
  significand_lt : significand < 2 * leadingBit
  normal : leadingBit ≤ significand ∨ exponent = 0
  exponent_le : exponent ≤ 2045

instance (m p : Nat) : Decidable (Canonical m p) :=
  decidable_of_iff (m < 2 * leadingBit ∧ (leadingBit ≤ m ∨ p = 0) ∧ p ≤ 2045)
    ⟨fun ⟨a, b, c⟩ => ⟨a, b, c⟩, fun ⟨a, b, c⟩ => ⟨a, b, c⟩⟩

end Binary64

/-- A binary64 number. The finite number has the magnitude
`significand * 2 ^ exponent` in units of `2 ^ -1074`. The one NaN stands for every
encoding of a NaN: its sign and its payload are not part of the number, so what is said to
be kept bit for bit is kept except for these. -/
inductive Binary64 where
  | nan
  | infinity (negative : Bool)
  | finite (negative : Bool) (significand exponent : Nat)
      (canonical : Binary64.Canonical significand exponent)
deriving DecidableEq

namespace Binary64

/-- The number of binary places of the unit of magnitude. -/
def unitPlaces : Nat := 1074

/-- The number of units of magnitude in one. -/
@[irreducible] def unitsPerOne : Nat := 2 ^ unitPlaces

theorem unitsPerOne_pos : 0 < unitsPerOne := by
  unfold unitsPerOne
  exact Nat.two_pow_pos unitPlaces

/-- Zero, with a sign. -/
def signedZero (negative : Bool) : Binary64 :=
  .finite negative 0 0 ⟨by decide, .inr rfl, by decide⟩

instance : Inhabited Binary64 := ⟨signedZero false⟩

/-! ### Rounding a quotient -/

/-- The integer nearest to `a / d`, the even one of two equally near. -/
def nearestEven (a d : Nat) : Nat :=
  let q := a / d
  let r := a % d
  if 2 * r < d then q
  else if d < 2 * r then q + 1
  else q + q % 2

/-- The number of the given significand and exponent. A significand rounded up
to `2 ^ 53` carries into the exponent, and an exponent out of range gives
infinity. -/
def encode (negative : Bool) (significand exponent : Nat) : Binary64 :=
  if h : Canonical significand exponent then .finite negative significand exponent h
  else if h : Canonical (significand / 2) (exponent + 1) then
    .finite negative (significand / 2) (exponent + 1) h
  else .infinity negative

/-- The number nearest to `a / d` units of magnitude, for positive `d`. The
exponent is the least for which the significand stays below `2 ^ 53`. -/
def ofUnits (negative : Bool) (a d : Nat) : Binary64 :=
  let exponent := (a / d).log2 - 52
  encode negative (nearestEven a (d * 2 ^ exponent)) exponent

/-- The number nearest to `± a / d`, for positive `d`. -/
def ofQuotient (negative : Bool) (a d : Nat) : Binary64 :=
  ofUnits negative (a * unitsPerOne) d

/-- The number nearest to an integer. -/
def ofInt (n : Int) : Binary64 :=
  ofQuotient (n < 0) n.natAbs 1

instance (n : Nat) : OfNat Binary64 n := ⟨ofInt n⟩

theorem ofInt_zero : ofInt 0 = signedZero false := by
  have hr : nearestEven 0 1 = 0 := rfl
  have hc : Canonical 0 0 := ⟨by decide, .inr rfl, by decide⟩
  simp [ofInt, ofQuotient, ofUnits, hr, encode, hc, signedZero]

/-! ### Observations -/

def isNaN : Binary64 → Bool
  | nan => true
  | _ => false

def isFinite : Binary64 → Bool
  | finite .. => true
  | _ => false

/-- Integral numbers are those equal to their floor: the infinities are, NaN is not. -/
def isIntegral : Binary64 → Bool
  | nan => false
  | infinity _ => true
  | finite _ m p _ => (m * 2 ^ p) % unitsPerOne == 0

/-- Numerical equality. -/
def equal : Binary64 → Binary64 → Bool
  | infinity s, infinity t => s == t
  | finite s m p _, finite t n q _ => (m == n && p == q) && (s == t || m == 0)
  | _, _ => false

instance : BEq Binary64 := ⟨equal⟩

/-- The number is zero, of either sign. -/
def isZero : Binary64 → Bool
  | finite _ m _ _ => m == 0
  | _ => false

/-- The number is finite, integral and nearer to zero than `bound`. -/
def isIntegralBelow (bound : Nat) : Binary64 → Bool
  | finite _ m p _ => (m * 2 ^ p) % unitsPerOne == 0 && m * 2 ^ p < bound * unitsPerOne
  | _ => false

/-- The integer part of a finite number, towards zero; zero for the others. -/
def truncate : Binary64 → Int
  | finite s m p _ =>
    let n : Int := (m * 2 ^ p / unitsPerOne : Nat)
    if s then -n else n
  | _ => 0

/-! ### Rounding to integers -/

/-- The nearest integral number, halves away from zero; a zero result keeps the sign. -/
def round : Binary64 → Binary64
  | finite s m p _ => ofQuotient s ((2 * (m * 2 ^ p) + unitsPerOne) / (2 * unitsPerOne)) 1
  | x => x

/-- The number of negative 64-bit integers. -/
def int64Bound : Int :=
  (2 ^ (63 : Nat) : Nat)

/-- Truncation towards zero, clamped to the 64-bit signed integers; zero for NaN. -/
def toInt64 : Binary64 → Int
  | nan => 0
  | infinity s => if s then -int64Bound else int64Bound - 1
  | x => max (-int64Bound) (min (int64Bound - 1) x.truncate)

/-! ### The interchange encoding -/

private theorem canonical_subnormal (w : Nat) : Canonical (w % leadingBit) 0 := by
  have := Nat.mod_lt w leadingBit_pos
  exact ⟨by omega, .inr rfl, by decide⟩

private theorem canonical_normal {w e : Nat} (h : e ≠ 2047) (he : e < 2048) :
    Canonical (w % leadingBit + leadingBit) (e - 1) := by
  have := Nat.mod_lt w leadingBit_pos
  exact ⟨by omega, .inl (by omega), by omega⟩

/-- The bit of the sign, above eleven bits of exponent. -/
def signBit : Nat := 2048 * leadingBit

/-- Reads sign bit, eleven bits of biased exponent and fifty-two of fraction. -/
def ofBits (bits : UInt64) : Binary64 :=
  let w := bits.toNat
  let negative := w / signBit == 1
  let biased := w / leadingBit % 2048
  if h : biased = 2047 then
    if w % leadingBit = 0 then infinity negative else nan
  else if biased = 0 then finite negative (w % leadingBit) 0 (canonical_subnormal w)
  else
    finite negative (w % leadingBit + leadingBit) (biased - 1)
      (canonical_normal h (Nat.mod_lt _ (by decide)))

/-- The encoding; the quiet NaN with an empty payload stands for NaN. -/
def toBits : Binary64 → UInt64
  | nan => 0x7ff8000000000000
  | infinity s => .ofNat (sign s + 2047 * leadingBit)
  | finite s m p _ =>
    .ofNat (sign s + if m < leadingBit then m else (p + 1) * leadingBit + (m - leadingBit))
where
  sign (negative : Bool) : Nat := if negative then signBit else 0

end Binary64

end TreeSchema
