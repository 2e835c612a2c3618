import TreeSchema.Number.Binary64
import TreeSchema.Time.Timestamp

/-!
# Days, dates and timestamps

Counting days and naming them are inverse: the date of a day exists, and is on that day. The
mean length of a year puts the estimate of the year off by one at most, which is as far as it
is corrected; and a month is found by counting those that have begun.

* `Date.daysBeforeYear_yearOfDay_le`, `Date.lt_daysBeforeYear_yearOfDay_succ` — the year of a
  day.
* `Date.isValid_ofDays`, `Date.toDays_ofDays` — the date of a day.
* `Timestamp.ofLocal?_date_time` — a timestamp is at its date and time.
* `Timestamp.ofMillis?_toMillis` — a timestamp to the millisecond is known by its milliseconds.
-/

namespace TreeSchema

namespace Date

/-! ### Years -/

/-- A year begins when the one before it has passed. -/
theorem daysBeforeYear_succ (year : Int) :
    daysBeforeYear (year + 1) = daysBeforeYear year + 365 + (isLeap year).toNat := by
  have leap : isLeap year = true ↔ year % 4 = 0 ∧ (year % 100 ≠ 0 ∨ year % 400 = 0) := by
    simp [isLeap]
  unfold daysBeforeYear
  cases h : isLeap year with
  | true =>
    have := leap.mp h
    rw [Bool.toNat_true]
    omega
  | false =>
    have : ¬ (year % 4 = 0 ∧ (year % 100 ≠ 0 ∨ year % 400 = 0)) :=
      fun divisible => Bool.false_ne_true (h.symm.trans (leap.mpr divisible))
    rw [Bool.toNat_false]
    omega

theorem daysBeforeYear_yearOfDay_le (n : Int) : daysBeforeYear (yearOfDay n) ≤ n := by
  simp only [yearOfDay]
  split
  · unfold daysBeforeYear at *
    omega
  · split
    · assumption
    · omega

theorem lt_daysBeforeYear_yearOfDay_succ (n : Int) : n < daysBeforeYear (yearOfDay n + 1) := by
  simp only [yearOfDay]
  split
  · rwa [Int.sub_add_cancel]
  · split
    · unfold daysBeforeYear at *
      omega
    · omega

/-! ### Months -/

/-- The months of a year: the first is entered on its first day, and a day lies in the last
month that has begun. -/
theorem monthOfDay_spec (leap : Bool) {n : Nat} (h : n < 365 + leap.toNat) :
    (1 ≤ monthOfDay leap n ∧ monthOfDay leap n ≤ 12) ∧
      daysBeforeMonth leap (monthOfDay leap n) ≤ n ∧
      n < daysBeforeMonth leap (monthOfDay leap n + 1) := by
  have table : ∀ leap : Bool, ∀ n : Fin 366, n.val < 365 + leap.toNat →
      (1 ≤ monthOfDay leap n ∧ monthOfDay leap n ≤ 12) ∧
        daysBeforeMonth leap (monthOfDay leap n) ≤ n ∧
        n < daysBeforeMonth leap (monthOfDay leap n + 1) := by decide +kernel
  have small : n < 366 := by
    have := Bool.toNat_le leap
    omega
  exact table leap ⟨n, small⟩ h

/-! ### Dates -/

/-- The day of the year is one of the year. -/
theorem dayOfYear_bounds (n : Int) : 0 ≤ n - daysBeforeYear (yearOfDay n) ∧
    n - daysBeforeYear (yearOfDay n) < 365 + (isLeap (yearOfDay n)).toNat := by
  have first := daysBeforeYear_yearOfDay_le n
  have last := lt_daysBeforeYear_yearOfDay_succ n
  rw [daysBeforeYear_succ] at last
  omega

theorem monthOfDay_dayOfYear (n : Int) :
    let leap := isLeap (yearOfDay n)
    let dayOfYear := (n - daysBeforeYear (yearOfDay n)).toNat
    (1 ≤ monthOfDay leap dayOfYear ∧ monthOfDay leap dayOfYear ≤ 12) ∧
      daysBeforeMonth leap (monthOfDay leap dayOfYear) ≤ dayOfYear ∧
      dayOfYear < daysBeforeMonth leap (monthOfDay leap dayOfYear + 1) := by
  have bounds := dayOfYear_bounds n
  exact monthOfDay_spec _ (by omega)

/-- **The date of a day exists.** -/
theorem isValid_ofDays (days : Int) : (ofDays days).IsValid := by
  obtain ⟨⟨first, last⟩, begun, ended⟩ := monthOfDay_dayOfYear (days + epochDay)
  refine ⟨first, last, Nat.succ_le_succ (Nat.zero_le _), ?_⟩
  simp only [ofDays, daysInMonth]
  omega

/-- **The date of a day is on that day.** -/
theorem toDays_ofDays (days : Int) : (ofDays days).toDays = days := by
  have bounds := dayOfYear_bounds (days + epochDay)
  obtain ⟨-, begun, -⟩ := monthOfDay_dayOfYear (days + epochDay)
  simp only [toDays, ofDays]
  omega

theorem day_le_of_isValid {date : Date} (valid : date.IsValid) : date.day ≤ 31 := by
  have table : ∀ leap : Bool, ∀ month : Fin 13, daysInMonth leap month ≤ 31 := by decide
  obtain ⟨-, month, -, day⟩ := valid
  exact Nat.le_trans day (table (isLeap date.year) ⟨date.month, Nat.lt_succ_of_le month⟩)

end Date

namespace Timestamp

theorem of?_self (t : Timestamp) : of? t.seconds t.nanos = some t :=
  dif_pos ⟨⟨t.first_le, t.le_last⟩, t.nanos_lt, t.leap_at_minute_end⟩

theorem isValid_time (t : Timestamp) : t.time.IsValid := by
  have leap := t.leap_at_minute_end
  have nanos := t.nanos_lt
  refine ⟨?_, ?_, ?_⟩
  all_goals
    simp only [time]
    omega

/-- **A timestamp is at its date and time**, also within a leap second. -/
theorem ofLocal?_date_time (t : Timestamp) : ofLocal? t.date t.time 0 = some t := by
  have leap := t.leap_at_minute_end
  have nanos := t.nanos_lt
  have valid : t.date.IsValid ∧ t.time.IsValid := ⟨Date.isValid_ofDays _, t.isValid_time⟩
  have seconds : t.date.toDays * 86400 + (t.time.hour * 3600 + t.time.minute * 60 : Nat) +
      (min t.time.second 59 : Nat) - 0 * 60 = t.seconds := by
    rw [date, Date.toDays_ofDays]
    simp only [time]
    omega
  have second : t.time.second = 60 ↔ 1000000000 ≤ t.nanos := by
    simp only [time]
    omega
  have fraction : t.time.nanos + (if t.time.second = 60 then 1000000000 else 0) = t.nanos := by
    have within : t.time.nanos = t.nanos % 1000000000 := rfl
    by_cases long : 1000000000 ≤ t.nanos
    · rw [if_pos (second.mpr long), within]
      omega
    · rw [if_neg fun h => long (second.mp h), within]
      omega
  rw [ofLocal?, if_pos valid]
  show of? (t.date.toDays * 86400 + _ + _ - 0 * 60) _ = _
  rw [seconds, fraction, of?_self]

/-- **A timestamp to the millisecond, outside leap seconds, is known by its milliseconds.** -/
theorem ofMillis?_toMillis {t : Timestamp} (whole : t.nanos % 1000000 = 0)
    (plain : t.isLeap = false) : ofMillis? t.toMillis = some t := by
  have short : t.nanos < 1000000000 := by simpa [isLeap] using plain
  have seconds : t.toMillis / 1000 = t.seconds := by
    unfold toMillis
    omega
  have nanos : (t.toMillis % 1000).toNat * 1000000 = t.nanos := by
    unfold toMillis
    omega
  rw [ofMillis?, seconds, nanos, of?_self]

/-- The milliseconds of every timestamp are fewer than the integers that are numbers. -/
theorem natAbs_toMillis_lt (t : Timestamp) : t.toMillis.natAbs < Binary64.exactBound := by
  have first := t.first_le
  have last := t.le_last
  have nanos := t.nanos_lt
  have bound : Binary64.exactBound = 9007199254740992 := by decide
  rw [bound, toMillis]
  omega

end Timestamp

end TreeSchema
