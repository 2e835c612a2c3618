import TreeSchema.Proofs.Time.Text

/-!
# Timestamps to the millisecond

Text and numbers tell a timestamp to the millisecond. What they leave out is dropped towards the
past, before the epoch as after it, as the nanoseconds of a timestamp count up from its second.

* `Timestamp.floorMillis` — a timestamp without what is below a millisecond.
* `Timestamp.instant_floorMillis` — it is the last whole millisecond that is not later.
* `Timestamp.chars_floorMillis`, `Timestamp.toMillis_floorMillis` — neither text nor milliseconds
  tell the two apart.
* `Timestamp.toMillis_of_ofMillis?` — the milliseconds that a timestamp was made from.
-/

namespace TreeSchema.Timestamp

/-- The nanoseconds from the epoch. -/
def instant (t : Timestamp) : Int :=
  t.seconds * 1000000000 + t.nanos

/-- The timestamp without what is below a millisecond. -/
def floorMillis (t : Timestamp) : Timestamp where
  seconds := t.seconds
  nanos := t.nanos / 1000000 * 1000000
  first_le := t.first_le
  le_last := t.le_last
  nanos_lt := by have := t.nanos_lt; omega
  leap_at_minute_end := fun h => t.leap_at_minute_end (by omega)

variable (t : Timestamp)

@[simp] theorem seconds_floorMillis : t.floorMillis.seconds = t.seconds := rfl

@[simp] theorem nanos_floorMillis : t.floorMillis.nanos = t.nanos / 1000000 * 1000000 := rfl

@[simp] theorem date_floorMillis : t.floorMillis.date = t.date := rfl

/-- **What is below a millisecond is dropped towards the past.** -/
theorem instant_floorMillis : t.floorMillis.instant = t.instant / 1000000 * 1000000 := by
  simp only [instant, seconds_floorMillis, nanos_floorMillis]
  omega

theorem nanos_floorMillis_mod : t.floorMillis.nanos % 1000000 = 0 := by
  simp

theorem isLeap_floorMillis : t.floorMillis.isLeap = t.isLeap := by
  have whole : 1000000000 ≤ t.nanos / 1000000 * 1000000 ↔ 1000000000 ≤ t.nanos := by omega
  exact decide_eq_decide.mpr whole

theorem toMillis_floorMillis : t.floorMillis.toMillis = t.toMillis := by
  simp [toMillis]

/-- The text of a timestamp does not tell what is below a millisecond. -/
theorem chars_floorMillis : t.floorMillis.chars = t.chars := by
  have second : t.nanos / 1000000 * 1000000 / 1000000000 = t.nanos / 1000000000 := by omega
  have millis : t.nanos / 1000000 * 1000000 % 1000000000 / 1000000 =
      t.nanos % 1000000000 / 1000000 := by omega
  simp [chars_eq, time, second, millis]

variable {t} {millis : Int}

/-- A timestamp that is made from milliseconds is at that many. -/
theorem toMillis_of_ofMillis? (h : ofMillis? millis = some t) : t.toMillis = millis := by
  rw [ofMillis?, of?] at h
  split at h
  · obtain rfl := Option.some.inj h
    simp only [toMillis]
    omega
  · cases h

end TreeSchema.Timestamp
