import TreeSchema.Time.Calendar

/-!
# Timestamps

A timestamp is a point in universal time to the nanosecond: whole seconds from
the Unix epoch, rounded down, and nanoseconds within the second. A leap second
is told as the second before it with a thousand million nanoseconds or more, and
so stands only at the end of a minute. The years run from -262143 to 262142.
-/

namespace TreeSchema

/-- A point in time, possibly within a leap second. -/
structure Timestamp where
  seconds : Int
  nanos : Nat
  first_le : -8334601228800 ≤ seconds
  le_last : seconds ≤ 8210266876799
  nanos_lt : nanos < 2000000000
  leap_at_minute_end : 1000000000 ≤ nanos → seconds % 60 = 59
deriving DecidableEq

namespace Timestamp

/-- The timestamp of the given seconds and nanoseconds, if there is one. -/
def of? (seconds : Int) (nanos : Nat) : Option Timestamp :=
  if h : (-8334601228800 ≤ seconds ∧ seconds ≤ 8210266876799) ∧ nanos < 2000000000 ∧
      (1000000000 ≤ nanos → seconds % 60 = 59) then
    some ⟨seconds, nanos, h.1.1, h.1.2, h.2.1, h.2.2⟩
  else none

/-- 1970-01-01, midnight. -/
def epoch : Timestamp where
  seconds := 0
  nanos := 0
  first_le := by decide
  le_last := by decide
  nanos_lt := by decide
  leap_at_minute_end := by decide

instance : Inhabited Timestamp := ⟨epoch⟩

/-- The milliseconds from the epoch, rounded down. -/
def toMillis (t : Timestamp) : Int :=
  t.seconds * 1000 + (t.nanos / 1000000 : Nat)

/-- The timestamp of a number of milliseconds from the epoch, if it is in range. -/
def ofMillis? (millis : Int) : Option Timestamp :=
  of? (millis / 1000) ((millis % 1000).toNat * 1000000)

/-- The timestamp lies within a leap second. -/
def isLeap (t : Timestamp) : Bool :=
  1000000000 ≤ t.nanos

end Timestamp

/-- A reading of a clock; a second 60 is a leap second. -/
structure TimeOfDay where
  hour : Nat
  minute : Nat
  second : Nat
  nanos : Nat

namespace TimeOfDay

/-- The reading exists. -/
def IsValid (t : TimeOfDay) : Prop :=
  t.hour ≤ 23 ∧ t.minute ≤ 59 ∧ t.second ≤ 60

instance (t : TimeOfDay) : Decidable t.IsValid :=
  inferInstanceAs (Decidable (_ ∧ _ ∧ _))

def midnight : TimeOfDay := ⟨0, 0, 0, 0⟩

end TimeOfDay

namespace Timestamp

/-- The timestamp at a local date and time, given the minutes that local time is
ahead of universal time. -/
def ofLocal? (date : Date) (time : TimeOfDay) (offset : Int) : Option Timestamp :=
  if date.IsValid ∧ time.IsValid then
    let seconds : Int := date.toDays * 86400 + (time.hour * 3600 + time.minute * 60 : Nat) +
      (min time.second 59 : Nat) - offset * 60
    of? seconds (time.nanos + if time.second = 60 then 1000000000 else 0)
  else none

/-- The date in universal time. -/
def date (t : Timestamp) : Date :=
  Date.ofDays (t.seconds / 86400)

/-- The clock in universal time. -/
def time (t : Timestamp) : TimeOfDay :=
  let s := (t.seconds % 86400).toNat
  { hour := s / 3600
    minute := s / 60 % 60
    second := s % 60 + t.nanos / 1000000000
    nanos := t.nanos % 1000000000 }

end Timestamp

end TreeSchema
