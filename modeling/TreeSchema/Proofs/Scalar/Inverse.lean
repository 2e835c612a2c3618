import TreeSchema.Proofs.Number.Rounding
import TreeSchema.Proofs.Number.Text
import TreeSchema.Proofs.Time.Millis

/-!
# Coercions there and back

A scalar that is coerced to another type and back is the scalar again, as far as the other type
can tell it: bytes by their base64 text, integers by their digits, timestamps to the millisecond
by their milliseconds or their text. Milliseconds of all timestamps are below the bound of exact
integers, so their number is exact at both ends of the calendar.

* `ScalarType.coerce?_text_bytes`, `ScalarType.coerce?_text_number`,
  `ScalarType.coerce?_text_timestamp` — through text.
* `ScalarType.coerce?_millis` — timestamps through milliseconds.
* `ScalarType.coerce?_timestamp_of_number` — numbers through timestamps.
* `ScalarType.coercions_invert` — all of these.
-/

namespace TreeSchema.ScalarType

open Binary64 (IsNearest exactBound ofInt)

variable {n : Binary64} {t : Timestamp}

theorem toNumber?_of_rawNumber? {v : Value} (raw : rawNumber? v = some n)
    (finite : n.isFinite = true) : toNumber? v = some n := by
  rw [toNumber?, raw, Option.filter_some, if_pos finite]

/-! ### Through text -/

theorem coerce?_bytes_text (data : List UInt8) :
    binary.coerce? (.string (.ofList (Base64.encode data))) = some (.bytes data) := by
  rw [coerce?_of_not_accepts rfl, convert?, toBytes?, String.toList_ofList, Base64.trim_encode,
    Base64.decode_encode, Option.map_some]

/-- **Bytes are read from their text.** -/
theorem coerce?_text_bytes (data : List UInt8) :
    (string.coerce? (.bytes data)).bind binary.coerce? = some (.bytes data) :=
  coerce?_bytes_text data

/-- **Integral numbers are read from their digits**, with the sign of zero. -/
theorem coerce?_text_number (h : n.isIntegralBelow (10 ^ (21 : Nat)) = true) :
    (string.coerce? (.number n)).bind integer.coerce? = some (.number n) := by
  have text : string.coerce? (.number n) = some (.string n.integerText) := by
    rw [coerce?_of_not_accepts rfl, convert?, toText?, numberText, if_pos h, Option.map_some]
  have read : rawNumber? (.string n.integerText) = some n := by
    rw [rawNumber?, Binary64.trim_integerText h, Binary64.ofText?_integerText h]
  have kind : n.isFinite = true ∧ n.isIntegral = true := by
    cases n with
    | finite => simp_all [Binary64.isIntegralBelow, Binary64.isFinite, Binary64.isIntegral]
    | _ => cases h
  rw [text, Option.bind_some, coerce?_of_not_accepts rfl, convert?,
    toNumber?_of_rawNumber? read kind.1, Option.map_some, Binary64.round_of_isIntegral kind.2]

/-- **Timestamps are read from their text**, to the millisecond, in the years of four digits. -/
theorem coerce?_text_timestamp (year : 0 ≤ t.date.year ∧ t.date.year ≤ 9999) :
    (string.coerce? (.timestamp t)).bind date.coerce? = some (.timestamp t.floorMillis) := by
  have read : toTimestamp? (.string t.text) = some t.floorMillis := by
    rw [toTimestamp?, Timestamp.text, String.toList_ofList, Timestamp.trim_chars,
      ← t.chars_floorMillis]
    exact Timestamp.ofText?_chars year t.nanos_floorMillis_mod
  have text : string.coerce? (.timestamp t) = some (.string t.text) := rfl
  rw [text, Option.bind_some, coerce?_of_not_accepts rfl, convert?, read, Option.map_some]

/-! ### Through milliseconds -/

/-- The milliseconds of a timestamp, as a number, are converted to the timestamp. -/
theorem toTimestamp?_ofInt_toMillis {t : Timestamp} (whole : t.nanos % 1000000 = 0)
    (plain : t.isLeap = false) : toTimestamp? (.number (.ofInt t.toMillis)) = some t := by
  have exact := t.natAbs_toMillis_lt
  rw [toTimestamp?, if_pos (Binary64.isFinite_ofInt exact), Binary64.round_ofInt,
    Binary64.toInt64_ofInt exact, Timestamp.ofMillis?_toMillis whole plain]

/-- A timestamp is coerced to its milliseconds, exactly. -/
theorem coerce?_integer_timestamp (t : Timestamp) :
    integer.coerce? (.timestamp t) = some (.number (ofInt t.toMillis)) := by
  have exact := t.natAbs_toMillis_lt
  rw [coerce?_of_not_accepts rfl, convert?,
    toNumber?_of_rawNumber? rfl (Binary64.isFinite_ofInt exact), Option.map_some,
    Binary64.round_ofInt]

/-- **Timestamps are read from their milliseconds**, over the whole calendar. -/
theorem coerce?_millis (plain : t.isLeap = false) :
    (integer.coerce? (.timestamp t)).bind date.coerce? = some (.timestamp t.floorMillis) := by
  have read : toTimestamp? (.number (ofInt t.toMillis)) = some t.floorMillis := by
    rw [← t.toMillis_floorMillis]
    exact toTimestamp?_ofInt_toMillis t.nanos_floorMillis_mod (t.isLeap_floorMillis.trans plain)
  rw [coerce?_integer_timestamp, Option.bind_some, coerce?_of_not_accepts rfl, convert?, read,
    Option.map_some]

/-- **A number that is coerced to a timestamp is coerced back to the nearest integer.** -/
theorem coerce?_timestamp_of_number (h : date.coerce? (.number n) = some (.timestamp t)) :
    ∃ k : Int, n.IsNearest k ∧ integer.coerce? (.timestamp t) = some (.number (ofInt k)) ∧
      (ofInt k == n.round) = true := by
  rw [coerce?_of_not_accepts rfl, convert?, toTimestamp?] at h
  split at h
  · next finite =>
    obtain ⟨t', made, same⟩ := Option.map_eq_some_iff.mp h
    cases same
    have millis := Timestamp.toMillis_of_ofMillis? made
    obtain ⟨nearest, equal⟩ :=
      Binary64.isNearest_of_toInt64_round finite millis.symm t.natAbs_toMillis_lt
    exact ⟨t.toMillis, nearest, coerce?_integer_timestamp t, equal⟩
  · cases h

/-! ### There and back -/

/-- **Coercions are inverse to each other** as far as the types can tell the scalars: bytes and
integers of up to fifty-three bits through text; timestamps to the millisecond through numbers,
and through text in the years of four digits; and numbers, rounded to integers, through
timestamps. -/
theorem coercions_invert :
    (∀ data : List UInt8,
      (string.coerce? (.bytes data)).bind binary.coerce? = some (.bytes data)) ∧
    (∀ n : Binary64, n.isIntegralBelow exactBound = true →
      (string.coerce? (.number n)).bind integer.coerce? = some (.number n)) ∧
    (∀ t : Timestamp, t.isLeap = false →
      (integer.coerce? (.timestamp t)).bind date.coerce? = some (.timestamp t.floorMillis)) ∧
    (∀ t : Timestamp, 0 ≤ t.date.year → t.date.year ≤ 9999 →
      (string.coerce? (.timestamp t)).bind date.coerce? = some (.timestamp t.floorMillis)) ∧
    (∀ (n : Binary64) (t : Timestamp), date.coerce? (.number n) = some (.timestamp t) →
      ∃ k : Int, n.IsNearest k ∧ integer.coerce? (.timestamp t) = some (.number (ofInt k)) ∧
        (ofInt k == n.round) = true) := by
  refine ⟨coerce?_text_bytes, ?_, ?_, ?_, ?_⟩
  · intro n h
    exact coerce?_text_number (Binary64.isIntegralBelow_mono (by decide) h)
  · intro t plain
    exact coerce?_millis plain
  · intro t first last
    exact coerce?_text_timestamp ⟨first, last⟩
  · intro n t h
    exact coerce?_timestamp_of_number h

/-- The last nanosecond before the epoch. -/
def eve : Timestamp where
  seconds := -1
  nanos := 999999999
  first_le := by decide
  le_last := by decide
  nanos_lt := by decide
  leap_at_minute_end := by decide

/-- Two milliseconds before the epoch, which minus one and a half is rounded to. -/
def twoBefore : Timestamp where
  seconds := -1
  nanos := 998000000
  first_le := by decide
  le_last := by decide
  nanos_lt := by decide
  leap_at_minute_end := by decide

theorem coercions_invert_eve :
    (string.coerce? (.bytes [0, 255])).bind binary.coerce? = some (.bytes [0, 255]) ∧
    (ofInt (-9007199254740991)).isIntegralBelow exactBound = true ∧
    (string.coerce? (.number (ofInt (-9007199254740991)))).bind integer.coerce? =
      some (.number (ofInt (-9007199254740991))) ∧
    eve.isLeap = false ∧
    (integer.coerce? (.timestamp eve)).bind date.coerce? = some (.timestamp eve.floorMillis) ∧
    (0 ≤ eve.date.year ∧ eve.date.year ≤ 9999) ∧
    (string.coerce? (.timestamp eve)).bind date.coerce? = some (.timestamp eve.floorMillis) ∧
    date.coerce? (.number (.ofQuotient true 3 2)) = some (.timestamp twoBefore) ∧
    ∃ k : Int, (Binary64.ofQuotient true 3 2).IsNearest k ∧
      integer.coerce? (.timestamp twoBefore) = some (.number (ofInt k)) ∧
      (ofInt k == (Binary64.ofQuotient true 3 2).round) = true := by
  obtain ⟨bytes, integers, millis, texts, numbers⟩ := coercions_invert
  have whole : (ofInt (-9007199254740991)).isIntegralBelow exactBound = true := by decide +kernel
  have year : 0 ≤ eve.date.year ∧ eve.date.year ≤ 9999 := by decide
  have made : date.coerce? (.number (.ofQuotient true 3 2)) = some (.timestamp twoBefore) := by
    have read : toTimestamp? (.number (.ofQuotient true 3 2)) = some twoBefore := by decide +kernel
    rw [coerce?_of_not_accepts rfl, convert?, read, Option.map_some]
  exact ⟨bytes [0, 255], whole, integers _ whole, rfl, millis eve rfl, year,
    texts eve year.1 year.2, made, numbers _ _ made⟩

end TreeSchema.ScalarType
