import TreeSchema.Proofs.Number.Numeral
import TreeSchema.Proofs.Text.Blank
import TreeSchema.Proofs.Time.Calendar
import TreeSchema.Time.Text

/-!
# Timestamps are read from their texts

The text of a timestamp has the first of the three forms that are read, in exact widths, so
each reader of a part takes off the front what was written for it.

* `Timestamp.exactly_padded` — numbers in a fixed width.
* `Timestamp.ofText?_chars` — timestamps to the millisecond in the years of four digits.
* `Timestamp.trim_chars` — no white space is around the text.
-/

namespace TreeSchema

namespace Timestamp

open Numeral

/-- **A number is read back from its numeral in a fixed width.** -/
theorem exactly_padded {width n : Nat} (hw : 0 < width) (h : n < 10 ^ width) (rest : List Char) :
    exactly width (padded width n ++ rest) = some (n, rest) := by
  have length := length_padded hw h
  have taken : (padded width n ++ rest).take width = padded width n := List.take_left' length
  have dropped : (padded width n ++ rest).drop width = rest := List.drop_left' length
  have isDigit : (padded width n).all Char.isDigit = true :=
    List.all_eq_true.mpr fun _ => isDigit_of_mem_padded
  rw [exactly, taken, dropped, if_pos ⟨length, isDigit⟩, value_padded]

theorem expect_cons (c : Char) (cs : List Char) : expect c (c :: cs) = some cs :=
  if_pos rfl

/-! ### Dates -/

/-- A year of four digits is written without a sign. -/
theorem yearText_of_le {year : Int} (h : 0 ≤ year ∧ year ≤ 9999) :
    yearText year = padded 4 year.natAbs := by
  simp only [yearText]
  rw [if_neg (by omega), if_neg (by omega)]

theorem readDate_written {date : Date} (year : 0 ≤ date.year ∧ date.year ≤ 9999)
    (month : date.month < 100) (day : date.day < 100) (rest : List Char) :
    readDate (fun cs => (exactly 4 cs).map fun (n, cs) => ((n : Int), cs)) (exactly 2)
      (yearText date.year ++ '-' :: (padded 2 date.month ++ '-' :: (padded 2 date.day ++ rest))) =
        some (date, rest) := by
  have nonneg : (date.year.natAbs : Int) = date.year := Int.natAbs_of_nonneg year.1
  have four : date.year.natAbs < 10 ^ 4 := by
    show date.year.natAbs < 10000
    omega
  rw [readDate, yearText_of_le year]
  simp only [exactly_padded (Nat.succ_pos 3) four, exactly_padded (Nat.succ_pos 1) month,
    exactly_padded (Nat.succ_pos 1) day, expect_cons, Option.map_some, Option.bind_eq_bind,
    Option.bind_some, nonneg]

/-! ### Times -/

/-- The digits of a fraction of a second in milliseconds. -/
theorem readFraction_written {millis : Nat} (h : millis < 1000) :
    readFraction ('.' :: (padded 3 millis ++ ['Z'])) = some (millis * 1000000, ['Z']) := by
  have isDigit : ∀ c ∈ padded 3 millis, c.isDigit = true := fun _ => isDigit_of_mem_padded
  have length : (padded 3 millis).length = 3 := length_padded (Nat.succ_pos 2) h
  have digits : (padded 3 millis ++ ['Z']).takeWhile Char.isDigit = padded 3 millis := by
    rw [List.takeWhile_append_of_pos isDigit]
    exact List.append_nil _
  have others : (padded 3 millis ++ ['Z']).dropWhile Char.isDigit = ['Z'] := by
    rw [List.dropWhile_append_of_pos isDigit]
    rfl
  have nine : (padded 3 millis).take 9 = padded 3 millis := List.take_of_length_le (by omega)
  simp only [readFraction, digits, others, nine, if_neg (padded_ne_nil 3 millis), value_padded,
    length]
  rfl

theorem readTime_written {time : TimeOfDay} (valid : time.IsValid) {millis : Nat}
    (h : millis < 1000) (exact : time.nanos = millis * 1000000) :
    readTime (exactly 2)
      (padded 2 time.hour ++ ':' :: (padded 2 time.minute ++ ':' :: (padded 2 time.second ++
        '.' :: (padded 3 millis ++ ['Z'])))) = some (time, ['Z']) := by
  obtain ⟨hour, minute, second⟩ := valid
  have two : ∀ {n : Nat}, n ≤ 60 → n < 10 ^ 2 := by
    intro n hn
    show n < 100
    omega
  rw [readTime]
  simp only [exactly_padded (Nat.succ_pos 1) (two (show time.hour ≤ 60 by omega)),
    exactly_padded (Nat.succ_pos 1) (two (show time.minute ≤ 60 by omega)),
    exactly_padded (Nat.succ_pos 1) (two second), expect_cons, readFraction_written h,
    Option.bind_eq_bind, Option.bind_some, ← exact]

/-! ### Timestamps -/

theorem chars_eq (t : Timestamp) : t.chars =
    yearText t.date.year ++ '-' :: (padded 2 t.date.month ++ '-' :: (padded 2 t.date.day ++
      'T' :: (padded 2 t.time.hour ++ ':' :: (padded 2 t.time.minute ++ ':' ::
        (padded 2 t.time.second ++ '.' :: (padded 3 (t.time.nanos / 1000000) ++ ['Z'])))))) := by
  simp only [chars, List.append_assoc, List.cons_append]

/-- **A timestamp is read from its text**, to the millisecond and in the years of four digits. -/
theorem ofText?_chars {t : Timestamp} (year : 0 ≤ t.date.year ∧ t.date.year ≤ 9999)
    (whole : t.nanos % 1000000 = 0) : ofText? t.chars = some t := by
  have valid : t.date.IsValid := Date.isValid_ofDays (t.seconds / 86400)
  have month : t.date.month < 100 := by
    have := valid.2.1
    omega
  have day : t.date.day < 100 := by
    have := Date.day_le_of_isValid valid
    omega
  have within : t.time.nanos = t.nanos % 1000000000 := rfl
  have millis : t.time.nanos / 1000000 < 1000 := by omega
  have exact : t.time.nanos = t.time.nanos / 1000000 * 1000000 := by omega
  have internet : ofInternetText? t.chars = some t := by
    rw [chars_eq, ofInternetText?]
    simp only [readDate_written year month day, readTime_written t.isValid_time millis exact,
      Option.bind_eq_bind, Option.bind_some]
    exact ofLocal?_date_time t
  rw [ofText?, internet]
  rfl

/-! ### White space -/

theorem isBlank_of_mem_yearText {year : Int} {c : Char} (h : c ∈ yearText year) :
    Text.isBlank c = false := by
  have digit : ∀ c ∈ padded 4 year.natAbs, Text.isBlank c = false := fun _ h =>
    Text.isBlank_of_isDigit (isDigit_of_mem_padded h)
  simp only [yearText] at h
  split at h
  · rcases List.mem_cons.mp h with rfl | h
    · rfl
    · exact digit c h
  · split at h
    · rcases List.mem_cons.mp h with rfl | h
      · rfl
      · exact digit c h
    · exact digit c h

/-- No white space is around the text of a timestamp. -/
theorem trim_chars (t : Timestamp) : Text.trim t.chars = t.chars := by
  refine Text.trim_of_forall fun c hc => ?_
  have digit : ∀ {width n : Nat}, c ∈ padded width n → Text.isBlank c = false := fun h =>
    Text.isBlank_of_isDigit (isDigit_of_mem_padded h)
  simp only [chars_eq, List.mem_append, List.mem_cons, List.not_mem_nil, or_false] at hc
  rcases hc with h | rfl | h | rfl | h | rfl | h | rfl | h | rfl | h | rfl | h | rfl
  · exact isBlank_of_mem_yearText h
  -- The separators and the numbers take turns.
  iterate 6
    · rfl
    · exact digit h
  · rfl

end Timestamp

end TreeSchema
