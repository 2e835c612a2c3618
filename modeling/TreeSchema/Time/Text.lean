import TreeSchema.Number.Numeral
import TreeSchema.Text.Blank
import TreeSchema.Time.Timestamp

/-!
# Timestamps as text

A timestamp is written in universal time with milliseconds, the digits past them
dropped: `2024-01-02T03:04:05.678Z`. Years outside 0 to 9999 carry a sign.

Three forms are read: the Internet date and time with an offset, in exact widths;
a date and time without offset, taken as universal; and a bare date, taken at
midnight. In the last two, numbers may be shorter and white space may precede
them.

* `Timestamp.text` — writing.
* `Timestamp.ofText?` — reading, the three forms tried in this order.
-/

namespace TreeSchema

namespace Timestamp

/-! ### Writing -/

/-- A year in at least four digits, signed outside 0 to 9999. -/
def yearText (year : Int) : List Char :=
  let digits := Numeral.padded 4 year.natAbs
  if year < 0 then '-' :: digits else if 9999 < year then '+' :: digits else digits

/-- The text of a timestamp, as characters. -/
def chars (t : Timestamp) : List Char :=
  let date := t.date
  let time := t.time
  let two := Numeral.padded 2
  yearText date.year ++ '-' :: two date.month ++ '-' :: two date.day ++
    'T' :: two time.hour ++ ':' :: two time.minute ++ ':' :: two time.second ++
    '.' :: Numeral.padded 3 (time.nanos / 1000000) ++ ['Z']

def text (t : Timestamp) : String :=
  .ofList t.chars

/-! ### Readers of parts

A reader takes its part off the front of a text and returns what follows. -/

/-- Reads a given character. -/
def expect (c : Char) : List Char → Option (List Char)
  | d :: cs => if d = c then some cs else none
  | [] => none

/-- Reads a number of exactly `width` digits. -/
def exactly (width : Nat) (cs : List Char) : Option (Nat × List Char) :=
  let ds := cs.take width
  if ds.length = width ∧ ds.all Char.isDigit then some (Numeral.value ds, cs.drop width)
  else none

/-- Reads a number of one to `most` digits. -/
def upTo (most : Nat) (cs : List Char) : Option (Nat × List Char) :=
  let ds := (cs.take most).takeWhile Char.isDigit
  if ds = [] then none else some (Numeral.value ds, cs.drop ds.length)

/-- Reads a number of one or two digits, after white space. -/
def spaced (cs : List Char) : Option (Nat × List Char) :=
  upTo 2 (Text.skipBlanks cs)

/-- Reads a year, after white space: any number of digits with a sign, at most
four without. -/
def spacedYear (cs : List Char) : Option (Int × List Char) :=
  match Text.skipBlanks cs with
  | '-' :: cs => (upTo cs.length cs).map fun (n, cs) => (-n, cs)
  | '+' :: cs => (upTo cs.length cs).map fun (n, cs) => (n, cs)
  | cs => (upTo 4 cs).map fun (n, cs) => (n, cs)

/-- Reads a date, given the readers of its year and of its month and day. -/
def readDate (year : List Char → Option (Int × List Char))
    (two : List Char → Option (Nat × List Char)) (cs : List Char) :
    Option (Date × List Char) := do
  let (year, cs) ← year cs
  let (month, cs) ← two (← expect '-' cs)
  let (day, cs) ← two (← expect '-' cs)
  some (⟨year, month, day⟩, cs)

/-- Reads an optional fraction of a second: a point and one or more digits, of
which nine count. -/
def readFraction : List Char → Option (Nat × List Char)
  | '.' :: cs =>
    let ds := cs.takeWhile Char.isDigit
    if ds = [] then none
    else
      let nine := ds.take 9
      some (Numeral.value nine * 10 ^ (9 - nine.length), cs.dropWhile Char.isDigit)
  | cs => some (0, cs)

/-- Reads hours, minutes, seconds and a fraction, given the reader of a number. -/
def readTime (two : List Char → Option (Nat × List Char)) (cs : List Char) :
    Option (TimeOfDay × List Char) := do
  let (hour, cs) ← two cs
  let (minute, cs) ← two (← expect ':' cs)
  let (second, cs) ← two (← expect ':' cs)
  let (nanos, cs) ← readFraction cs
  some (⟨hour, minute, second, nanos⟩, cs)

/-- Reads an offset that ends the text, in minutes: `Z`, or a sign, hours and minutes. -/
def readOffset : List Char → Option Int
  | [] => none
  | c :: cs =>
    if c = 'Z' ∨ c = 'z' then if cs = [] then some 0 else none
    else do
      let negative ← if c = '+' then some false
        else if c = '-' ∨ c = '\u2212' then some true
        else none
      let (hours, cs) ← exactly 2 cs
      let (minutes, cs) ← exactly 2 (← expect ':' cs)
      if hours ≤ 23 ∧ minutes ≤ 59 ∧ cs = [] then
        let offset : Int := (hours * 60 + minutes : Nat)
        some (if negative then -offset else offset)
      else none

/-! ### The three forms -/

/-- A date and time in exact widths with an offset. -/
def ofInternetText? (cs : List Char) : Option Timestamp := do
  let (date, cs) ← readDate (fun cs => (exactly 4 cs).map fun (n, cs) => (n, cs)) (exactly 2) cs
  match cs with
  | c :: cs =>
    if c = 'T' ∨ c = 't' ∨ c = ' ' then
      let (time, cs) ← readTime (exactly 2) cs
      ofLocal? date time (← readOffset cs)
    else none
  | [] => none

/-- A date and time without offset. -/
def ofUniversalText? (cs : List Char) : Option Timestamp := do
  let (date, cs) ← readDate spacedYear spaced cs
  let (time, cs) ← readTime spaced (← expect 'T' cs)
  if cs = [] then ofLocal? date time 0 else none

/-- A bare date. -/
def ofDateText? (cs : List Char) : Option Timestamp := do
  let (date, cs) ← readDate spacedYear spaced cs
  if cs = [] then ofLocal? date .midnight 0 else none

/-- Reads a timestamp in the first form that fits. -/
def ofText? (cs : List Char) : Option Timestamp :=
  ofInternetText? cs <|> ofUniversalText? cs <|> ofDateText? cs

end Timestamp

end TreeSchema
