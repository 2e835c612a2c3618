import TreeSchema.Number.Binary64
import TreeSchema.Number.Numeral

/-!
# Numbers as decimal text

A finite number is written with the fewest significant digits that read back as
the same number, in positional notation at any size and without a fraction when
the digits need none. Among equally short texts the one nearest to the number is
taken, the greater one of two equally near.

Reading takes any decimal number, with an optional sign, fraction and exponent,
to the nearest binary64 number.

* `Binary64.shortest` — the shortest digits of a finite number.
* `Binary64.text`, `Binary64.integerText` — the text of a number, and the exact
  digits of an integral one.
* `Binary64.ofText?` — reading.
-/

namespace TreeSchema

namespace Binary64

/-! ### The shortest digits -/

/-- The reals that round to a finite number, as bounds in quarters of a unit of
magnitude. The bounds themselves round to the number when its significand is
even. Below a power of two the numbers lie twice as dense. -/
structure Neighbourhood where
  centre : Nat
  lower : Nat
  upper : Nat
  closed : Bool

def neighbourhood (significand exponent : Nat) : Neighbourhood where
  centre := 4 * significand * 2 ^ exponent
  lower := (4 * significand -
    if significand = leadingBit ∧ exponent ≠ 0 then 1 else 2) * 2 ^ exponent
  upper := (4 * significand + 2) * 2 ^ exponent
  closed := significand % 2 == 0

/-- The number of quarters of a unit of magnitude in one. -/
def quartersPerOne : Nat := 4 * unitsPerOne

/-- The multiple of `10 ^ power` that lies in a neighbourhood, the one nearest to
the centre if there are two. -/
def Neighbourhood.multiple? (b : Neighbourhood) (power : Int) : Option Nat :=
  let step := 10 ^ power.toNat * quartersPerOne
  let scale := 10 ^ (-power).toNat
  let inside (c : Nat) : Bool :=
    let x := c * step
    if b.closed then b.lower * scale ≤ x && x ≤ b.upper * scale
    else b.lower * scale < x && x < b.upper * scale
  let below := b.centre * scale / step
  match inside below, inside (below + 1) with
  | true, true =>
    some (if (2 * below + 1) * step ≤ 2 * (b.centre * scale) then below + 1 else below)
  | true, false => some below
  | false, true => some (below + 1)
  | false, false => none

/-- The shortest decimal `c * 10 ^ power` in a neighbourhood: the multiple of the
greatest power of ten that has one. The search starts above the upper bound, and
seventeen digits always suffice. -/
def Neighbourhood.shortest (b : Neighbourhood) : Nat × Int :=
  let start : Int := ((b.centre.log2 : Int) - 1075) * 30103 / 100000 + 2
  let found := (List.range 24).findSome? fun (i : Nat) =>
    let power := start - i
    (b.multiple? power).map (·, power)
  found.getD (0, 0)

/-! ### Positional notation -/

/-- The decimal `c * 10 ^ power` without an exponent. -/
def positional (c : Nat) (power : Int) : List Char :=
  let ds := Numeral.digits c
  let places := (-power).toNat
  if places = 0 then ds ++ List.replicate power.toNat '0'
  else if places < ds.length then
    ds.take (ds.length - places) ++ '.' :: ds.drop (ds.length - places)
  else '0' :: '.' :: List.replicate (places - ds.length) '0' ++ ds

/-- The sign of a text. -/
def signText (negative : Bool) : List Char :=
  if negative then ['-'] else []

/-- The text of a number. -/
def text : Binary64 → String
  | nan => "NaN"
  | infinity negative => if negative then "-inf" else "inf"
  | finite negative significand exponent _ =>
    .ofList <| signText negative ++
      if significand = 0 then ['0']
      else
        let (c, power) := (neighbourhood significand exponent).shortest
        positional c power

/-- The exact digits of an integral number; zero keeps its sign. -/
def integerText (x : Binary64) : String :=
  let negative := match x with
    | finite negative _ _ _ => negative
    | _ => false
  .ofList (signText negative ++ Numeral.digits x.truncate.natAbs)

/-! ### Reading -/

/-- The number nearest to `± c * 10 ^ power`. The number of digits alone settles
what is far out of range. -/
def ofDecimal (negative : Bool) (c : Nat) (power : Int) : Binary64 :=
  let magnitude : Int := (Numeral.digits c).length + power
  if c = 0 ∨ magnitude < -330 then signedZero negative
  else if 310 < magnitude then infinity negative
  else ofQuotient negative (c * 10 ^ power.toNat) (10 ^ (-power).toNat)

/-- Takes a sign off the front of a text; the flag says whether it was a minus. -/
def takeSign : List Char → Bool × List Char
  | '-' :: cs => (true, cs)
  | '+' :: cs => (false, cs)
  | cs => (false, cs)

/-- The exponent that ends a number: nothing, or an `e` and an integer. -/
def exponent? : List Char → Option Int
  | [] => some 0
  | c :: cs =>
    if c = 'e' ∨ c = 'E' then
      let (negative, ds) := takeSign cs
      (Numeral.value? ds).map fun n => if negative then -n else n
    else none

/-- Reads a decimal number: an optional sign, digits with an optional point among
or around them, and an optional exponent. -/
def ofText? (cs : List Char) : Option Binary64 :=
  let (negative, cs) := takeSign cs
  let whole := cs.takeWhile Char.isDigit
  let rest := cs.dropWhile Char.isDigit
  let (fraction, rest) := match rest with
    | '.' :: cs => (cs.takeWhile Char.isDigit, cs.dropWhile Char.isDigit)
    | _ => ([], rest)
  if whole ++ fraction = [] then none
  else
    (exponent? rest).map fun e =>
      ofDecimal negative (Numeral.value (whole ++ fraction)) (e - fraction.length)

end Binary64

end TreeSchema
