/-
# Base64

Bytes as text in the standard alphabet, three bytes to four characters, filled
up with `=` to a multiple of four. Reading accepts exactly what writing
produces: the padding has to be there, and the bits it leaves over are zero.

* `Base64.decode_encode` — reading gives the written bytes back.
-/

namespace TreeSchema.Base64

/-- The character of a number below 64. -/
def symbol (n : Nat) : Char :=
  if n < 26 then Char.ofNat (n + 65)
  else if n < 52 then Char.ofNat (n + 71)
  else if n < 62 then Char.ofNat (n - 4)
  else if n = 62 then '+' else '/'

/-- The number that a character of the alphabet stands for. -/
def symbolValue? (c : Char) : Option Nat :=
  if c.isUpper then some (c.toNat - 65)
  else if c.isLower then some (c.toNat - 71)
  else if c.isDigit then some (c.toNat + 4)
  else if c = '+' then some 62
  else if c = '/' then some 63
  else none

def encode : List UInt8 → List Char
  | [] => []
  | [a] =>
    let n := a.toNat * 16
    [symbol (n / 64), symbol (n % 64), '=', '=']
  | [a, b] =>
    let n := (a.toNat * 256 + b.toNat) * 4
    [symbol (n / 4096), symbol (n / 64 % 64), symbol (n % 64), '=']
  | a :: b :: c :: rest =>
    let n := (a.toNat * 256 + b.toNat) * 256 + c.toNat
    symbol (n / 262144) :: symbol (n / 4096 % 64) :: symbol (n / 64 % 64) :: symbol (n % 64) ::
      encode rest

/-- Reads a last group of one byte. -/
def decodeOne (w x : Char) : Option (List UInt8) := do
  let n := (← symbolValue? w) * 64 + (← symbolValue? x)
  if n % 16 = 0 then some [.ofNat (n / 16)] else none

/-- Reads a last group of two bytes. -/
def decodeTwo (w x y : Char) : Option (List UInt8) := do
  let n := ((← symbolValue? w) * 64 + (← symbolValue? x)) * 64 + (← symbolValue? y)
  if n % 4 = 0 then some [.ofNat (n / 1024), .ofNat (n / 4 % 256)] else none

/-- Reads a full group of three bytes. -/
def decodeThree (w x y z : Char) : Option (List UInt8) := do
  let n := (((← symbolValue? w) * 64 + (← symbolValue? x)) * 64 + (← symbolValue? y)) * 64 +
    (← symbolValue? z)
  some [.ofNat (n / 65536), .ofNat (n / 256 % 256), .ofNat (n % 256)]

def decode : List Char → Option (List UInt8)
  | [] => some []
  | w :: x :: y :: z :: rest =>
    if z = '=' ∧ rest = [] then if y = '=' then decodeOne w x else decodeTwo w x y
    else do
      let bytes ← decodeThree w x y z
      some (bytes ++ (← decode rest))
  | _ => none

/-! ### Reading what was written -/

theorem symbolValue?_symbol {n : Nat} (h : n < 64) : symbolValue? (symbol n) = some n := by
  have : ∀ k : Fin 64, symbolValue? (symbol k) = some k.val := by decide
  exact this ⟨n, h⟩

theorem symbol_ne_padding {n : Nat} (h : n < 64) : symbol n ≠ '=' := by
  have : ∀ k : Fin 64, symbol k ≠ '=' := by decide
  exact this ⟨n, h⟩

private theorem ofNat_eq (a : UInt8) {n : Nat} (h : n = a.toNat) : UInt8.ofNat n = a := by
  rw [h, UInt8.ofNat_toNat]

theorem decode_encode (bytes : List UInt8) : decode (encode bytes) = some bytes := by
  induction bytes using encode.induct with
  | case1 => rfl
  | case2 a =>
    have ha := a.toNat_lt
    simp only [encode, decode, decodeOne, and_self, if_true]
    rw [symbolValue?_symbol (by omega), symbolValue?_symbol (by omega)]
    simp only [Option.bind_eq_bind, Option.bind_some]
    rw [if_pos (by omega), ofNat_eq a (by omega)]
  | case3 a b =>
    have ha := a.toNat_lt
    have hb := b.toNat_lt
    simp only [encode, decode, decodeTwo, and_self, if_true]
    rw [if_neg (symbol_ne_padding (by omega)),
      symbolValue?_symbol (by omega), symbolValue?_symbol (by omega),
      symbolValue?_symbol (by omega)]
    simp only [Option.bind_eq_bind, Option.bind_some]
    rw [if_pos (by omega), ofNat_eq a (by omega), ofNat_eq b (by omega)]
  | case4 a b c rest ih =>
    have ha := a.toNat_lt
    have hb := b.toNat_lt
    have hc := c.toNat_lt
    simp only [encode, decode, decodeThree]
    rw [if_neg (fun h => symbol_ne_padding (by omega) h.1),
      symbolValue?_symbol (by omega), symbolValue?_symbol (by omega),
      symbolValue?_symbol (by omega), symbolValue?_symbol (by omega), ih]
    simp only [Option.bind_eq_bind, Option.bind_some]
    rw [ofNat_eq a (by omega), ofNat_eq b (by omega), ofNat_eq c (by omega)]
    rfl

end TreeSchema.Base64
