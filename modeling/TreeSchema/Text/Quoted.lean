import TreeSchema.Text.Unprintable

/-!
# Quoted text

A text between quotation marks, with its special and unprintable characters
written as escapes: a backslash and a letter for the four common controls, a
backslash before the mark and before a backslash, and the code point in braces
for any other unprintable character.
-/

namespace TreeSchema.Text

/-- The lower-case hexadecimal digit of a number below sixteen. -/
def hexDigit (d : Nat) : Char :=
  Char.ofNat (if d < 10 then 48 + d else 87 + d)

/-- The hexadecimal digits of a number, without leading zeros. -/
def hexDigits (n : Nat) : List Char :=
  if n < 16 then [hexDigit n] else hexDigits (n / 16) ++ [hexDigit (n % 16)]
termination_by n

/-- How a character is written between quotation marks. -/
def escape (mark c : Char) : List Char :=
  if c = '\x00' then ['\\', '0']
  else if c = '\t' then ['\\', 't']
  else if c = '\n' then ['\\', 'n']
  else if c = '\r' then ['\\', 'r']
  else if c = '\\' ∨ c = mark then ['\\', c]
  else if isUnprintable c then ['\\', 'u', '{'] ++ hexDigits c.toNat ++ ['}']
  else [c]

/-- The characters of a text between double quotation marks. -/
def quotedChars (cs : List Char) : List Char :=
  '"' :: cs.flatMap (escape '"') ++ ['"']

/-- A text between double quotation marks. -/
def quoted (s : String) : String :=
  .ofList (quotedChars s.toList)

/-- A character between single quotation marks. -/
def quotedChar (c : Char) : String :=
  .ofList ('\'' :: escape '\'' c ++ ['\''])

end TreeSchema.Text
