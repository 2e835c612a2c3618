/-
# White space

The characters of the Unicode property White_Space, and texts trimmed of them.
-/

namespace TreeSchema.Text

/-- The character is white space. -/
def isBlank (c : Char) : Bool :=
  let n := c.toNat
  (0x9 ≤ n && n ≤ 0xd) || n == 0x20 || n == 0x85 || n == 0xa0 || n == 0x1680 ||
    (0x2000 ≤ n && n ≤ 0x200a) || n == 0x2028 || n == 0x2029 || n == 0x202f ||
    n == 0x205f || n == 0x3000

/-- The text from its first character that is not white space. -/
def skipBlanks (cs : List Char) : List Char :=
  cs.dropWhile isBlank

/-- The text without white space at either end. -/
def trim (cs : List Char) : List Char :=
  (skipBlanks (skipBlanks cs).reverse).reverse

theorem skipBlanks_of_not_isBlank {c : Char} (h : isBlank c = false) (cs : List Char) :
    skipBlanks (c :: cs) = c :: cs := by
  simp [skipBlanks, h]

/-- A text that starts and ends with characters other than white space is its own trimming. -/
theorem trim_eq_self {cs : List Char} (hd : ∀ c ∈ cs.head?, isBlank c = false)
    (hl : ∀ c ∈ cs.getLast?, isBlank c = false) : trim cs = cs := by
  have skip : ∀ {ds : List Char}, (∀ c ∈ ds.head?, isBlank c = false) → skipBlanks ds = ds := by
    intro ds h
    cases ds with
    | nil => rfl
    | cons d ds => exact skipBlanks_of_not_isBlank (h d rfl) ds
  rw [trim, skip hd, skip (by simpa using hl), List.reverse_reverse]

end TreeSchema.Text
