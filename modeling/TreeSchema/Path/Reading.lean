import TreeSchema.Path.Basic

/-!
# Reading paths

A path is read from an optional head and a run of segments. The head is a lone
`$`, which stands for the root, or a word, which is a key. A segment is a point
and a word, a bracketed index, or a bracketed key in double quotes.

Errors tell where the text went wrong, counted in bytes of its UTF-8 encoding.

* `Path.ofText?` — reading.
* `Path.segment_rest_lt` — a segment takes at least one character.
-/

namespace TreeSchema

/-- Why a text is no path. -/
inductive PathError where
  | unexpectedChar (offset : Nat) (found : Char)
  | unexpectedEnd
  /-- The text between brackets is no index. -/
  | invalidIndex (text : String)
  /-- The backslash at the offset starts no known escape. -/
  | invalidEscape (offset : Nat)
deriving DecidableEq

def PathError.message : PathError → String
  | unexpectedChar offset found =>
    "Unexpected character " ++ Text.quotedChar found ++ " at " ++ Numeral.text offset
  | unexpectedEnd => "Unexpected end of path"
  | invalidIndex text => "Invalid index " ++ Text.quoted text
  | invalidEscape offset => "Invalid escape sequence at " ++ Numeral.text offset

namespace Path

/-- A part read from a text, the offset behind it and the text that follows. -/
structure Taken (α : Type) where
  part : α
  offset : Nat
  rest : List Char

/-- The error of finding the wrong character, or none, at an offset. -/
def unexpected (offset : Nat) : List Char → PathError
  | [] => .unexpectedEnd
  | c :: _ => .unexpectedChar offset c

/-- The number of bytes of a text. -/
def byteCount (cs : List Char) : Nat :=
  total Char.utf8Size cs

/-- Reads a word. -/
def word (offset : Nat) (cs : List Char) : Except PathError (Taken Step) :=
  match cs.takeWhile isWordChar with
  | [] => .error (unexpected offset cs)
  | name => .ok ⟨.key (.ofList name), offset + byteCount name, cs.dropWhile isWordChar⟩

/-- The character that an escape stands for, by the character after its backslash. -/
def unescape? : Char → Option Char
  | '"' => some '"'
  | '\\' => some '\\'
  | 'n' => some '\n'
  | 'r' => some '\r'
  | 't' => some '\t'
  | '\'' => some '\''
  | '0' => some '\x00'
  | _ => none

/-- Reads a quoted text from behind its opening quotation mark to behind the closing one. -/
def quotedRest (offset : Nat) : List Char → Except PathError (Taken (List Char))
  | [] => .error .unexpectedEnd
  | '"' :: cs => .ok ⟨[], offset + 1, cs⟩
  | '\\' :: [] => .error .unexpectedEnd
  | '\\' :: c :: cs =>
    match unescape? c with
    | none => .error (.invalidEscape offset)
    | some d => do
      let taken ← quotedRest (offset + 1 + c.utf8Size) cs
      return { taken with part := d :: taken.part }
  | c :: cs => do
    let taken ← quotedRest (offset + c.utf8Size) cs
    return { taken with part := c :: taken.part }

/-- The indices are the numbers of 64 bits. -/
def indexLimit : Nat := 2 ^ (64 : Nat)

/-- Reads an index: an optional plus sign and digits. -/
def index? (cs : List Char) : Option Nat :=
  let digits := match cs with
    | '+' :: ds => ds
    | ds => ds
  (Numeral.value? digits).filter (· < indexLimit)

/-- Reads the closing bracket of a step. -/
def close (step : Step) (offset : Nat) : List Char → Except PathError (Taken Step)
  | ']' :: cs => .ok ⟨step, offset + 1, cs⟩
  | cs => .error (unexpected offset cs)

/-- Reads a bracketed step from behind its opening bracket. -/
def bracketed (offset : Nat) : List Char → Except PathError (Taken Step)
  | '"' :: cs => do
    let key ← quotedRest (offset + 1) cs
    close (.key (.ofList key.part)) key.offset key.rest
  | cs =>
    let text := cs.takeWhile (· != ']')
    match index? text with
    | none => .error (.invalidIndex (.ofList text))
    | some i => close (.index i) (offset + byteCount text) (cs.dropWhile (· != ']'))

/-- Reads a segment. -/
def segment (offset : Nat) : List Char → Except PathError (Taken Step)
  | '.' :: cs => word (offset + 1) cs
  | '[' :: cs => bracketed (offset + 1) cs
  | cs => .error (unexpected offset cs)

/-! ### A segment is not empty -/

theorem length_dropWhile_le (p : Char → Bool) (cs : List Char) :
    (cs.dropWhile p).length ≤ cs.length :=
  (List.dropWhile_sublist p).length_le

theorem word_rest_le {offset : Nat} {cs : List Char} {taken : Taken Step}
    (h : word offset cs = .ok taken) : taken.rest.length ≤ cs.length := by
  unfold word at h
  split at h
  · cases h
  · cases h
    exact length_dropWhile_le _ _

theorem quotedRest_rest_lt {offset : Nat} {cs : List Char} {taken : Taken (List Char)}
    (h : quotedRest offset cs = .ok taken) : taken.rest.length < cs.length := by
  fun_induction quotedRest offset cs generalizing taken with
  | case1 => cases h
  | case2 offset cs => cases h; simp
  | case3 => cases h
  | case4 => cases h
  | case5 offset c cs d hd ih =>
    obtain ⟨inner, hi, h⟩ : ∃ inner, quotedRest (offset + 1 + c.utf8Size) cs = .ok inner ∧
        { inner with part := d :: inner.part } = taken := by
      cases hq : quotedRest (offset + 1 + c.utf8Size) cs with
      | error e => rw [hq] at h; cases h
      | ok inner => rw [hq] at h; cases h; exact ⟨inner, rfl, rfl⟩
    have := ih hi
    subst h
    simp only [List.length_cons]
    omega
  | case6 offset c cs _ _ _ ih =>
    obtain ⟨inner, hi, h⟩ : ∃ inner, quotedRest (offset + c.utf8Size) cs = .ok inner ∧
        { inner with part := c :: inner.part } = taken := by
      cases hq : quotedRest (offset + c.utf8Size) cs with
      | error e => rw [hq] at h; cases h
      | ok inner => rw [hq] at h; cases h; exact ⟨inner, rfl, rfl⟩
    have := ih hi
    subst h
    simp only [List.length_cons]
    omega

theorem close_rest_lt {step : Step} {offset : Nat} {cs : List Char} {taken : Taken Step}
    (h : close step offset cs = .ok taken) : taken.rest.length < cs.length := by
  unfold close at h
  split at h
  · cases h; simp
  · cases h

theorem bracketed_rest_le {offset : Nat} {cs : List Char} {taken : Taken Step}
    (h : bracketed offset cs = .ok taken) : taken.rest.length ≤ cs.length := by
  unfold bracketed at h
  split at h
  · next ds =>
    cases hq : quotedRest (offset + 1) ds with
    | error e => rw [hq] at h; cases h
    | ok key =>
      rw [hq] at h
      have h1 := quotedRest_rest_lt hq
      have h2 := close_rest_lt h
      rw [List.length_cons]
      omega
  · dsimp only at h
    split at h
    · cases h
    · have h1 := close_rest_lt h
      have h2 := length_dropWhile_le (· != ']') cs
      omega

theorem segment_rest_lt {offset : Nat} {cs : List Char} {taken : Taken Step}
    (h : segment offset cs = .ok taken) : taken.rest.length < cs.length := by
  unfold segment at h
  split at h
  · have := word_rest_le h
    rw [List.length_cons]
    omega
  · have := bracketed_rest_le h
    rw [List.length_cons]
    omega
  · cases h

/-! ### Whole paths -/

/-- Reads segments up to the end of the text. -/
def segments (offset : Nat) (cs : List Char) : Except PathError Path :=
  if cs = [] then .ok []
  else
    match _h : segment offset cs with
    | .error e => .error e
    | .ok taken => do
      let steps ← segments taken.offset taken.rest
      return taken.part :: steps
termination_by cs.length
decreasing_by exact segment_rest_lt ‹_›

/-- Reads a path given as characters. -/
def ofChars? (cs : List Char) : Except PathError Path :=
  match cs with
  | [] => .ok []
  | c :: rest =>
    if c = '$' ∧ (rest.head?.any isWordChar) = false then segments 1 rest
    else if c = '.' ∨ c = '[' then segments 0 cs
    else do
      let head ← word 0 cs
      let steps ← segments head.offset head.rest
      return head.part :: steps

/-- Reads a path. -/
def ofText? (text : String) : Except PathError Path :=
  ofChars? text.toList

end Path

end TreeSchema
