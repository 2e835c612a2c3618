import TreeSchema.Path.Reading

/-!
# Reading a written path

A path is written step by step, and each step is read back from what was written for it,
whatever follows: a word where the key is one, digits where the step is an index, and a quoted
text otherwise. The quoted text is where reading and writing part. A character without a
graphic form of its own is written by its code point in braces, and this escape is none of
those that are read.

* `Path.Escaped`, `Path.escaped_escape` — the ways in which a character of a key is written.
* `Path.ofText?_text` — the text of a path is read as the path if every character of its keys
  has a form that is read, and as an escape that is not known otherwise.
-/

namespace TreeSchema

namespace Text

/-- The character is written by its code point. -/
def isCoded (c : Char) : Bool :=
  isUnprintable c && !(c == '\x00' || c == '\t' || c == '\n' || c == '\r')

/-- The printable characters of ASCII are those from the space to the tilde. -/
theorem ascii_of_isUnprintable {c : Char} (h : isUnprintable c = true) :
    c.toNat < 0x20 ∨ 0x7f ≤ c.toNat := by
  have outside : (unprintableRanges.all fun r => r.2 < 0x20 || 0x7f ≤ r.1) = true := by
    decide +kernel
  obtain ⟨r, hr, h⟩ := List.any_eq_true.mp h
  have range := List.all_eq_true.mp outside r hr
  simp only [Bool.and_eq_true, Bool.or_eq_true, decide_eq_true_eq] at h range
  rcases range with low | high
  · exact .inl (Nat.lt_of_le_of_lt h.2 low)
  · exact .inr (Nat.le_trans high h.1)

theorem isCoded_of_ascii {c : Char} (low : 0x20 ≤ c.toNat) (high : c.toNat < 0x7f) :
    isCoded c = false := by
  have printable : ¬isUnprintable c = true := by
    intro h
    have := ascii_of_isUnprintable h
    omega
  simp [isCoded, printable]

theorem ne_backslash_of_isUnprintable {c : Char} (h : isUnprintable c = true) : c ≠ '\\' := by
  rintro rfl
  exact absurd (ascii_of_isUnprintable h) (by decide)

theorem ne_quote_of_isUnprintable {c : Char} (h : isUnprintable c = true) : c ≠ '"' := by
  rintro rfl
  exact absurd (ascii_of_isUnprintable h) (by decide)

theorem escape_of_isCoded {c : Char} (h : isCoded c = true) :
    escape '"' c = '\\' :: 'u' :: '{' :: (hexDigits c.toNat ++ ['}']) := by
  simp only [isCoded, Bool.and_eq_true, Bool.not_eq_true', Bool.or_eq_false_iff,
    beq_eq_false_iff_ne] at h
  obtain ⟨unprintable, ⟨⟨nul, tab⟩, newline⟩, carriage⟩ := h
  have special : ¬(c = '\\' ∨ c = '"') :=
    not_or.mpr ⟨ne_backslash_of_isUnprintable unprintable, ne_quote_of_isUnprintable unprintable⟩
  rw [escape, if_neg nul, if_neg tab, if_neg newline, if_neg carriage, if_neg special,
    if_pos unprintable]
  rfl

end Text

namespace Path

open Text (isCoded escape)

variable {c : Char} {cs rest : List Char} {offset : Nat}

/-! ### Escapes -/

/-- A character between quotation marks: itself, an escape of two characters that is read as
it, or an escape with its code point. -/
inductive Escaped (c : Char) : List Char → Prop
  | plain (quote : c ≠ '"') (backslash : c ≠ '\\') : Escaped c [c]
  | pair {e : Char} (known : unescape? e = some c) : Escaped c ['\\', e]
  | coded (h : isCoded c = true) :
      Escaped c ('\\' :: 'u' :: '{' :: (Text.hexDigits c.toNat ++ ['}']))

/-- **A character is written in one of the three ways.** -/
theorem escaped_escape (c : Char) : Escaped c (escape '"' c) := by
  cases hc : isCoded c with
  | true =>
    rw [Text.escape_of_isCoded hc]
    exact .coded hc
  | false =>
    by_cases nul : c = '\x00'
    · subst nul
      exact .pair (e := '0') rfl
    by_cases tab : c = '\t'
    · subst tab
      exact .pair (e := 't') rfl
    by_cases newline : c = '\n'
    · subst newline
      exact .pair (e := 'n') rfl
    by_cases carriage : c = '\r'
    · subst carriage
      exact .pair (e := 'r') rfl
    by_cases backslash : c = '\\'
    · subst backslash
      exact .pair (e := '\\') rfl
    by_cases quote : c = '"'
    · subst quote
      exact .pair (e := '"') rfl
    have printable : ¬Text.isUnprintable c = true := by
      intro hu
      simp [isCoded, hu, nul, tab, newline, carriage] at hc
    have alone : escape '"' c = [c] := by
      simp [escape, nul, tab, newline, carriage, backslash, quote, printable]
    rw [alone]
    exact .plain quote backslash

/-! ### Quoted texts -/

/-- A character that is written with an escape that is read. -/
theorem quotedRest_escape_pair {d : Char} (h : unescape? c = some d) (offset : Nat)
    (rest : List Char) :
    quotedRest offset (['\\', c] ++ rest) =
      (quotedRest (offset + byteCount ['\\', c]) rest).map
        fun taken => { taken with part := d :: taken.part } := by
  have width : byteCount ['\\', c] = 1 + c.utf8Size := by
    simp [byteCount, show Char.utf8Size '\\' = 1 from rfl]
  rw [List.cons_append, List.cons_append, List.nil_append, quotedRest, h, width, Nat.add_assoc]
  cases quotedRest (offset + (1 + c.utf8Size)) rest <;> rfl

/-- A character that stands for itself is read as itself. -/
theorem quotedRest_plain (quote : c ≠ '"') (backslash : c ≠ '\\') (offset : Nat)
    (rest : List Char) :
    quotedRest offset (c :: rest) =
      (quotedRest (offset + c.utf8Size) rest).map
        fun taken => { taken with part := c :: taken.part } := by
  rw [quotedRest]
  · cases quotedRest (offset + c.utf8Size) rest <;> rfl
  · exact quote
  · exact fun h _ => backslash h
  · exact fun _ _ h _ => backslash h

/-- A character that is not written by its code point is read back. -/
theorem quotedRest_escape (h : isCoded c = false) (offset : Nat) (rest : List Char) :
    quotedRest offset (escape '"' c ++ rest) =
      (quotedRest (offset + byteCount (escape '"' c)) rest).map
        fun taken => { taken with part := c :: taken.part } := by
  have escaped := escaped_escape c
  generalize escape '"' c = text at escaped ⊢
  cases escaped with
  | plain quote backslash =>
    have width : byteCount [c] = c.utf8Size := by simp [byteCount]
    rw [List.cons_append, List.nil_append, width]
    exact quotedRest_plain quote backslash offset rest
  | pair known => exact quotedRest_escape_pair known offset rest
  | coded coded => exact absurd (h.symm.trans coded) Bool.false_ne_true

/-- An escape with a code point is not read. -/
theorem quotedRest_coded (h : isCoded c = true) (offset : Nat) (rest : List Char) :
    quotedRest offset (escape '"' c ++ rest) = .error (.invalidEscape offset) := by
  rw [Text.escape_of_isCoded h, List.cons_append, List.cons_append, quotedRest]
  rfl

theorem byteCount_append (cs ds : List Char) :
    byteCount (cs ++ ds) = byteCount cs + byteCount ds :=
  total_append cs ds

theorem quotedRest_quoted (plain : ∀ c ∈ cs, isCoded c = false) (offset : Nat)
    (rest : List Char) :
    quotedRest offset (cs.flatMap (escape '"') ++ '"' :: rest) =
      .ok ⟨cs, offset + byteCount (cs.flatMap (escape '"')) + 1, rest⟩ := by
  induction cs generalizing offset with
  | nil => rw [List.flatMap_nil, List.nil_append, quotedRest]; rfl
  | cons c cs ih =>
    obtain ⟨hc, hcs⟩ := List.forall_mem_cons.mp plain
    rw [List.flatMap_cons, List.append_assoc, quotedRest_escape hc, ih hcs, byteCount_append,
      Nat.add_assoc offset]
    rfl

theorem quotedRest_quoted_coded (coded : ∃ c ∈ cs, isCoded c = true) (offset : Nat)
    (rest : List Char) :
    ∃ k, quotedRest offset (cs.flatMap (escape '"') ++ rest) = .error (.invalidEscape k) := by
  induction cs generalizing offset with
  | nil => obtain ⟨c, hc, -⟩ := coded; cases hc
  | cons c cs ih =>
    rw [List.flatMap_cons, List.append_assoc]
    cases hc : isCoded c with
    | true => exact ⟨offset, quotedRest_coded hc offset _⟩
    | false =>
      have later : ∃ d ∈ cs, isCoded d = true := by
        obtain ⟨d, hd, coded⟩ := coded
        rcases List.mem_cons.mp hd with rfl | hd
        · rw [hc] at coded; cases coded
        · exact ⟨d, hd, coded⟩
      obtain ⟨k, hk⟩ := ih later (offset + byteCount (escape '"' c))
      rw [quotedRest_escape hc, hk]
      exact ⟨k, rfl⟩

/-! ### Steps -/

/-- A text that a step can be told from: it goes on with no character of a word. -/
def EndsWord (rest : List Char) : Prop :=
  rest.head?.any isWordChar = false

theorem takeWhile_append_of_all {p : Char → Bool} (all : ∀ c ∈ cs, p c = true)
    (stop : rest.head?.any p = false) :
    (cs ++ rest).takeWhile p = cs ∧ (cs ++ rest).dropWhile p = rest := by
  have head : rest.takeWhile p = [] ∧ rest.dropWhile p = rest := by
    cases rest with
    | nil => exact ⟨rfl, rfl⟩
    | cons c rest =>
      have hc : p c = false := stop
      simp [hc]
  constructor
  · rw [List.takeWhile_append_of_pos all, head.1, List.append_nil]
  · rw [List.dropWhile_append_of_pos all, head.2]

theorem isWordChar_of_isIdentifier {name : String} (h : isIdentifier name = true) :
    name.toList ≠ [] ∧ ∀ c ∈ name.toList, isWordChar c = true := by
  unfold isIdentifier at h
  split at h
  · cases h
  next c cs hn =>
    simp only [Bool.and_eq_true, List.all_eq_true] at h
    rw [hn]
    exact ⟨List.cons_ne_nil _ _, List.forall_mem_cons.mpr ⟨h.1.1, h.2⟩⟩

/-- The characters of words are printable. -/
theorem isCoded_of_isWordChar (h : isWordChar c = true) : isCoded c = false := by
  delta isWordChar Char.isAlphanum Char.isAlpha Char.isUpper Char.isLower Char.isDigit at h
  simp only [Bool.or_eq_true, Bool.and_eq_true, decide_eq_true_eq, beq_iff_eq, ge_iff_le,
    UInt32.le_iff_toNat_le] at h
  change ((((65 ≤ c.toNat ∧ c.toNat ≤ 90) ∨ (97 ≤ c.toNat ∧ c.toNat ≤ 122)) ∨
    (48 ≤ c.toNat ∧ c.toNat ≤ 57)) ∨ c = '_') ∨ c = '$' at h
  rcases h with (h | rfl) | rfl
  · exact Text.isCoded_of_ascii (by omega) (by omega)
  · exact Text.isCoded_of_ascii (by decide) (by decide)
  · exact Text.isCoded_of_ascii (by decide) (by decide)

theorem word_identifier {name : String} (h : isIdentifier name = true) (stop : EndsWord rest)
    (offset : Nat) :
    word offset (name.toList ++ rest) =
      .ok ⟨.key name, offset + byteCount name.toList, rest⟩ := by
  obtain ⟨nonempty, all⟩ := isWordChar_of_isIdentifier h
  obtain ⟨taken, dropped⟩ := takeWhile_append_of_all all stop
  obtain ⟨c, cs, hn⟩ := List.exists_cons_of_ne_nil nonempty
  rw [word, taken, dropped]
  simp only [hn]
  rw [← hn, String.ofList_toList]

theorem close_bracket (step : Step) (offset : Nat) (rest : List Char) :
    close step offset (']' :: rest) = .ok ⟨step, offset + 1, rest⟩ := rfl

theorem byteCount_cons_ascii (h : c.utf8Size = 1) (cs : List Char) :
    byteCount (c :: cs) = 1 + byteCount cs := by
  simp [byteCount, h]

theorem bracketed_quoted {key : Taken (List Char)} (h : quotedRest (offset + 1) cs = .ok key) :
    bracketed offset ('"' :: cs) = close (.key (.ofList key.part)) key.offset key.rest := by
  rw [bracketed, h]
  rfl

theorem index?_digits {i : Nat} (h : i < indexLimit) : index? (Numeral.digits i) = some i := by
  have unsigned : ∀ ds, Numeral.digits i = '+' :: ds → False := by
    intro ds hd
    have : Char.isDigit '+' = true :=
      Numeral.isDigit_of_mem_digits (n := i) (by rw [hd]; exact List.mem_cons_self)
    exact absurd this (by decide)
  unfold index?
  split
  · next ds hd => exact (unsigned ds hd).elim
  · simp [Numeral.value?_digits, h]

/-- The text of an index, of digits and plus signs, is no quoted key and ends at the bracket. -/
theorem bracketed_of_index? {text : List Char} {i : Nat} (h : index? text = some i)
    (nonempty : text ≠ []) (chars : ∀ c ∈ text, c.isDigit = true ∨ c = '+') (offset : Nat)
    (rest : List Char) :
    bracketed offset (text ++ ']' :: rest) =
      .ok ⟨.index i, offset + byteCount text + 1, rest⟩ := by
  have unquoted : ∀ cs, text ++ ']' :: rest = '"' :: cs → False := by
    intro cs hcs
    obtain ⟨c, text, rfl⟩ := List.exists_cons_of_ne_nil nonempty
    obtain rfl := (List.cons.inj hcs).1
    exact absurd (chars '"' List.mem_cons_self) (by decide)
  have inside : ∀ c ∈ text, (c != ']') = true := by
    intro c hc
    rw [bne_iff_ne]
    rintro rfl
    exact absurd (chars ']' hc) (by decide)
  have stop : (']' :: rest).head?.any (· != ']') = false := rfl
  obtain ⟨taken, dropped⟩ := takeWhile_append_of_all inside stop
  rw [bracketed]
  · simp only [taken, dropped, h]
    exact close_bracket _ _ _
  · exact unquoted

theorem bracketed_index {i : Nat} (h : i < indexLimit) (offset : Nat) (rest : List Char) :
    bracketed offset (Numeral.digits i ++ ']' :: rest) =
      .ok ⟨.index i, offset + byteCount (Numeral.digits i) + 1, rest⟩ :=
  bracketed_of_index? (index?_digits h) (Numeral.digits_ne_nil i)
    (fun _ hc => .inl (Numeral.isDigit_of_mem_digits hc)) offset rest

end Path

namespace Step

/-- The characters of a key have forms that are read: none is written by its code point. -/
def Plain : Step → Prop
  | key name => ∀ c ∈ name.toList, Text.isCoded c = false
  | index _ => True

/-- An index is one that a path can have. -/
def InRange : Step → Prop
  | key _ => True
  | index i => i < Path.indexLimit

instance : DecidablePred Plain
  | key _ => List.decidableBAll _ _
  | index _ => inferInstanceAs (Decidable True)

instance : DecidablePred InRange
  | key _ => inferInstanceAs (Decidable True)
  | index i => inferInstanceAs (Decidable (i < Path.indexLimit))

/-- Keys in printable ASCII and with tabs are read back. -/
theorem plain_key {name : String}
    (h : (name.toList.all fun c => c == '\t' || (0x20 ≤ c.toNat && c.toNat < 0x7f)) = true) :
    (key name).Plain := by
  intro c hc
  have readable := List.all_eq_true.mp h c hc
  simp only [Bool.or_eq_true, Bool.and_eq_true, beq_iff_eq, decide_eq_true_eq] at readable
  rcases readable with rfl | ⟨low, high⟩
  · simp [Text.isCoded]
  · exact Text.isCoded_of_ascii low high

end Step

namespace Path

variable {step : Step} {rest : List Char}

theorem chars_identifier {name : String} (h : isIdentifier name = true) :
    (Step.key name).chars = '.' :: name.toList :=
  if_pos h

theorem chars_quoted {name : String} (h : isIdentifier name = false) (rest : List Char) :
    (Step.key name).chars ++ rest =
      '[' :: '"' :: (name.toList.flatMap (Text.escape '"') ++ '"' :: ']' :: rest) := by
  rw [Step.chars, if_neg (by simp [h]), Text.quotedChars]
  simp

theorem chars_index (i : Nat) (rest : List Char) :
    (Step.index i).chars ++ rest = '[' :: (Numeral.digits i ++ ']' :: rest) := by
  simp [Step.chars]

/-- The brackets and quotation marks of a quoted key take a byte each. -/
theorem byteCount_chars_quoted {name : String} (h : isIdentifier name = false) :
    byteCount (Step.key name).chars =
      byteCount (name.toList.flatMap (Text.escape '"')) + 4 := by
  have chars := chars_quoted h []
  rw [List.append_nil] at chars
  have marks : byteCount ['"', ']'] = 2 := rfl
  rw [chars, byteCount_cons_ascii rfl, byteCount_cons_ascii rfl, byteCount_append, marks]
  omega

theorem byteCount_chars_index (i : Nat) :
    byteCount (Step.index i).chars = byteCount (Numeral.digits i) + 2 := by
  have chars := chars_index i []
  rw [List.append_nil] at chars
  have bracket : byteCount [']'] = 1 := rfl
  rw [chars, byteCount_cons_ascii rfl, byteCount_append, bracket]
  omega

/-- A step is read back, whatever segment follows. -/
theorem segment_chars (plain : step.Plain) (range : step.InRange) (stop : EndsWord rest)
    (offset : Nat) :
    segment offset (step.chars ++ rest) =
      .ok ⟨step, offset + byteCount step.chars, rest⟩ := by
  cases step with
  | key name =>
    cases hi : isIdentifier name with
    | true =>
      rw [chars_identifier hi, List.cons_append, segment, word_identifier hi stop,
        byteCount_cons_ascii rfl, Nat.add_assoc]
    | false =>
      have key := quotedRest_quoted plain (offset + 1 + 1) (']' :: rest)
      rw [byteCount_chars_quoted hi, chars_quoted hi, segment, bracketed_quoted key,
        close_bracket, String.ofList_toList]
      dsimp only
      congr 2
      omega
  | index i =>
    rw [byteCount_chars_index, chars_index, segment, bracketed_index range]
    congr 2
    omega

/-- A key with a character that is written by its code point is not read. -/
theorem segment_chars_of_not_plain (coded : ¬step.Plain) (offset : Nat) (rest : List Char) :
    ∃ k, segment offset (step.chars ++ rest) = .error (.invalidEscape k) := by
  cases step with
  | key name =>
    have coded : ∃ c ∈ name.toList, Text.isCoded c = true := by
      simpa [Step.Plain] using coded
    have quoted : isIdentifier name = false := by
      obtain ⟨c, hc, coded⟩ := coded
      rw [Bool.eq_false_iff]
      intro hi
      rw [isCoded_of_isWordChar ((isWordChar_of_isIdentifier hi).2 c hc)] at coded
      cases coded
    obtain ⟨k, hk⟩ := quotedRest_quoted_coded coded (offset + 1 + 1) ('"' :: ']' :: rest)
    refine ⟨k, ?_⟩
    rw [chars_quoted quoted, segment, bracketed, hk]
    rfl
  | index i => exact absurd trivial coded

/-! ### Whole paths -/

variable {path : Path}

/-- What is written of a path begins as a step does, and so ends a word before it. -/
theorem endsWord_flatMap_chars (path : Path) : EndsWord (path.flatMap Step.chars) := by
  cases path with
  | nil => rfl
  | cons step path =>
    rw [List.flatMap_cons]
    cases step with
    | key name =>
      cases hi : isIdentifier name with
      | true => rw [chars_identifier hi]; rfl
      | false => rw [chars_quoted hi]; rfl
    | index i => rw [chars_index]; rfl

theorem chars_ne_nil (step : Step) (rest : List Char) : step.chars ++ rest ≠ [] := by
  cases step with
  | key name =>
    cases hi : isIdentifier name with
    | true => rw [chars_identifier hi]; exact List.cons_ne_nil _ _
    | false => rw [chars_quoted hi]; exact List.cons_ne_nil _ _
  | index i => rw [chars_index]; exact List.cons_ne_nil _ _

theorem segments_of_segment {offset : Nat} {cs : List Char} {taken : Taken Step}
    (nonempty : cs ≠ []) (h : segment offset cs = .ok taken) :
    segments offset cs = (segments taken.offset taken.rest).map (taken.part :: ·) := by
  rw [segments, if_neg nonempty]
  split
  · next e he => rw [h] at he; cases he
  · next found hf =>
    rw [h] at hf
    cases hf
    cases segments taken.offset taken.rest <;> rfl

theorem segments_of_error {offset : Nat} {cs : List Char} {e : PathError}
    (nonempty : cs ≠ []) (h : segment offset cs = .error e) : segments offset cs = .error e := by
  rw [segments, if_neg nonempty]
  split
  · next e' he => rw [h] at he; cases he; rfl
  · next found hf => rw [h] at hf; cases hf

theorem segments_chars (plain : ∀ step ∈ path, step.Plain) (range : ∀ step ∈ path, step.InRange)
    (offset : Nat) : segments offset (path.flatMap Step.chars) = .ok path := by
  induction path generalizing offset with
  | nil => rw [List.flatMap_nil, segments, if_pos rfl]
  | cons step path ih =>
    obtain ⟨hp, hps⟩ := List.forall_mem_cons.mp plain
    obtain ⟨hr, hrs⟩ := List.forall_mem_cons.mp range
    have first := segment_chars hp hr (endsWord_flatMap_chars path) offset
    rw [List.flatMap_cons, segments_of_segment (chars_ne_nil _ _) first, ih hps hrs]
    rfl

/-- The steps before a key that is not read are read. -/
theorem segments_chars_of_not_plain (coded : ∃ step ∈ path, ¬step.Plain)
    (range : ∀ step ∈ path, step.InRange) (offset : Nat) :
    ∃ k, segments offset (path.flatMap Step.chars) = .error (.invalidEscape k) := by
  induction path generalizing offset with
  | nil => obtain ⟨step, hs, -⟩ := coded; cases hs
  | cons step path ih =>
    obtain ⟨hr, hrs⟩ := List.forall_mem_cons.mp range
    rw [List.flatMap_cons]
    by_cases hp : step.Plain
    · have later : ∃ s ∈ path, ¬s.Plain := by
        obtain ⟨s, hs, coded⟩ := coded
        rcases List.mem_cons.mp hs with rfl | hs
        · exact absurd hp coded
        · exact ⟨s, hs, coded⟩
      have first := segment_chars hp hr (endsWord_flatMap_chars path) offset
      obtain ⟨k, hk⟩ := ih later hrs (offset + byteCount step.chars)
      rw [segments_of_segment (chars_ne_nil _ _) first, hk]
      exact ⟨k, rfl⟩
    · obtain ⟨k, hk⟩ := segment_chars_of_not_plain hp offset (path.flatMap Step.chars)
      exact ⟨k, segments_of_error (chars_ne_nil _ _) hk⟩

/-- The `$` at the head of a written path stands alone. -/
theorem ofText?_text_eq_segments (path : Path) :
    ofText? path.text = segments 1 (path.flatMap Step.chars) := by
  rw [ofText?, text, String.toList_ofList, chars, ofChars?,
    if_pos ⟨rfl, endsWord_flatMap_chars path⟩]

/-- **A path is read back from its text if no character of its keys is written by its code
point, and otherwise the text is refused at such an escape.** -/
theorem ofText?_text (path : Path) (range : ∀ step ∈ path, step.InRange) :
    ((∀ step ∈ path, step.Plain) → ofText? path.text = .ok path) ∧
      ((∃ step ∈ path, ¬step.Plain) → ∃ k, ofText? path.text = .error (.invalidEscape k)) := by
  rw [ofText?_text_eq_segments]
  exact ⟨fun plain => segments_chars plain range 1,
    fun coded => segments_chars_of_not_plain coded range 1⟩

/-- Keys with spaces, quotation marks and tabs are read back. -/
theorem ofText?_text_labels :
    ofText? (text [.key "weird key", .index 3, .key "say \"hi\"\t", .key "id"]) =
      .ok [.key "weird key", .index 3, .key "say \"hi\"\t", .key "id"] := by
  refine (ofText?_text _ (by decide)).1 ?_
  simp only [List.forall_mem_cons]
  exact ⟨Step.plain_key (by decide), trivial, Step.plain_key (by decide),
    Step.plain_key (by decide), nofun⟩

/-- A control character is written as an escape that is not read. -/
theorem ofText?_text_control :
    ofText? (text [.key "\x01"]) = .error (.invalidEscape 3) := by
  have coded : quotedRest 3 ("\x01".toList.flatMap (Text.escape '"') ++ ['"', ']']) =
      .error (.invalidEscape 3) :=
    quotedRest_coded (c := '\x01') (by decide) 3 ['"', ']']
  have refused : segment 1 ((Step.key "\x01").chars ++ []) = .error (.invalidEscape 3) := by
    rw [chars_quoted (by decide), segment, bracketed, coded]
    rfl
  rw [ofText?_text_eq_segments]
  exact segments_of_error (chars_ne_nil _ _) refused

end Path

end TreeSchema
