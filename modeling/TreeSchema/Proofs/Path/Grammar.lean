import TreeSchema.Proofs.Path.RoundTrip
import TreeSchema.Proofs.Traversal

/-!
# The grammar of paths

A path is written as an optional head and segments. The head is a `$` that stands alone, or a
word; a segment is a point and a word, an index in brackets, or a quoted key in brackets. Words
are taken as long as they go on. In a quoted key, a character stands for itself, or a backslash
and a letter for one of seven characters.

`Written` says this of a text and a path without the reader. The reader looks one character
ahead, and so each of its parts is settled by what the text begins with: a part is read exactly
if the text begins with a spelling of it, and what is left behind is what follows the spelling.

* `Path.word_iff`, `Path.quotedRest_iff`, `Path.index?_iff`, `Path.segment_iff` — the parts.
* `Path.segments_iff` — runs of segments.
* `Path.ofText?_eq_ok_iff_written` — **the texts that are read are those that are written by the
  grammar, and as the path that they are written for.**
-/

namespace TreeSchema.Path

/-! ### The grammar -/

/-- A run of letters, digits, underscores and dollar signs. -/
structure IsWord (cs : List Char) : Prop where
  nonempty : cs ≠ []
  wordChars : ∀ c ∈ cs, isWordChar c = true

/-- What may stand behind a backslash, and what it stands for. -/
def escapes : List (Char × Char) :=
  [('"', '"'), ('\\', '\\'), ('n', '\n'), ('r', '\r'), ('t', '\t'), ('\'', '\''), ('0', '\x00')]

/-- The text between the quotation marks of a key. -/
inductive Body : (text key : List Char) → Prop
  | nil : Body [] []
  | plain {c : Char} {text key : List Char} (quote : c ≠ '"') (backslash : c ≠ '\\')
      (rest : Body text key) : Body (c :: text) (c :: key)
  | escape {c d : Char} {text key : List Char} (known : (c, d) ∈ escapes)
      (rest : Body text key) : Body ('\\' :: c :: text) (d :: key)

/-- A run of digits whose number is one of 64 bits. -/
structure IsIndex (cs : List Char) : Prop where
  nonempty : cs ≠ []
  digits : ∀ c ∈ cs, c.isDigit = true
  value_lt : Numeral.value cs < indexLimit

/-- The text between the brackets of an index: digits, perhaps behind a plus sign. -/
inductive IndexText : (text : List Char) → (index : Nat) → Prop
  | unsigned {digits : List Char} (h : IsIndex digits) : IndexText digits (Numeral.value digits)
  | signed {digits : List Char} (h : IsIndex digits) :
      IndexText ('+' :: digits) (Numeral.value digits)

/-- A text that begins with a segment, the step that the segment is, and the rest of the text. -/
inductive Segment : (text : List Char) → (step : Step) → (rest : List Char) → Prop
  | word {name rest : List Char} (h : IsWord name) (stop : EndsWord rest) :
      Segment ('.' :: (name ++ rest)) (.key (.ofList name)) rest
  | index {text rest : List Char} {i : Nat} (h : IndexText text i) :
      Segment ('[' :: (text ++ ']' :: rest)) (.index i) rest
  | quoted {text key rest : List Char} (h : Body text key) :
      Segment ('[' :: '"' :: (text ++ '"' :: ']' :: rest)) (.key (.ofList key)) rest

/-- A text made of segments, and the steps that they are. -/
inductive Segments : (text : List Char) → (path : Path) → Prop
  | nil : Segments [] []
  | cons {text rest : List Char} {step : Step} {path : Path} (first : Segment text step rest)
      (others : Segments rest path) : Segments text (step :: path)

/-- A text with a head or without, the steps of the head, and the rest of the text. -/
inductive Head : (text : List Char) → (steps : Path) → (rest : List Char) → Prop
  | none {text : List Char} : Head text [] text
  | root {rest : List Char} (stop : EndsWord rest) : Head ('$' :: rest) [] rest
  | word {name rest : List Char} (h : IsWord name) (other : name ≠ ['$']) (stop : EndsWord rest) :
      Head (name ++ rest) [.key (.ofList name)] rest

/-- The text of a path: a head, if there is one, and segments. -/
inductive Written : (text : List Char) → (path : Path) → Prop
  | mk {text rest : List Char} {steps path : Path} (head : Head text steps rest)
      (segments : Segments rest path) : Written text (steps ++ path)

/-! ### Words -/

variable {cs rest : List Char} {offset : Nat} {step : Step} {path : Path}

/-- What is left behind a run of word characters does not go on with one. -/
theorem endsWord_dropWhile (cs : List Char) : EndsWord (cs.dropWhile isWordChar) := by
  have head := List.head?_dropWhile_not isWordChar cs
  rw [EndsWord]
  cases h : (cs.dropWhile isWordChar).head? with
  | none => rfl
  | some c =>
    rw [h] at head
    simpa using head

/-- A word is read exactly if the text begins with one, and it is read to its end. -/
theorem word_iff : (∃ k, word offset cs = .ok ⟨step, k, rest⟩) ↔
    ∃ name, IsWord name ∧ EndsWord rest ∧ cs = name ++ rest ∧ step = .key (.ofList name) := by
  constructor
  · rintro ⟨k, h⟩
    have split := List.takeWhile_append_dropWhile (p := isWordChar) (l := cs)
    have wordChars : ∀ c ∈ cs.takeWhile isWordChar, isWordChar c = true :=
      List.all_eq_true.mp List.all_takeWhile
    rw [word] at h
    cases taken : cs.takeWhile isWordChar with
    | nil => simp [taken] at h
    | cons c name =>
      simp only [taken, Except.ok.injEq, Taken.mk.injEq] at h
      obtain ⟨rfl, -, rfl⟩ := h
      rw [taken] at split wordChars
      have word : IsWord (c :: name) := ⟨List.cons_ne_nil c name, wordChars⟩
      exact ⟨c :: name, word, endsWord_dropWhile cs, split.symm, rfl⟩
  · rintro ⟨name, ⟨nonempty, wordChars⟩, stop, rfl, rfl⟩
    obtain ⟨taken, dropped⟩ := takeWhile_append_of_all wordChars stop
    obtain ⟨c, cs, rfl⟩ := List.exists_cons_of_ne_nil nonempty
    rw [word, taken, dropped]
    exact ⟨_, rfl⟩

/-! ### Quoted keys -/

theorem unescape?_eq_some_iff {c d : Char} : unescape? c = some d ↔ (c, d) ∈ escapes := by
  unfold unescape?
  split <;> simp_all [escapes, eq_comm]

/-- A key is read exactly if the text begins with one and a quotation mark. -/
theorem quotedRest_iff {key : List Char} :
    (∃ k, quotedRest offset cs = .ok ⟨key, k, rest⟩) ↔
      ∃ text, Body text key ∧ cs = text ++ '"' :: rest := by
  constructor
  · rintro ⟨k, h⟩
    fun_induction quotedRest offset cs generalizing key with
    | case1 => cases h
    | case2 offset cs =>
      cases h
      exact ⟨[], .nil, rfl⟩
    | case3 => cases h
    | case4 => cases h
    | case5 offset c cs d known ih =>
      obtain ⟨taken, ht, h⟩ := bind_eq_ok h
      cases h
      obtain ⟨text, body, rfl⟩ := ih ht
      exact ⟨_, .escape (unescape?_eq_some_iff.mp known) body, rfl⟩
    | case6 offset c cs quote alone pair ih =>
      obtain ⟨taken, ht, h⟩ := bind_eq_ok h
      cases h
      obtain ⟨text, body, rfl⟩ := ih ht
      have backslash : c ≠ '\\' := by
        intro hc
        cases text with
        | nil => exact pair _ _ hc rfl
        | cons d text => exact pair _ _ hc rfl
      exact ⟨_, .plain quote backslash body, rfl⟩
  · rintro ⟨text, body, rfl⟩
    induction body generalizing offset with
    | nil => exact ⟨_, rfl⟩
    | @plain c text key quote backslash _ ih =>
      obtain ⟨k, h⟩ := @ih (offset + c.utf8Size)
      rw [List.cons_append, quotedRest_plain quote backslash, h]
      exact ⟨k, rfl⟩
    | @escape c d text key known _ ih =>
      obtain ⟨k, h⟩ := @ih (offset + byteCount ['\\', c])
      have pair := quotedRest_escape_pair (unescape?_eq_some_iff.mpr known) offset
        (text ++ '"' :: rest)
      rw [h] at pair
      exact ⟨k, pair⟩

/-! ### Indices -/

/-- An index is read exactly from digits for a number of 64 bits, perhaps behind a plus sign. -/
theorem index?_iff {i : Nat} : index? cs = some i ↔ IndexText cs i := by
  have number : ∀ {ds : List Char}, (Numeral.value? ds).filter (· < indexLimit) = some i ↔
      IsIndex ds ∧ Numeral.value ds = i := by
    intro ds
    rw [Option.filter_eq_some_iff, Numeral.value?]
    constructor
    · rintro ⟨h, lt⟩
      split at h
      · next digits =>
        obtain rfl := Option.some.inj h
        exact ⟨⟨digits.1, List.all_eq_true.mp digits.2, of_decide_eq_true lt⟩, rfl⟩
      · cases h
    · rintro ⟨⟨nonempty, digits, lt⟩, rfl⟩
      exact ⟨if_pos ⟨nonempty, List.all_eq_true.mpr digits⟩, decide_eq_true lt⟩
  unfold index?
  dsimp only
  constructor
  · intro h
    split at h
    · obtain ⟨index, rfl⟩ := number.mp h
      exact .signed index
    · obtain ⟨index, rfl⟩ := number.mp h
      exact .unsigned index
  · intro h
    cases h with
    | signed index => exact number.mpr ⟨index, rfl⟩
    | unsigned index =>
      split
      · -- A plus sign is no digit.
        exact absurd (index.digits '+' List.mem_cons_self) (by decide)
      · exact number.mpr ⟨index, rfl⟩

/-- The text of an index is made of digits and plus signs. -/
theorem IndexText.isDigit_or_eq {text : List Char} {i : Nat} (h : IndexText text i) :
    text ≠ [] ∧ ∀ c ∈ text, c.isDigit = true ∨ c = '+' := by
  cases h with
  | unsigned index => exact ⟨index.nonempty, fun c hc => .inl (index.digits c hc)⟩
  | signed index =>
    refine ⟨List.cons_ne_nil _ _, ?_⟩
    simp only [List.forall_mem_cons, or_true, true_and]
    exact fun c hc => .inl (index.digits c hc)

/-! ### Segments -/

theorem close_iff {step' : Step} :
    (∃ k, close step' offset cs = .ok ⟨step, k, rest⟩) ↔ step' = step ∧ cs = ']' :: rest := by
  unfold close
  split <;> simp_all

/-- What stands between brackets is read exactly if it is an index or a quoted key. -/
theorem bracketed_iff : (∃ k, bracketed offset cs = .ok ⟨step, k, rest⟩) ↔
    Segment ('[' :: cs) step rest := by
  constructor
  · rintro ⟨k, h⟩
    unfold bracketed at h
    split at h
    · next ds =>
      obtain ⟨key, read, closes⟩ := bind_eq_ok h
      obtain ⟨text, body, split⟩ := quotedRest_iff.mp ⟨key.offset, read⟩
      obtain ⟨rfl, closed⟩ := close_iff.mp ⟨k, closes⟩
      rw [split, closed]
      exact .quoted body
    · dsimp only at h
      split at h
      · cases h
      · next i hi =>
        obtain ⟨rfl, closed⟩ := close_iff.mp ⟨k, h⟩
        have split := List.takeWhile_append_dropWhile (p := (· != ']')) (l := cs)
        rw [closed] at split
        rw [← split]
        exact .index (index?_iff.mp hi)
  · intro h
    cases h with
    | @index text _ i h =>
      obtain ⟨nonempty, chars⟩ := h.isDigit_or_eq
      exact ⟨_, bracketed_of_index? (index?_iff.mpr h) nonempty chars offset rest⟩
    | @quoted text key _ body =>
      obtain ⟨k, read⟩ : ∃ k, quotedRest (offset + 1) (text ++ '"' :: ']' :: rest) =
          .ok ⟨key, k, ']' :: rest⟩ := quotedRest_iff.mpr ⟨text, body, rfl⟩
      rw [bracketed_quoted read]
      exact ⟨_, rfl⟩

/-- **A segment is read exactly if the text begins with one.** -/
theorem segment_iff : (∃ k, segment offset cs = .ok ⟨step, k, rest⟩) ↔ Segment cs step rest := by
  unfold segment
  split
  · next cs =>
    rw [word_iff]
    constructor
    · rintro ⟨name, word, stop, rfl, rfl⟩
      exact .word word stop
    · intro h
      cases h with
      | word word stop => exact ⟨_, word, stop, rfl, rfl⟩
  · exact bracketed_iff
  · next point bracket =>
    constructor
    · rintro ⟨k, h⟩
      cases h
    · intro h
      cases h with
      | word => exact absurd rfl (point _)
      | index => exact absurd rfl (bracket _)
      | quoted => exact absurd rfl (bracket _)

/-- A segment begins with a point or a bracket. -/
theorem Segment.exists_cons (h : Segment cs step rest) :
    ∃ c ds, cs = c :: ds ∧ (c = '.' ∨ c = '[') := by
  cases h with
  | word => exact ⟨_, _, rfl, .inl rfl⟩
  | index => exact ⟨_, _, rfl, .inr rfl⟩
  | quoted => exact ⟨_, _, rfl, .inr rfl⟩

theorem Segments.eq_point_or_bracket {c : Char} (h : Segments (c :: cs) path) :
    c = '.' ∨ c = '[' := by
  cases h with
  | cons first _ =>
    obtain ⟨d, ds, split, begins⟩ := first.exists_cons
    rwa [(List.cons.inj split).1]

/-- Reading segments is reading one and then the others. -/
theorem segments_eq_ok_cons_iff :
    segments offset cs = .ok (step :: path) ↔
      ∃ k rest, segment offset cs = .ok ⟨step, k, rest⟩ ∧ segments k rest = .ok path := by
  by_cases nonempty : cs = []
  · subst nonempty
    rw [segments, if_pos rfl]
    simp [segment]
  · cases h : segment offset cs with
    | error e => simp [segments_of_error nonempty h]
    | ok taken =>
      obtain ⟨first, k, rest⟩ := taken
      rw [segments_of_segment nonempty h]
      constructor
      · intro read
        cases others : segments k rest with
        | error e =>
          rw [others] at read
          cases read
        | ok path =>
          rw [others] at read
          cases read
          exact ⟨k, rest, rfl, others⟩
      · rintro ⟨k, rest, same, others⟩
        cases same
        rw [others]
        rfl

theorem segments_eq_ok_nil_iff : segments offset cs = .ok [] ↔ cs = [] := by
  by_cases nonempty : cs = []
  · rw [segments, if_pos nonempty]
    simp [nonempty]
  · cases first : segment offset cs with
    | error e => simp [segments_of_error nonempty first, nonempty]
    | ok taken =>
      rw [segments_of_segment nonempty first]
      cases segments taken.offset taken.rest <;> simp [Except.map, nonempty]

/-- **A text is read as segments exactly if it is made of them.** -/
theorem segments_iff : segments offset cs = .ok path ↔ Segments cs path := by
  induction path generalizing offset cs with
  | nil =>
    rw [segments_eq_ok_nil_iff]
    constructor
    · rintro rfl
      exact .nil
    · intro h
      cases h
      rfl
  | cons step path ih =>
    rw [segments_eq_ok_cons_iff]
    constructor
    · rintro ⟨k, rest, first, others⟩
      exact .cons (segment_iff.mp ⟨k, first⟩) (ih.mp others)
    · intro h
      cases h with
      | cons first others =>
        obtain ⟨k, first⟩ := segment_iff.mpr first
        exact ⟨k, _, first, ih.mpr others⟩

/-! ### Whole paths -/

/-- What a word begins with is a word character, and the whole word if it goes on no further. -/
theorem IsWord.of_append {c : Char} {name ds : List Char} (h : IsWord name)
    (split : c :: ds = name ++ rest) : isWordChar c = true ∧ (EndsWord ds → name = [c]) := by
  obtain ⟨d, name, rfl⟩ := List.exists_cons_of_ne_nil h.nonempty
  obtain ⟨rfl, rfl⟩ := List.cons.inj split
  refine ⟨h.wordChars c List.mem_cons_self, ?_⟩
  intro stop
  cases name with
  | nil => rfl
  | cons d name =>
    have goes : isWordChar d = true := h.wordChars d (List.mem_cons_of_mem c List.mem_cons_self)
    simp [EndsWord, goes] at stop

/-- The empty text has neither a head nor segments. -/
theorem ofChars?_nil_iff : ofChars? [] = .ok path ↔ Written [] path := by
  constructor
  · intro h
    cases h
    exact .mk .none .nil
  · intro h
    generalize given : [] = text at h
    obtain ⟨head, segments⟩ := h
    cases head with
    | none =>
      subst given
      cases segments with
      | nil => rfl
      | cons first _ =>
        obtain ⟨c, ds, split, -⟩ := first.exists_cons
        cases split
    | root => cases given
    | word h => exact absurd (List.append_eq_nil_iff.mp given.symm).1 h.nonempty

/-- A `$` that stands alone leads to the segments behind it. -/
theorem ofChars?_root_iff (stop : EndsWord cs) :
    ofChars? ('$' :: cs) = .ok path ↔ Written ('$' :: cs) path := by
  rw [ofChars?, if_pos ⟨rfl, stop⟩, segments_iff]
  constructor
  · intro h
    exact .mk (.root stop) h
  · intro h
    generalize given : '$' :: cs = text at h
    obtain ⟨head, segments⟩ := h
    cases head with
    | none =>
      subst given
      exact absurd segments.eq_point_or_bracket (by decide)
    | root =>
      cases given
      exact segments
    | word h other => exact absurd ((h.of_append given).2 stop) other

/-- A text that begins as a segment does has no head. -/
theorem ofChars?_segments_iff {c : Char} (begins : c = '.' ∨ c = '[') :
    ofChars? (c :: cs) = .ok path ↔ Written (c :: cs) path := by
  have other : ¬(c = '$' ∧ (cs.head?.any isWordChar) = false) := by
    rintro ⟨rfl, -⟩
    exact absurd begins (by decide)
  rw [ofChars?, if_neg other, if_pos begins, segments_iff]
  constructor
  · intro h
    exact .mk .none h
  · intro h
    generalize given : c :: cs = text at h
    obtain ⟨head, segments⟩ := h
    cases head with
    | none => exact segments
    | root =>
      cases given
      exact absurd begins (by decide)
    | word h =>
      have wordChar := (h.of_append given).1
      rcases begins with rfl | rfl <;> exact absurd wordChar (by decide)

/-- Any other text has a word for a head. -/
theorem ofChars?_word_iff {c : Char} (root : ¬(c = '$' ∧ EndsWord cs))
    (begins : ¬(c = '.' ∨ c = '[')) :
    ofChars? (c :: cs) = .ok path ↔ Written (c :: cs) path := by
  rw [ofChars?, if_neg (show ¬(c = '$' ∧ (cs.head?.any isWordChar) = false) from root),
    if_neg begins]
  constructor
  · intro h
    obtain ⟨⟨step, k, rest⟩, head, h⟩ := bind_eq_ok h
    obtain ⟨others, read, h⟩ := bind_eq_ok h
    cases h
    obtain ⟨name, word, stop, split, rfl⟩ := word_iff.mp ⟨k, head⟩
    have other : name ≠ ['$'] := by
      rintro rfl
      obtain ⟨rfl, rfl⟩ := List.cons.inj split
      exact root ⟨rfl, stop⟩
    rw [split]
    exact .mk (.word word other stop) (segments_iff.mp read)
  · intro h
    generalize given : c :: cs = text at h
    cases h with
    | @mk rest _ others head made =>
      cases head with
      | none =>
        subst given
        exact absurd made.eq_point_or_bracket begins
      | root stop =>
        cases given
        exact absurd ⟨rfl, stop⟩ root
      | @word name _ h _ stop =>
        obtain ⟨k, head⟩ : ∃ k, word 0 (name ++ rest) = .ok ⟨.key (.ofList name), k, rest⟩ :=
          word_iff.mpr ⟨name, h, stop, rfl, rfl⟩
        have read : segments k rest = .ok others := segments_iff.mpr made
        exact bind_eq_ok_iff.mpr ⟨_, head, bind_eq_ok_iff.mpr ⟨_, read, rfl⟩⟩

/-- **A text is read exactly if it is written by the grammar**, and as the path that it is
written for. -/
theorem ofText?_eq_ok_iff_written (text : String) (path : Path) :
    ofText? text = .ok path ↔ Written text.toList path := by
  rw [ofText?]
  cases text.toList with
  | nil => exact ofChars?_nil_iff
  | cons c cs =>
    by_cases root : c = '$' ∧ EndsWord cs
    · obtain ⟨rfl, stop⟩ := root
      exact ofChars?_root_iff stop
    · by_cases begins : c = '.' ∨ c = '['
      · exact ofChars?_segments_iff begins
      · exact ofChars?_word_iff root begins

/-- A `$` that a word goes on behind is a part of the word, and an index may have a sign. -/
example : ofText? "$ref[+07].x" = .ok [.key "$ref", .index 7, .key "x"] := by cbv

end TreeSchema.Path
