import TreeSchema.Proofs.Path.RoundTrip

/-!
# Paths told apart by their texts

What is written of a path can be taken apart again, step by step, even where the reader of paths
gives up. A step begins with a point, a bracket and a quotation mark, or a bracket and a digit.
It ends where its word or its digits end, or with the first quotation mark that no escape has
taken; and the escapes themselves are told apart by what stands behind the backslash.

Each part is shown with whatever may follow it, so that the parts can be put together.

* `Text.hexDigits_inj` — code points are told apart.
* `Path.escape_append_inj`, `Path.quoted_append_inj` — characters and keys.
* `Step.Spelling`, `Path.chars_append_inj`, `Path.flatMap_chars_inj` — steps and runs of steps.
* `Path.text_unambiguous` — **different paths have different texts, and the text of a path is
  read as this path or is refused at an escape.**
-/

namespace TreeSchema

/-! ### Code points -/

namespace Text

theorem hexDigit_inj : ∀ d < 16, ∀ e < 16, hexDigit d = hexDigit e → d = e := by decide

theorem hexDigits_ne_nil (n : Nat) : hexDigits n ≠ [] := by
  rw [hexDigits]
  split <;> simp

/-- **Numbers are told apart by their hexadecimal digits.** -/
theorem hexDigits_inj {m n : Nat} (h : hexDigits m = hexDigits n) : m = n := by
  -- A number of one digit is not one of several.
  have single : ∀ {k l : Nat}, k < 16 → hexDigits l = hexDigits k → l = k := by
    intro k l hk h
    rw [hexDigits.eq_1 k, if_pos hk, hexDigits] at h
    split at h
    · next hl => exact hexDigit_inj l hl k hk (List.singleton_inj.mp h)
    · exact absurd (List.append_eq_singleton_iff.mp h) (by simp [hexDigits_ne_nil])
  induction m using hexDigits.induct generalizing n with
  | case1 m hm => exact (single hm h.symm).symm
  | case2 m hm ih =>
    by_cases hn : n < 16
    · exact single hn h
    · rw [hexDigits.eq_1 m, hexDigits.eq_1 n, if_neg hm, if_neg hn] at h
      obtain ⟨front, last⟩ := List.append_inj' h rfl
      have quotient := ih front
      have remainder := hexDigit_inj _ (Nat.mod_lt m (by decide)) _ (Nat.mod_lt n (by decide))
        (List.singleton_inj.mp last)
      omega

theorem ne_brace_of_mem_hexDigits {n : Nat} {c : Char} (h : c ∈ hexDigits n) : c ≠ '}' := by
  have digit : ∀ d < 16, hexDigit d ≠ '}' := by decide
  induction n using hexDigits.induct with
  | case1 n hn =>
    rw [hexDigits, if_pos hn, List.mem_singleton] at h
    exact h ▸ digit n hn
  | case2 n hn ih =>
    rw [hexDigits, if_neg hn, List.mem_append, List.mem_singleton] at h
    rcases h with h | rfl
    · exact ih h
    · exact digit _ (Nat.mod_lt n (by decide))

end Text

namespace Path

open Text (escape hexDigits)

variable {xs ys cs ds : List Char}

/-- Two runs of characters of one class that end behind the same text are the same. -/
theorem append_inj_of_runs {p : Char → Bool} (hcs : ∀ c ∈ cs, p c = true)
    (hds : ∀ d ∈ ds, p d = true) (hxs : xs.head?.any p = false) (hys : ys.head?.any p = false)
    (h : cs ++ xs = ds ++ ys) : cs = ds ∧ xs = ys := by
  obtain ⟨taken, dropped⟩ := takeWhile_append_of_all hcs hxs
  obtain ⟨taken', dropped'⟩ := takeWhile_append_of_all hds hys
  rw [h] at taken dropped
  exact ⟨taken.symm.trans taken', dropped.symm.trans dropped'⟩

/-! ### Quoted keys -/

theorem hexDigits_append_inj {m n : Nat}
    (h : hexDigits m ++ '}' :: xs = hexDigits n ++ '}' :: ys) : m = n ∧ xs = ys := by
  have inside : ∀ {k : Nat}, ∀ c ∈ hexDigits k, (c != '}') = true :=
    fun c hc => bne_iff_ne.mpr (Text.ne_brace_of_mem_hexDigits hc)
  obtain ⟨digits, rest⟩ := append_inj_of_runs inside inside rfl rfl h
  exact ⟨Text.hexDigits_inj digits, (List.cons.inj rest).2⟩

/-- **Characters between quotation marks are told apart**, whatever follows them. -/
theorem escape_append_inj {c d : Char} (h : escape '"' c ++ xs = escape '"' d ++ ys) :
    c = d ∧ xs = ys := by
  have first := escaped_escape c
  have second := escaped_escape d
  generalize escape '"' c = cs at h first
  generalize escape '"' d = ds at h second
  -- The backslash sets escapes apart from other characters, and no pair begins as a code point.
  have coded : ∀ {e : Char}, Path.unescape? 'u' = some e → False := nofun
  cases first with
  | plain quote backslash =>
    cases second with
    | plain => exact List.cons.inj h
    | pair => exact absurd (List.cons.inj h).1 backslash
    | coded => exact absurd (List.cons.inj h).1 backslash
  | pair known =>
    cases second with
    | plain quote backslash => exact absurd (List.cons.inj h).1.symm backslash
    | pair known' =>
      obtain ⟨rfl, rest⟩ := List.cons.inj (List.cons.inj h).2
      exact ⟨Option.some.inj (known.symm.trans known'), rest⟩
    | coded =>
      obtain ⟨rfl, -⟩ := List.cons.inj (List.cons.inj h).2
      exact (coded known).elim
  | coded =>
    cases second with
    | plain quote backslash => exact absurd (List.cons.inj h).1.symm backslash
    | pair known =>
      obtain ⟨rfl, -⟩ := List.cons.inj (List.cons.inj h).2
      exact (coded known).elim
    | coded =>
      simp only [List.cons_append, List.append_assoc, List.nil_append, List.cons.injEq,
        true_and] at h
      obtain ⟨number, rest⟩ := hexDigits_append_inj h
      exact ⟨Char.toNat_inj.mp number, rest⟩

/-- No character begins with the closing quotation mark. -/
theorem escape_append_ne_quote (c : Char) : escape '"' c ++ xs ≠ '"' :: ys := by
  have escaped := escaped_escape c
  generalize escape '"' c = cs at escaped
  intro h
  cases escaped with
  | plain quote => exact quote (List.cons.inj h).1
  | pair => exact absurd (List.cons.inj h).1 (by decide)
  | coded => exact absurd (List.cons.inj h).1 (by decide)

/-- **Quoted keys are told apart**, whatever follows the closing mark. -/
theorem quoted_append_inj
    (h : cs.flatMap (escape '"') ++ '"' :: xs = ds.flatMap (escape '"') ++ '"' :: ys) :
    cs = ds ∧ xs = ys := by
  induction cs generalizing ds with
  | nil =>
    cases ds with
    | nil => exact ⟨rfl, (List.cons.inj h).2⟩
    | cons d ds =>
      rw [List.flatMap_cons, List.append_assoc] at h
      exact absurd h.symm (escape_append_ne_quote d)
  | cons c cs ih =>
    rw [List.flatMap_cons, List.append_assoc] at h
    cases ds with
    | nil => exact absurd h (escape_append_ne_quote c)
    | cons d ds =>
      rw [List.flatMap_cons, List.append_assoc] at h
      obtain ⟨rfl, later⟩ := escape_append_inj h
      obtain ⟨rfl, rest⟩ := ih later
      exact ⟨rfl, rest⟩

/-! ### Steps -/

theorem digits_append_inj {i j : Nat}
    (h : Numeral.digits i ++ ']' :: xs = Numeral.digits j ++ ']' :: ys) : i = j ∧ xs = ys := by
  have digit : ∀ {k : Nat}, ∀ c ∈ Numeral.digits k, c.isDigit = true :=
    fun c hc => Numeral.isDigit_of_mem_digits hc
  obtain ⟨digits, rest⟩ := append_inj_of_runs digit digit rfl rfl h
  have number : Numeral.value (Numeral.digits i) = Numeral.value (Numeral.digits j) :=
    congrArg Numeral.value digits
  rw [Numeral.value_digits, Numeral.value_digits] at number
  exact ⟨number, (List.cons.inj rest).2⟩

/-- An index begins with a digit, not with a quotation mark. -/
theorem digits_append_ne_quote (i : Nat) : Numeral.digits i ++ xs ≠ '"' :: ys := by
  obtain ⟨c, cs, hc⟩ := List.exists_cons_of_ne_nil (Numeral.digits_ne_nil i)
  have digit : c.isDigit = true :=
    Numeral.isDigit_of_mem_digits (n := i) (by rw [hc]; exact List.mem_cons_self)
  intro h
  rw [hc] at h
  obtain ⟨rfl, -⟩ := List.cons.inj h
  exact absurd digit (by decide)

theorem identifier_append_inj {name other : String} (hn : isIdentifier name = true)
    (ho : isIdentifier other = true) (hxs : EndsWord xs) (hys : EndsWord ys)
    (h : name.toList ++ xs = other.toList ++ ys) : name = other ∧ xs = ys := by
  obtain ⟨word, rest⟩ := append_inj_of_runs (isWordChar_of_isIdentifier hn).2
    (isWordChar_of_isIdentifier ho).2 hxs hys h
  exact ⟨String.toList_inj.mp word, rest⟩

end Path

/-- The three ways in which a step is written before another text. -/
inductive Step.Spelling : Step → List Char → List Char → Prop
  | word {name : String} {rest : List Char} (h : Path.isIdentifier name = true) :
      Spelling (.key name) rest ('.' :: (name.toList ++ rest))
  | quoted {name : String} {rest : List Char} :
      Spelling (.key name) rest
        ('[' :: '"' :: (name.toList.flatMap (Text.escape '"') ++ '"' :: ']' :: rest))
  | index {i : Nat} {rest : List Char} :
      Spelling (.index i) rest ('[' :: (Numeral.digits i ++ ']' :: rest))

theorem Step.spelling_chars (step : Step) (rest : List Char) :
    step.Spelling rest (step.chars ++ rest) := by
  cases step with
  | key name =>
    cases hi : Path.isIdentifier name with
    | true =>
      rw [Path.chars_identifier hi]
      exact .word hi
    | false =>
      rw [Path.chars_quoted hi]
      exact .quoted
  | index i =>
    rw [Path.chars_index]
    exact .index

namespace Path

/-- **Steps are told apart**, whatever follows that ends a word. -/
theorem chars_append_inj {step other : Step} (hxs : EndsWord xs) (hys : EndsWord ys)
    (h : step.chars ++ xs = other.chars ++ ys) : step = other ∧ xs = ys := by
  have first := step.spelling_chars xs
  have second := other.spelling_chars ys
  generalize step.chars ++ xs = cs at h first
  generalize other.chars ++ ys = ds at h second
  cases first with
  | word hn =>
    cases second with
    | word ho =>
      obtain ⟨rfl, rest⟩ := identifier_append_inj hn ho hxs hys (List.cons.inj h).2
      exact ⟨rfl, rest⟩
    | quoted => exact absurd (List.cons.inj h).1 (by decide)
    | index => exact absurd (List.cons.inj h).1 (by decide)
  | quoted =>
    cases second with
    | word => exact absurd (List.cons.inj h).1 (by decide)
    | quoted =>
      obtain ⟨key, rest⟩ := quoted_append_inj (List.cons.inj (List.cons.inj h).2).2
      exact ⟨congrArg Step.key (String.toList_inj.mp key), (List.cons.inj rest).2⟩
    | @index i => exact absurd (List.cons.inj h).2.symm (digits_append_ne_quote i)
  | @index i =>
    cases second with
    | word => exact absurd (List.cons.inj h).1 (by decide)
    | quoted => exact absurd (List.cons.inj h).2 (digits_append_ne_quote i)
    | index =>
      obtain ⟨rfl, rest⟩ := digits_append_inj (List.cons.inj h).2
      exact ⟨rfl, rest⟩

/-! ### Whole paths -/

/-- **Runs of steps are told apart.** -/
theorem flatMap_chars_inj {path other : Path}
    (h : path.flatMap Step.chars = other.flatMap Step.chars) : path = other := by
  induction path generalizing other with
  | nil =>
    cases other with
    | nil => rfl
    | cons step other => exact absurd h.symm (chars_ne_nil step _)
  | cons step path ih =>
    cases other with
    | nil => exact absurd h (chars_ne_nil step _)
    | cons step' other =>
      rw [List.flatMap_cons, List.flatMap_cons] at h
      obtain ⟨rfl, later⟩ :=
        chars_append_inj (endsWord_flatMap_chars path) (endsWord_flatMap_chars other) h
      rw [ih later]

theorem text_inj {path other : Path} (h : path.text = other.text) : path = other :=
  flatMap_chars_inj (List.cons.inj (String.ofList_inj.mp h)).2

/-- The text of a path is read as the path, or refused at an escape. -/
theorem ofText?_text_eq_or {path : Path} (range : ∀ step ∈ path, step.InRange) :
    ofText? path.text = .ok path ∨ ∃ k, ofText? path.text = .error (.invalidEscape k) := by
  rw [ofText?_text_eq_segments]
  by_cases plain : ∀ step ∈ path, step.Plain
  · exact .inl (segments_chars plain range 1)
  · refine .inr (segments_chars_of_not_plain ?_ range 1)
    simpa using plain

/-- **Paths are never confused by their texts**: different paths have different ones, and what
is read of the text of a path is this path, if it is not refused at an escape. -/
theorem text_unambiguous :
    (∀ path other : Path, path ≠ other → path.text ≠ other.text) ∧
      ∀ path : Path, (∀ step ∈ path, step.InRange) →
        ofText? path.text = .ok path ∨
          ∃ offset, ofText? path.text = .error (.invalidEscape offset) := by
  constructor
  · intro path other different same
    exact different (text_inj same)
  · intro path range
    exact ofText?_text_eq_or range

/-- A control character, and the key that spells out how it is written. -/
theorem text_unambiguous_control :
    [Step.key "\x01"] ≠ [.key "\\u\x7b1\x7d"] ∧
      text [.key "\x01"] ≠ text [.key "\\u\x7b1\x7d"] ∧
      (∀ step ∈ [Step.key "\\u\x7b1\x7d", .index 0, .key "0"], step.InRange) ∧
      (ofText? (text [.key "\\u\x7b1\x7d", .index 0, .key "0"]) =
          .ok [.key "\\u\x7b1\x7d", .index 0, .key "0"] ∨
        ∃ offset, ofText? (text [.key "\\u\x7b1\x7d", .index 0, .key "0"]) =
          .error (.invalidEscape offset)) := by
  have different : [Step.key "\x01"] ≠ [.key "\\u\x7b1\x7d"] := by decide
  have range : ∀ step ∈ [Step.key "\\u\x7b1\x7d", .index 0, .key "0"], step.InRange := by decide
  exact ⟨different, text_unambiguous.1 _ _ different, range, text_unambiguous.2 _ range⟩

end Path

end TreeSchema
