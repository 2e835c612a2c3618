import TreeSchema.Proofs.Path.Grammar

/-!
# Where reading a path goes wrong

Reading takes one segment after the other, and what it has taken is again a text that is read.
So an error is always one of the first segment that is not there, and its place is counted from
what stands before: the wrong character, the text between brackets that is no index, the escape
that is not known. A text that ends too early is the beginning of one that is read, as every
segment that has been begun can be completed.

* `Path.Taken.Consumes` — the offset counts the bytes of what has been read.
* `Path.Fault`, `Path.fault_of_segment` — what is wrong where a segment should stand.
* `Path.Segments.append`, `Path.exists_fault_of_segments` — runs of segments.
* `Path.Resumes`, `Path.exists_fault_of_ofChars?` — whole texts, with their heads.
* `Path.ofText?_errors_located` — **every error is where it says, and what it says.**
-/

namespace TreeSchema.Path

variable {cs ds before rest : List Char} {offset : Nat} {step : Step} {path steps : Path}
  {e : PathError}

/-! ### What has been read -/

/-- The bytes of a text are counted in its encoding. -/
theorem byteCount_eq_size (cs : List Char) : byteCount cs = cs.utf8Encode.size := by
  induction cs with
  | nil => rfl
  | cons c cs ih =>
    have first : [c].utf8Encode.size = c.utf8Size := String.utf8ByteSize_singleton
    rw [List.utf8Encode_cons, ByteArray.size_append, first, ← ih]
    rfl

/-- What is read stands before the rest, and the offset moves by its bytes. -/
def Taken.Consumes {α : Type} (taken : Taken α) (offset : Nat) (cs : List Char) : Prop :=
  ∃ front, cs = front ++ taken.rest ∧ taken.offset = offset + byteCount front

namespace Taken.Consumes

variable {α β : Type} {taken : Taken α} {next : Taken β}

theorem trans (first : taken.Consumes offset cs) (second : next.Consumes taken.offset taken.rest) :
    next.Consumes offset cs := by
  obtain ⟨front, rfl, moved⟩ := first
  obtain ⟨middle, split, moved'⟩ := second
  refine ⟨front ++ middle, by rw [split, List.append_assoc], ?_⟩
  rw [moved', moved, byteCount_append, Nat.add_assoc]

/-- What is read behind some characters is read with them. -/
theorem behind (front : List Char) (h : taken.Consumes (offset + byteCount front) cs) :
    taken.Consumes offset (front ++ cs) := by
  obtain ⟨middle, rfl, moved⟩ := h
  refine ⟨front ++ middle, (List.append_assoc ..).symm, ?_⟩
  rw [moved, byteCount_append, Nat.add_assoc]

end Taken.Consumes

theorem consumes_of_word {taken : Taken Step} (h : word offset cs = .ok taken) :
    taken.Consumes offset cs := by
  rw [word] at h
  split at h
  · cases h
  · cases h
    exact ⟨_, List.takeWhile_append_dropWhile.symm, rfl⟩

theorem consumes_of_quotedRest {taken : Taken (List Char)} (h : quotedRest offset cs = .ok taken) :
    taken.Consumes offset cs := by
  fun_induction quotedRest offset cs generalizing taken with
  | case1 => cases h
  | case2 offset cs =>
    cases h
    exact ⟨['"'], rfl, rfl⟩
  | case3 => cases h
  | case4 => cases h
  | case5 offset c cs d known ih =>
    obtain ⟨inner, read, h⟩ := bind_eq_ok h
    cases h
    obtain ⟨front, split, moved⟩ := ih read
    refine ⟨'\\' :: c :: front, by rw [split]; rfl, ?_⟩
    have backslash : Char.utf8Size '\\' = 1 := rfl
    simp only [moved, byteCount, total_cons, backslash]
    omega
  | case6 offset c cs _ _ _ ih =>
    obtain ⟨inner, read, h⟩ := bind_eq_ok h
    cases h
    obtain ⟨front, split, moved⟩ := ih read
    refine ⟨c :: front, by rw [split]; rfl, ?_⟩
    simp only [moved, byteCount, total_cons]
    omega

theorem consumes_of_close {taken : Taken Step} (h : close step offset cs = .ok taken) :
    taken.Consumes offset cs := by
  unfold close at h
  split at h
  · cases h
    exact ⟨[']'], rfl, rfl⟩
  · cases h

theorem consumes_of_bracketed {taken : Taken Step} (h : bracketed offset cs = .ok taken) :
    taken.Consumes offset cs := by
  unfold bracketed at h
  split at h
  · next ds =>
    obtain ⟨key, read, closes⟩ := bind_eq_ok h
    have key := (consumes_of_quotedRest read).trans (consumes_of_close closes)
    exact key.behind ['"']
  · dsimp only at h
    split at h
    · cases h
    · have text : cs = cs.takeWhile (· != ']') ++ cs.dropWhile (· != ']') :=
        List.takeWhile_append_dropWhile.symm
      have closes := consumes_of_close h
      rw [text]
      exact closes.behind _

theorem consumes_of_segment {taken : Taken Step} (h : segment offset cs = .ok taken) :
    taken.Consumes offset cs := by
  unfold segment at h
  split at h
  · exact (consumes_of_word h).behind ['.']
  · exact (consumes_of_bracketed h).behind ['[']
  · cases h

/-! ### Segments in another text -/

theorem EndsWord.of_append (h : EndsWord (cs ++ ds)) : EndsWord cs := by
  cases cs with
  | nil => rfl
  | cons c cs => exact h

theorem Segments.endsWord (h : Segments cs path) : EndsWord cs := by
  cases cs with
  | nil => rfl
  | cons c cs =>
    rcases h.eq_point_or_bracket with rfl | rfl
    · rfl
    · rfl

/-- A segment is one before any text that ends a word. -/
theorem Segment.exists_front (h : Segment cs step rest) :
    ∃ front, cs = front ++ rest ∧ ∀ ds, EndsWord ds → Segment (front ++ ds) step ds := by
  cases h with
  | @word name _ h stop => exact ⟨'.' :: name, rfl, fun ds stop => .word h stop⟩
  | @index text _ i h =>
    refine ⟨'[' :: (text ++ [']']), by simp, fun ds _ => ?_⟩
    have segment : Segment ('[' :: (text ++ ']' :: ds)) (.index i) ds := .index h
    simpa using segment
  | @quoted text key _ h =>
    refine ⟨'[' :: '"' :: (text ++ ['"', ']']), by simp, fun ds _ => ?_⟩
    have segment : Segment ('[' :: '"' :: (text ++ '"' :: ']' :: ds)) (.key (.ofList key)) ds :=
      .quoted h
    simpa using segment

theorem Segments.append (h : Segments cs path) (later : Segments ds steps) :
    Segments (cs ++ ds) (path ++ steps) := by
  induction h with
  | nil => exact later
  | cons first others ih =>
    obtain ⟨front, rfl, anywhere⟩ := first.exists_front
    rw [List.append_assoc]
    exact .cons (anywhere _ ih.endsWord) ih

/-! ### What is wrong with a segment -/

/-- What is wrong with a text that follows another and should begin with a segment. -/
inductive Fault (before cs : List Char) : PathError → Prop
  | unexpectedChar {front after : List Char} {found : Char} (split : cs = front ++ found :: after) :
      Fault before cs (.unexpectedChar (byteCount (before ++ front)) found)
  | unexpectedEnd {more : List Char} {step : Step} (nonempty : more ≠ [])
      (segment : Segment (cs ++ more) step []) : Fault before cs .unexpectedEnd
  | invalidIndex {text after : List Char} (split : cs = '[' :: (text ++ after))
      (inside : ']' ∉ text) (stop : ∀ c ∈ after.head?, c = ']') (none : ∀ i, ¬IndexText text i) :
      Fault before cs (.invalidIndex (.ofList text))
  | invalidEscape {body key after : List Char} {c : Char}
      (split : cs = '[' :: '"' :: (body ++ '\\' :: c :: after)) (inside : Body body key)
      (unknown : ∀ d, (c, d) ∉ escapes) :
      Fault before cs (.invalidEscape (byteCount (before ++ '[' :: '"' :: body)))

/-- A wrong character, or none where more would complete the segment. -/
theorem fault_unexpected (front more : List Char) (split : cs = front ++ rest)
    (moved : offset = byteCount (before ++ front)) (nonempty : more ≠ [])
    (completed : rest = [] → ∃ step, Segment (cs ++ more) step []) :
    Fault before cs (unexpected offset rest) := by
  subst moved
  cases rest with
  | nil =>
    obtain ⟨step, segment⟩ := completed rfl
    exact .unexpectedEnd nonempty segment
  | cons c rest => exact .unexpectedChar split

theorem eq_unexpected_of_word (h : word offset cs = .error e) : e = unexpected offset cs := by
  rw [word] at h
  split at h
  · exact (Except.error.inj h).symm
  · cases h

theorem eq_unexpected_of_close (h : close step offset cs = .error e) :
    e = unexpected offset cs := by
  unfold close at h
  split at h
  · cases h
  · exact (Except.error.inj h).symm

/-- **A key is not read to its end** if the text ends before, or at an escape that is not known. -/
theorem of_quotedRest_eq_error (h : quotedRest offset cs = .error e) :
    (e = .unexpectedEnd ∧ ∃ more key, Body (cs ++ more) key) ∨
      ∃ body key c after, cs = body ++ '\\' :: c :: after ∧ Body body key ∧
        unescape? c = none ∧ e = .invalidEscape (offset + byteCount body) := by
  fun_induction quotedRest offset cs with
  | case1 =>
    cases h
    exact .inl ⟨rfl, [], [], .nil⟩
  | case2 => cases h
  | case3 =>
    cases h
    have known : ('n', '\n') ∈ escapes := by decide
    exact .inl ⟨rfl, ['n'], ['\n'], .escape known .nil⟩
  | case4 offset c cs unknown =>
    cases h
    exact .inr ⟨[], [], c, cs, rfl, .nil, unknown, rfl⟩
  | case5 offset c cs d known ih =>
    have escape := unescape?_eq_some_iff.mp known
    rcases ih (eq_error_of_bind_ok h) with
      ⟨rfl, more, key, body⟩ | ⟨body, key, c', after, rfl, inside, unknown, rfl⟩
    · exact .inl ⟨rfl, more, d :: key, .escape escape body⟩
    · refine .inr ⟨'\\' :: c :: body, d :: key, c', after, rfl, .escape escape inside, unknown, ?_⟩
      have backslash : Char.utf8Size '\\' = 1 := rfl
      simp only [byteCount, total_cons, backslash, Nat.add_assoc]
  | case6 offset c cs quote alone pair ih =>
    have backslash : c ≠ '\\' := by
      intro hc
      cases cs with
      | nil => exact alone hc rfl
      | cons d cs => exact pair _ _ hc rfl
    rcases ih (eq_error_of_bind_ok h) with
      ⟨rfl, more, key, body⟩ | ⟨body, key, c', after, rfl, inside, unknown, rfl⟩
    · exact .inl ⟨rfl, more, c :: key, .plain quote backslash body⟩
    · refine .inr ⟨c :: body, c :: key, c', after, rfl, .plain quote backslash inside, unknown, ?_⟩
      simp only [byteCount, total_cons, Nat.add_assoc]

/-- A quoted key that is not read, or not closed by a bracket. -/
theorem fault_of_quoted
    (h : bracketed (byteCount before + 1) ('"' :: cs) = .error e) :
    Fault before ('[' :: '"' :: cs) e := by
  have moved : ∀ front, byteCount (before ++ '[' :: '"' :: front) =
      byteCount before + 1 + 1 + byteCount front := by
    intro front
    rw [byteCount_append, byteCount_cons_ascii rfl, byteCount_cons_ascii rfl]
    omega
  rw [bracketed] at h
  rcases bind_eq_error h with h | ⟨key, read, closes⟩
  · rcases of_quotedRest_eq_error h with
      ⟨rfl, more, key, body⟩ | ⟨body, key, c, after, rfl, inside, unknown, rfl⟩
    · have segment : Segment ('[' :: '"' :: (cs ++ more ++ ['"', ']'])) (.key (.ofList key)) [] :=
        .quoted body
      rw [List.append_assoc] at segment
      exact .unexpectedEnd (by simp) segment
    · rw [← moved]
      refine .invalidEscape rfl inside fun d hd => ?_
      rw [← unescape?_eq_some_iff, unknown] at hd
      cases hd
  · obtain ⟨text, body, rfl⟩ := quotedRest_iff.mp ⟨key.offset, read⟩
    obtain ⟨front, split, offset⟩ := consumes_of_quotedRest read
    rw [eq_unexpected_of_close closes]
    refine fault_unexpected ('[' :: '"' :: front) [']'] (by rw [split]; rfl)
      (offset.trans (moved front).symm) (by simp) ?_
    intro ended
    have segment : Segment ('[' :: '"' :: (text ++ ['"', ']'])) (.key (.ofList key.part)) [] :=
      .quoted body
    rw [ended]
    exact ⟨_, by simpa using segment⟩

/-- What stands between brackets is no index, or is not closed. -/
theorem fault_of_index (unquoted : ∀ ds, cs = '"' :: ds → False)
    (h : bracketed (byteCount before + 1) cs = .error e) : Fault before ('[' :: cs) e := by
  have split : cs = cs.takeWhile (· != ']') ++ cs.dropWhile (· != ']') :=
    List.takeWhile_append_dropWhile.symm
  rw [bracketed] at h
  · split at h
    · next none =>
      cases h
      refine .invalidIndex (congrArg ('[' :: ·) split) ?_ ?_ ?_
      · intro inside
        have := List.all_eq_true.mp List.all_takeWhile _ inside
        simp at this
      · intro c hc
        have stop := List.head?_dropWhile_not (· != ']') cs
        rw [Option.mem_def.mp hc] at stop
        simpa using stop
      · intro i hi
        rw [index?_iff.mpr hi] at none
        cases none
    · next i hi =>
      rw [eq_unexpected_of_close h]
      refine fault_unexpected ('[' :: cs.takeWhile (· != ']')) [']']
        (congrArg ('[' :: ·) split) ?_ (by simp) ?_
      · rw [byteCount_append, byteCount_cons_ascii rfl, Nat.add_assoc]
      · intro ended
        rw [ended, List.append_nil] at split
        rw [← split] at hi
        exact ⟨_, .index (index?_iff.mp hi)⟩
  · exact unquoted

/-- **A segment is refused for one of the faults.** -/
theorem fault_of_segment (h : segment (byteCount before) cs = .error e) : Fault before cs e := by
  have name : IsWord ['a'] := ⟨List.cons_ne_nil _ _, List.forall_mem_singleton.mpr rfl⟩
  unfold segment at h
  split at h
  · next cs =>
    rw [eq_unexpected_of_word h]
    refine fault_unexpected ['.'] ['a'] rfl (byteCount_append before ['.']).symm (by simp) ?_
    rintro rfl
    exact ⟨_, .word name rfl⟩
  · next cs =>
    by_cases quoted : ∃ ds, cs = '"' :: ds
    · obtain ⟨ds, rfl⟩ := quoted
      exact fault_of_quoted h
    · exact fault_of_index (fun ds hds => quoted ⟨ds, hds⟩) h
  · obtain rfl := Except.error.inj h
    refine fault_unexpected [] ['.', 'a'] rfl (by rw [List.append_nil]) (by simp) ?_
    rintro rfl
    exact ⟨_, .word name rfl⟩

/-! ### Runs of segments -/

/-- A segment that is read is one before any text that ends a word, and its bytes are counted. -/
theorem exists_front_of_segment {taken : Taken Step} (h : segment offset cs = .ok taken) :
    ∃ front, cs = front ++ taken.rest ∧ taken.offset = offset + byteCount front ∧
      ∀ ds, EndsWord ds → Segment (front ++ ds) taken.part ds := by
  obtain ⟨front, rfl, moved⟩ := consumes_of_segment h
  obtain ⟨front', split, anywhere⟩ := (segment_iff.mp ⟨taken.offset, h⟩).exists_front
  obtain rfl := List.append_cancel_right split
  exact ⟨front, rfl, moved, anywhere⟩

/-- **A run of segments is refused for a fault behind segments.** -/
theorem exists_fault_of_segments {before cs : List Char}
    (h : segments (byteCount before) cs = .error e) :
    ∃ front steps rest, cs = front ++ rest ∧ Segments front steps ∧
      Fault (before ++ front) rest e := by
  by_cases nonempty : cs = []
  · rw [segments, if_pos nonempty] at h
    cases h
  · cases first : segment (byteCount before) cs with
    | error e' =>
      rw [segments_of_error nonempty first] at h
      cases h
      exact ⟨[], [], cs, rfl, .nil, by rw [List.append_nil]; exact fault_of_segment first⟩
    | ok taken =>
      have shorter := segment_rest_lt first
      obtain ⟨front, split, moved, anywhere⟩ := exists_front_of_segment first
      have later : segments (byteCount (before ++ front)) taken.rest = .error e := by
        rw [byteCount_append, ← moved]
        rw [segments_of_segment nonempty first] at h
        cases others : segments taken.offset taken.rest with
        | error e' => rw [others] at h; exact h
        | ok steps => rw [others] at h; cases h
      obtain ⟨middle, steps, rest, split', made, fault⟩ := exists_fault_of_segments later
      refine ⟨front ++ middle, taken.part :: steps, rest, ?_, .cons ?_ made, ?_⟩
      · rw [split, split', List.append_assoc]
      · exact anywhere middle made.endsWord
      · rwa [← List.append_assoc]
termination_by cs.length

/-! ### Whole paths -/

/-- Reading goes on behind the text, which stands for the path, with whatever segments follow. -/
def Resumes (before : List Char) (path : Path) : Prop :=
  ∀ cs steps, Segments cs steps → ofChars? (before ++ cs) = .ok (path ++ steps)

theorem resumes_segments (h : Segments before path) : Resumes before path := by
  intro cs steps later
  have made := h.append later
  generalize before ++ cs = text at made ⊢
  generalize path ++ steps = whole at made ⊢
  cases text with
  | nil => exact ofChars?_nil_iff.mpr (.mk .none made)
  | cons c text => exact (ofChars?_segments_iff made.eq_point_or_bracket).mpr (.mk .none made)

theorem resumes_root (h : Segments before path) : Resumes ('$' :: before) path := by
  intro cs steps later
  have made := h.append later
  rw [List.cons_append]
  generalize path ++ steps = whole at made ⊢
  exact (ofChars?_root_iff made.endsWord).mpr (.mk (.root made.endsWord) made)

theorem resumes_word {name : List Char} (word : IsWord name) (other : name ≠ ['$'])
    (h : Segments before path) : Resumes (name ++ before) (.key (.ofList name) :: path) := by
  intro cs steps later
  have made := h.append later
  have written : Written (name ++ (before ++ cs)) (.key (.ofList name) :: (path ++ steps)) :=
    .mk (.word word other made.endsWord) made
  rw [List.append_assoc]
  obtain ⟨c, name, rfl⟩ := List.exists_cons_of_ne_nil word.nonempty
  obtain ⟨wordChar, alone⟩ := word.of_append rfl
  refine (ofChars?_word_iff ?_ ?_).mpr written
  · rintro ⟨rfl, stop⟩
    exact other (alone stop)
  · rintro (rfl | rfl) <;> exact absurd wordChar (by decide)

theorem Resumes.ofChars? (h : Resumes before path) : Path.ofChars? before = .ok path := by
  have read := h [] [] .nil
  rwa [List.append_nil, List.append_nil] at read

/-- **A text is refused for a fault behind a text that is read.** -/
theorem exists_fault_of_ofChars? {text : List Char} (h : ofChars? text = .error e) :
    ∃ before cs path, text = before ++ cs ∧ Resumes before path ∧ Fault before cs e := by
  cases text with
  | nil => cases h
  | cons c text =>
    by_cases root : c = '$' ∧ EndsWord text
    · obtain ⟨rfl, stop⟩ := root
      rw [ofChars?, if_pos ⟨rfl, stop⟩] at h
      have h : segments (byteCount ['$']) text = .error e := h
      obtain ⟨front, steps, rest, rfl, made, fault⟩ := exists_fault_of_segments h
      exact ⟨'$' :: front, rest, steps, rfl, resumes_root made, fault⟩
    · rw [ofChars?, if_neg (show ¬(c = '$' ∧ (text.head?.any isWordChar) = false) from root)] at h
      split at h
      · have h : segments (byteCount []) (c :: text) = .error e := h
        obtain ⟨front, steps, rest, split, made, fault⟩ := exists_fault_of_segments h
        exact ⟨front, rest, steps, split, resumes_segments made, fault⟩
      · rcases bind_eq_error h with h | ⟨⟨step, k, rest⟩, read, h⟩
        · obtain rfl := eq_unexpected_of_word h
          have fault : Fault [] (c :: text) (.unexpectedChar (byteCount ([] ++ [])) c) :=
            .unexpectedChar rfl
          exact ⟨[], c :: text, [], rfl, resumes_segments .nil, fault⟩
        · obtain ⟨name, word, stop, split, rfl⟩ := word_iff.mp ⟨k, read⟩
          obtain ⟨front, split', moved⟩ := consumes_of_word read
          obtain rfl : name = front := List.append_cancel_right (split.symm.trans split')
          have h : segments (byteCount name) rest = .error e := by
            rw [Nat.zero_add] at moved
            rw [← moved]
            exact eq_error_of_bind_ok h
          obtain ⟨front, steps, rest', rfl, made, fault⟩ := exists_fault_of_segments h
          have other : name ≠ ['$'] := by
            rintro rfl
            obtain ⟨rfl, rfl⟩ := List.cons.inj split
            exact root ⟨rfl, stop⟩
          refine ⟨name ++ front, rest', .key (.ofList name) :: steps, ?_,
            resumes_word word other made, fault⟩
          rw [split, List.append_assoc]

/-- **Errors tell where reading went wrong.** A wrong character is at its offset. An unknown
escape is at its offset, in a quoted key behind a text that is read. What is refused as an index
is the text behind a bracket, up to the next closing one or the end, and no index. And if the
text has ended too early, it can be completed to one that is read. -/
theorem ofText?_errors_located (text : String) :
    (∀ offset found, ofText? text = .error (.unexpectedChar offset found) →
      ∃ before after, text.toList = before ++ found :: after ∧
        offset = before.utf8Encode.size) ∧
    (∀ offset, ofText? text = .error (.invalidEscape offset) →
      ∃ before path body key c after, ofChars? before = .ok path ∧ Body body key ∧
        (∀ d, (c, d) ∉ escapes) ∧
        text.toList = before ++ '[' :: '"' :: (body ++ '\\' :: c :: after) ∧
        offset = (before ++ '[' :: '"' :: body).utf8Encode.size) ∧
    (∀ index, ofText? text = .error (.invalidIndex index) →
      ∃ before path after, ofChars? before = .ok path ∧
        text.toList = before ++ '[' :: (index.toList ++ after) ∧ ']' ∉ index.toList ∧
        (∀ c ∈ after.head?, c = ']') ∧ ∀ i, ¬IndexText index.toList i) ∧
    (ofText? text = .error .unexpectedEnd →
      ∃ more path, more ≠ "" ∧ ofText? (text ++ more) = .ok path) := by
  refine ⟨?_, ?_, ?_, ?_⟩
  · intro offset found h
    obtain ⟨before, cs, path, split, -, fault⟩ := exists_fault_of_ofChars? h
    cases fault with
    | @unexpectedChar front after _ split' =>
      exact ⟨before ++ front, after, by rw [split, split', List.append_assoc],
        byteCount_eq_size _⟩
  · intro offset h
    obtain ⟨before, cs, path, split, resumes, fault⟩ := exists_fault_of_ofChars? h
    cases fault with
    | @invalidEscape body key after c split' inside unknown =>
      exact ⟨before, path, body, key, c, after, resumes.ofChars?, inside, unknown,
        by rw [split, split'], byteCount_eq_size _⟩
  · intro index h
    obtain ⟨before, cs, path, split, resumes, fault⟩ := exists_fault_of_ofChars? h
    cases fault with
    | @invalidIndex text after split' inside stop none =>
      rw [String.toList_ofList]
      exact ⟨before, path, after, resumes.ofChars?, by rw [split, split'], inside, stop, none⟩
  · intro h
    obtain ⟨before, cs, path, split, resumes, fault⟩ := exists_fault_of_ofChars? h
    cases fault with
    | @unexpectedEnd more step nonempty segment =>
      refine ⟨.ofList more, path ++ [step], ?_, ?_⟩
      · simpa using nonempty
      · rw [ofText?, String.toList_append, String.toList_ofList, split, List.append_assoc]
        exact resumes (cs ++ more) [step] (.cons segment .nil)

/-- Errors behind a letter of two bytes, at a blank in an index, and behind a backslash. -/
theorem ofText?_errors_located_accented :
    ofText? "$[\"\u00e9\"] x" = .error (.unexpectedChar 7 ' ') ∧
      (∃ before after, "$[\"\u00e9\"] x".toList = before ++ ' ' :: after ∧
        7 = before.utf8Encode.size) ∧
      ofText? "$[\"\u00e9\\u\"]" = .error (.invalidEscape 5) ∧
      (∃ before path body key c after, ofChars? before = .ok path ∧ Body body key ∧
        (∀ d, (c, d) ∉ escapes) ∧
        "$[\"\u00e9\\u\"]".toList = before ++ '[' :: '"' :: (body ++ '\\' :: c :: after) ∧
        5 = (before ++ '[' :: '"' :: body).utf8Encode.size) ∧
      ofText? "$.a[ 1]" = .error (.invalidIndex " 1") ∧
      (∃ before path after, ofChars? before = .ok path ∧
        "$.a[ 1]".toList = before ++ '[' :: (" 1".toList ++ after) ∧ ']' ∉ " 1".toList ∧
        (∀ c ∈ after.head?, c = ']') ∧ ∀ i, ¬IndexText " 1".toList i) ∧
      ofText? "$.a[\"b\\" = .error .unexpectedEnd ∧
      ∃ more path, more ≠ "" ∧ ofText? ("$.a[\"b\\" ++ more) = .ok path := by
  have char : ofText? "$[\"\u00e9\"] x" = .error (.unexpectedChar 7 ' ') :=
    eq_error_iff_failure?.mpr (by decide +kernel)
  have escape : ofText? "$[\"\u00e9\\u\"]" = .error (.invalidEscape 5) :=
    eq_error_iff_failure?.mpr (by decide +kernel)
  have index : ofText? "$.a[ 1]" = .error (.invalidIndex " 1") :=
    eq_error_iff_failure?.mpr (by decide +kernel)
  have ended : ofText? "$.a[\"b\\" = .error .unexpectedEnd :=
    eq_error_iff_failure?.mpr (by decide +kernel)
  exact ⟨char, (ofText?_errors_located _).1 _ _ char,
    escape, (ofText?_errors_located _).2.1 _ escape,
    index, (ofText?_errors_located _).2.2.1 _ index,
    ended, (ofText?_errors_located _).2.2.2 ended⟩

end TreeSchema.Path
