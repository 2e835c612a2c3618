import TreeSchema.Text.Base64
import TreeSchema.Text.Blank

/-!
# Texts without white space

Trimming a text that has no white space leaves it as it is. Numerals have none, and neither
has base64 text.

* `Text.trim_of_forall` — a text without white space is its own trimming.
* `Base64.trim_encode` — base64 text is one.
-/

namespace TreeSchema

namespace Text

theorem isBlank_of_isDigit {c : Char} (h : c.isDigit = true) : isBlank c = false := by
  simp only [Char.isDigit, ge_iff_le, Bool.and_eq_true, decide_eq_true_eq,
    UInt32.le_iff_toNat_le] at h
  obtain ⟨low, high⟩ : 48 ≤ c.toNat ∧ c.toNat ≤ 57 := h
  simp [isBlank]
  omega

/-- A text without white space is its own trimming. -/
theorem trim_of_forall {cs : List Char} (h : ∀ c ∈ cs, isBlank c = false) : trim cs = cs :=
  trim_eq_self (fun c hc => h c (List.mem_of_mem_head? hc))
    fun c hc => h c (List.mem_of_getLast? hc)

end Text

namespace Base64

theorem isBlank_symbol {n : Nat} (h : n < 64) : Text.isBlank (symbol n) = false := by
  have : ∀ k : Fin 64, Text.isBlank (symbol k) = false := by decide
  exact this ⟨n, h⟩

/-- Base64 text is made of the alphabet and the padding. -/
theorem mem_encode {bytes : List UInt8} {c : Char} (h : c ∈ encode bytes) :
    c = '=' ∨ ∃ n < 64, c = symbol n := by
  induction bytes using encode.induct with
  | case1 => cases h
  | case2 a =>
    have ha := a.toNat_lt
    simp only [encode, List.mem_cons, List.not_mem_nil, or_false] at h
    rcases h with rfl | rfl | rfl | rfl
    · exact .inr ⟨_, by omega, rfl⟩
    · exact .inr ⟨_, Nat.mod_lt _ (by omega), rfl⟩
    · exact .inl rfl
    · exact .inl rfl
  | case3 a b =>
    have ha := a.toNat_lt
    have hb := b.toNat_lt
    simp only [encode, List.mem_cons, List.not_mem_nil, or_false] at h
    rcases h with rfl | rfl | rfl | rfl
    · exact .inr ⟨_, by omega, rfl⟩
    · exact .inr ⟨_, Nat.mod_lt _ (by omega), rfl⟩
    · exact .inr ⟨_, Nat.mod_lt _ (by omega), rfl⟩
    · exact .inl rfl
  | case4 a b c rest ih =>
    have ha := a.toNat_lt
    have hb := b.toNat_lt
    have hc := c.toNat_lt
    simp only [encode, List.mem_cons] at h
    rcases h with rfl | rfl | rfl | rfl | h
    · exact .inr ⟨_, by omega, rfl⟩
    · exact .inr ⟨_, Nat.mod_lt _ (by omega), rfl⟩
    · exact .inr ⟨_, Nat.mod_lt _ (by omega), rfl⟩
    · exact .inr ⟨_, Nat.mod_lt _ (by omega), rfl⟩
    · exact ih h

/-- No white space is around base64 text. -/
theorem trim_encode (bytes : List UInt8) : Text.trim (encode bytes) = encode bytes := by
  refine Text.trim_of_forall fun c hc => ?_
  rcases mem_encode hc with rfl | ⟨n, hn, rfl⟩
  · rfl
  · exact isBlank_symbol hn

end Base64

end TreeSchema
