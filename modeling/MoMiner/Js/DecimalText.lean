import MoMiner.Js.Value

/-!
# The decimal text of a natural number

Digits that do not begin with a zero are the text of exactly one number, and `"0"` is the text of
zero.
-/

namespace MoMiner.Js

theorem isDigit_of_mem_toDigits {c : Char} {n : ℕ} (h : c ∈ Nat.toDigits 10 n) : c.isDigit :=
  Nat.isDigit_of_mem_toDigits (by decide) (by decide) h

theorem head_toDigits_ne_zero {n : ℕ} (h : 0 < n) : ∀ c ∈ (Nat.toDigits 10 n).head?, c ≠ '0' := by
  induction n using Nat.strong_induction_on with
  | _ n ih =>
    rw [Nat.toDigits_eq_if (by decide)]
    split_ifs with hlt
    · intro c hc
      have hdigit : ∀ d < 10, 0 < d → Nat.digitChar d ≠ '0' := by decide
      exact Option.some.inj hc ▸ hdigit n hlt h
    · rw [List.head?_append_of_ne_nil _ Nat.toDigits_ne_nil]
      exact ih _ (Nat.div_lt_self h (by decide)) (Nat.div_pos (by omega) (by decide))

theorem digitChar_of_isDigit {c : Char} (h : c.isDigit) :
    c.toNat - 48 < 10 ∧ Nat.digitChar (c.toNat - 48) = c := by
  simp only [Char.isDigit, Bool.and_eq_true, decide_eq_true_eq, ge_iff_le,
    UInt32.le_iff_toNat_le] at h
  have hlow : '0'.val.toNat = 48 := by decide
  have hhigh : '9'.val.toNat = 57 := by decide
  have hc : c.val.toNat = c.toNat := rfl
  have hchars : ∀ d < 10, (Nat.digitChar d).toNat = 48 + d := by decide
  have hlt : c.toNat - 48 < 10 := by omega
  refine ⟨hlt, Char.toNat_inj.mp ?_⟩
  rw [hchars _ hlt]
  omega

theorem decimalValue_toDigits (n : ℕ) :
    decimalValue (String.ofList (Nat.toDigits 10 n)) = n := by
  rw [decimalValue, String.toList_ofList]
  exact Nat.ofDigitChars_ten_toDigits

theorem decimalValue_concat (digits : List Char) (c : Char) :
    decimalValue (String.ofList (digits ++ [c])) =
      10 * decimalValue (String.ofList digits) + (c.toNat - 48) := by
  simp [decimalValue]

/-- Digits that do not begin with a zero are what prints their number. -/
theorem toDigits_decimalValue {digits : List Char} (hne : digits ≠ [])
    (hdigits : ∀ c ∈ digits, c.isDigit) (hhead : ∀ c ∈ digits.head?, c ≠ '0') :
    0 < decimalValue (String.ofList digits) ∧
      Nat.toDigits 10 (decimalValue (String.ofList digits)) = digits := by
  induction digits using List.reverseRecOn with
  | nil => exact absurd rfl hne
  | append_singleton digits c ih =>
    obtain ⟨hlt, hchar⟩ := digitChar_of_isDigit (hdigits c (by simp))
    rw [decimalValue_concat]
    by_cases hnil : digits = []
    · subst hnil
      have hzero : c ≠ '0' := hhead c rfl
      have hpos : 0 < c.toNat - 48 := by
        by_contra hle
        have hc : c.toNat - 48 = 0 := by omega
        rw [hc] at hchar
        exact hzero hchar.symm
      have hempty : 10 * decimalValue (String.ofList []) + (c.toNat - 48) = c.toNat - 48 := by
        simp [decimalValue]
      rw [hempty, Nat.toDigits_of_lt_base hlt, hchar]
      exact ⟨hpos, rfl⟩
    · obtain ⟨hpos, htext⟩ := ih hnil (fun d hd => hdigits d (List.mem_append_left _ hd))
        fun d hd => hhead d (by rwa [List.head?_append_of_ne_nil _ hnil])
      generalize decimalValue (String.ofList digits) = value at hpos htext
      have hdiv : (10 * value + (c.toNat - 48)) / 10 = value := by omega
      have hmod : (10 * value + (c.toNat - 48)) % 10 = c.toNat - 48 := by omega
      rw [Nat.toDigits_of_base_le (by decide) (by omega), hdiv, hmod, htext, hchar]
      exact ⟨by omega, rfl⟩

/-- The texts that print a number, in one of two forms. -/
theorem exists_toDigits_iff {digits : List Char} : (∃ n, digits = Nat.toDigits 10 n) ↔
    digits = ['0'] ∨ digits ≠ [] ∧ (∀ c ∈ digits, c.isDigit) ∧ ∀ c ∈ digits.head?, c ≠ '0' := by
  constructor
  · rintro ⟨n, rfl⟩
    rcases Nat.eq_zero_or_pos n with rfl | hpos
    · exact .inl rfl
    · exact .inr ⟨Nat.toDigits_ne_nil, fun c hc => isDigit_of_mem_toDigits hc,
        head_toDigits_ne_zero hpos⟩
  · rintro (rfl | ⟨hne, hdigits, hhead⟩)
    · exact ⟨0, rfl⟩
    · exact ⟨_, (toDigits_decimalValue hne hdigits hhead).2.symm⟩

end MoMiner.Js
