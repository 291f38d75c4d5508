import Mathlib.Data.Nat.Bitwise
import Mathlib.Logic.Function.Basic

/-!
# Bit fields in 32-bit words

Fields of at most 32 bits in a sequence of words, the least significant bit first. A field may cross
from one word to the next.

Loads and stores are described bit by bit (`testBit_packedLoad`, `bit_packedStore`). Main results:
`packedLoad_packedStore_self` and `packedLoad_packedStore_of_disjoint`.
-/

namespace MoMiner.PackedWords

abbrev Words := ℕ → UInt32

/-- The bit at a place of a sequence of words. -/
def bit (words : Words) (p : ℕ) : Bool := (words (p / 32)).toNat.testBit (p % 32)

/-- Whether a field may go on in the next word. -/
def Crosses (wordCount p : ℕ) : Prop := p % 32 ≠ 0 ∧ p / 32 + 1 < wordCount

instance (wordCount p : ℕ) : Decidable (Crosses wordCount p) := by
  unfold Crosses
  infer_instance

/-- The word at a place and the next one. -/
def pairAt (words : Words) (wordCount p : ℕ) : ℕ :=
  (words (p / 32)).toNat |||
    if Crosses wordCount p then (words (p / 32 + 1)).toNat <<< 32 else 0

def packedMask (bits : ℕ) : ℕ := 2 ^ bits - 1

def packedLoad (words : Words) (wordCount p width : ℕ) : ℕ :=
  (pairAt words wordCount p >>> (p % 32) &&& packedMask width) % 2 ^ 32

def packedStore (words : Words) (wordCount p width value : ℕ) : Words :=
  let mask := packedMask width <<< (p % 32)
  let pair := (pairAt words wordCount p &&& (2 ^ 64 - 1 ^^^ mask)) |||
    (value &&& packedMask width) <<< (p % 32)
  let words := Function.update words (p / 32) (UInt32.ofNat pair)
  if Crosses wordCount p then Function.update words (p / 32 + 1) (UInt32.ofNat (pair >>> 32))
  else words

section

variable {words : Words} {wordCount p width value : ℕ}

theorem testBit_packedMask (i : ℕ) : (packedMask width).testBit i = decide (i < width) :=
  Nat.testBit_two_pow_sub_one width i

theorem testBit_word (k i : ℕ) :
    (words k).toNat.testBit i = (decide (i < 32) && bit words (32 * k + i)) := by
  by_cases h : i < 32
  · rw [bit, decide_eq_true h, Bool.true_and, show (32 * k + i) / 32 = k by omega,
      show (32 * k + i) % 32 = i by omega]
  · rw [decide_eq_false h, Bool.false_and, Nat.testBit_lt_two_pow]
    exact (UInt32.toNat_lt _).trans_le (Nat.pow_le_pow_right (by decide) (by omega))

/-- The bits that a field at `p` can reach. -/
theorem testBit_pairAt (i : ℕ) : (pairAt words wordCount p).testBit i =
    ((decide (i < 32) || (decide (Crosses wordCount p) && decide (i < 64))) &&
      bit words (32 * (p / 32) + i)) := by
  rw [pairAt, Nat.testBit_or, testBit_word]
  by_cases hcross : Crosses wordCount p
  · rw [if_pos hcross, Nat.testBit_shiftLeft, testBit_word, decide_eq_true hcross, Bool.true_and]
    by_cases hi : i < 32
    · simp [hi]
    · rw [show 32 * (p / 32 + 1) + (i - 32) = 32 * (p / 32) + i by omega]
      simp [hi, show (i - 32 < 32) ↔ i < 64 by omega, show 32 ≤ i by omega]
  · simp [hcross]

/-- A field that ends within the words reaches no further than the pair. -/
theorem reach_of_lt (hwidth : width ≤ 32) (hend : p + width ≤ 32 * wordCount) {j : ℕ}
    (hj : j < width) : p % 32 + j < 32 ∨ (Crosses wordCount p ∧ p % 32 + j < 64) := by
  by_cases h : p % 32 + j < 32
  · exact .inl h
  · exact .inr ⟨⟨by omega, by omega⟩, by omega⟩

theorem testBit_packedLoad (hwidth : width ≤ 32) (hend : p + width ≤ 32 * wordCount) (j : ℕ) :
    (packedLoad words wordCount p width).testBit j = (decide (j < width) && bit words (p + j)) := by
  rw [packedLoad, Nat.testBit_mod_two_pow, Nat.testBit_and, testBit_packedMask,
    Nat.testBit_shiftRight, testBit_pairAt]
  by_cases hj : j < width
  · rw [show 32 * (p / 32) + (p % 32 + j) = p + j by omega]
    rcases reach_of_lt hwidth hend hj with h | ⟨hcross, h⟩
    · simp [hj, h, show j < 32 by omega]
    · simp [hj, h, hcross, show j < 32 by omega]
  · simp [hj]

theorem packedLoad_lt : packedLoad words wordCount p width < 2 ^ width := by
  have hpos := Nat.two_pow_pos width
  refine (Nat.mod_le _ _).trans_lt (Nat.lt_of_le_of_lt Nat.and_le_right ?_)
  rw [packedMask]
  omega

theorem bit_update_word (k v q : ℕ) :
    bit (Function.update words k (UInt32.ofNat v)) q =
      if q / 32 = k then v.testBit (q % 32) else bit words q := by
  rw [bit]
  by_cases h : q / 32 = k
  · rw [h, Function.update_self, if_pos rfl, UInt32.toNat_ofNat', Nat.testBit_mod_two_pow,
      decide_eq_true (Nat.mod_lt q (by decide)), Bool.true_and]
  · rw [Function.update_of_ne h, if_neg h, bit]

/-- A store sets the bits of its field and no others. -/
theorem bit_packedStore (hwidth : width ≤ 32) (hend : p + width ≤ 32 * wordCount) (q : ℕ) :
    bit (packedStore words wordCount p width value) q =
      if p ≤ q ∧ q < p + width then value.testBit (q - p) else bit words q := by
  -- The bits of the pair that is written back.
  have hpair : ∀ i < 64, ((pairAt words wordCount p &&&
        (2 ^ 64 - 1 ^^^ packedMask width <<< (p % 32))) |||
        (value &&& packedMask width) <<< (p % 32)).testBit i =
      if p % 32 ≤ i ∧ i < p % 32 + width then value.testBit (i - p % 32)
      else (pairAt words wordCount p).testBit i := by
    intro i hi
    rw [Nat.testBit_or, Nat.testBit_and, Nat.testBit_xor, Nat.testBit_shiftLeft,
      Nat.testBit_shiftLeft, Nat.testBit_and, testBit_packedMask, Nat.testBit_two_pow_sub_one]
    by_cases hle : p % 32 ≤ i
    · by_cases hlt : i < p % 32 + width
      · simp [hi, hle, hlt, show i - p % 32 < width by omega]
      · simp [hi, hle, hlt, show ¬ i - p % 32 < width by omega]
    · simp [hi, hle]
  rw [packedStore]
  by_cases hcross : Crosses wordCount p
  · rw [if_pos hcross, bit_update_word, bit_update_word]
    by_cases hnext : q / 32 = p / 32 + 1
    · rw [if_pos hnext, Nat.testBit_shiftRight, hpair _ (by omega), testBit_pairAt]
      have hplace : 32 * (p / 32) + (32 + q % 32) = q := by omega
      rw [hplace, show 32 + q % 32 - p % 32 = q - p by omega]
      refine if_congr (by omega) rfl ?_
      simp [hcross, show 32 + q % 32 < 64 by omega]
    · rw [if_neg hnext]
      by_cases hword : q / 32 = p / 32
      · rw [if_pos hword, hpair _ (by omega), testBit_pairAt,
          show 32 * (p / 32) + q % 32 = q by omega, show q % 32 - p % 32 = q - p by omega]
        refine if_congr (by omega) rfl ?_
        simp [show q % 32 < 32 by omega]
      · rw [if_neg hword, if_neg (by omega)]
  · rw [if_neg hcross, bit_update_word]
    have hfits : p % 32 + width ≤ 32 := by
      by_contra h
      exact hcross ⟨by omega, by omega⟩
    by_cases hword : q / 32 = p / 32
    · rw [if_pos hword, hpair _ (by omega), testBit_pairAt,
        show 32 * (p / 32) + q % 32 = q by omega, show q % 32 - p % 32 = q - p by omega]
      refine if_congr (by omega) rfl ?_
      simp [show q % 32 < 32 by omega]
    · rw [if_neg hword, if_neg (by omega)]

/-- A field is read back as it was stored, cut to its width. -/
theorem packedLoad_packedStore_self (hwidth : width ≤ 32) (hend : p + width ≤ 32 * wordCount) :
    packedLoad (packedStore words wordCount p width value) wordCount p width =
      value % 2 ^ width := by
  refine Nat.eq_of_testBit_eq fun j => ?_
  rw [testBit_packedLoad hwidth hend, bit_packedStore hwidth hend, Nat.testBit_mod_two_pow]
  by_cases hj : j < width
  · rw [if_pos (by omega), Nat.add_sub_cancel_left]
  · simp [hj]

/-- A store leaves the other fields alone. -/
theorem packedLoad_packedStore_of_disjoint {p' width' : ℕ} (hwidth : width ≤ 32)
    (hend : p + width ≤ 32 * wordCount) (hwidth' : width' ≤ 32)
    (hend' : p' + width' ≤ 32 * wordCount) (h : p' + width' ≤ p ∨ p + width ≤ p') :
    packedLoad (packedStore words wordCount p width value) wordCount p' width' =
      packedLoad words wordCount p' width' := by
  refine Nat.eq_of_testBit_eq fun j => ?_
  rw [testBit_packedLoad hwidth' hend', testBit_packedLoad hwidth' hend',
    bit_packedStore hwidth hend]
  by_cases hj : j < width'
  · rw [if_neg (by omega)]
  · simp [hj]

end

end MoMiner.PackedWords
