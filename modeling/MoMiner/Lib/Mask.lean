import Mathlib.Data.Nat.Bitwise
import Mathlib.Tactic

/-!
# Bit masks over natural numbers

A protected field of a counter is a mask. Two counters agree on it when their conjunctions
with the mask are equal. Merging fixed bits under a mask into a counter shifts it by an amount
that depends on the masked bits only (`or_mask_add`), so counters that agree on the mask keep
their distance. For a mask of high bits, agreement means equal quotients (`highMask_agree_iff`).
-/

namespace MoMiner.Mask

theorem and_add_or (a b : ℕ) : (a &&& b) + (a ||| b) = a + b := by
  induction a using Nat.strongRecOn generalizing b with
  | ind a ih =>
    rcases Nat.eq_zero_or_pos a with rfl | ha
    · simp
    have half := ih (a / 2) (by omega) (b / 2)
    have hand := Nat.div_add_mod (a &&& b) 2
    have hor := Nat.div_add_mod (a ||| b) 2
    rw [Nat.and_div_two] at hand
    rw [Nat.or_div_two] at hor
    have low : (a &&& b) % 2 + (a ||| b) % 2 = a % 2 + b % 2 := by
      have iand := @Nat.and_mod_two_eq_one a b
      have ior := @Nat.or_mod_two_eq_one a b
      omega
    omega

/-- Merging the bits `b` under the mask `m` moves two counters that agree on `m` by the same
amount. -/
theorem or_mask_add {a d m : ℕ} (b : ℕ) (h : (a + d) &&& m = a &&& m) :
    (a + d) ||| (b &&& m) = (a ||| (b &&& m)) + d := by
  have both : (a + d) &&& (b &&& m) = a &&& (b &&& m) := by
    rw [Nat.and_comm b, ← Nat.and_assoc, ← Nat.and_assoc, h]
  have h1 := and_add_or (a + d) (b &&& m)
  have h2 := and_add_or a (b &&& m)
  omega

theorem or_mask_and {a b m : ℕ} : (a ||| (b &&& m)) &&& m = (a &&& m) ||| (b &&& m) := by
  rw [Nat.and_or_distrib_right, Nat.and_assoc, Nat.and_self]

/-! ## Masks of high bits -/

/-- The mask of the bits `free, …, bits - 1`. -/
def highMask (bits free : ℕ) : ℕ := 2 ^ bits - 2 ^ free

theorem testBit_highMask {bits free : ℕ} (h : free ≤ bits) (i : ℕ) :
    (highMask bits free).testBit i = (decide (free ≤ i) && decide (i < bits)) := by
  have : highMask bits free = (2 ^ (bits - free) - 1) <<< free := by
    rw [highMask, Nat.shiftLeft_eq, Nat.sub_mul, one_mul, ← pow_add, Nat.sub_add_cancel h]
  rw [this, Nat.testBit_shiftLeft, Nat.testBit_two_pow_sub_one]
  by_cases hi : free ≤ i
  · simp only [hi, decide_true, Bool.true_and]
    congr 1
    exact propext (by omega)
  · simp [hi]

theorem and_highMask {bits free a : ℕ} (h : free ≤ bits) (ha : a < 2 ^ bits) :
    a &&& highMask bits free = a / 2 ^ free * 2 ^ free := by
  apply Nat.eq_of_testBit_eq
  intro i
  rw [Nat.testBit_and, testBit_highMask h, ← Nat.shiftLeft_eq, Nat.testBit_shiftLeft,
    Nat.testBit_div_two_pow]
  by_cases hf : free ≤ i
  · rw [Nat.sub_add_cancel hf]
    by_cases hi : i < bits
    · simp [hf, hi]
    · have : a.testBit i = false := Nat.testBit_lt_two_pow
        (lt_of_lt_of_le ha (Nat.pow_le_pow_right (by decide) (by omega)))
      simp [hf, hi, this]
  · simp [hf]

/-- Counters agree on a mask of high bits exactly when they have the same quotient. -/
theorem highMask_agree_iff {bits free a b : ℕ} (h : free ≤ bits) (ha : a < 2 ^ bits)
    (hb : b < 2 ^ bits) :
    a &&& highMask bits free = b &&& highMask bits free ↔ a / 2 ^ free = b / 2 ^ free := by
  rw [and_highMask h ha, and_highMask h hb]
  exact Nat.mul_left_inj (by positivity)

/-- A larger high part is no sub-mask of a smaller one, so merging the smaller one into it
never gives the smaller one back. -/
theorem or_ne_of_lt {p q : ℕ} (h : p < q) : q ||| p ≠ p := by
  intro hpq
  have : q ≤ q ||| p := Nat.left_le_or
  omega

end MoMiner.Mask
