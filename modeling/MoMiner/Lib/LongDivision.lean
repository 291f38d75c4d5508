import Mathlib.Data.Nat.ModEq
import Mathlib.Tactic.Linarith
import Mathlib.Tactic.Ring

/-!
# Division by parts

A quotient of several digits is put together from quotients of two digits (`div_digits`,
`mod_digits`), and a digit of it is estimated from the leading digit of the divisor: rounded up the
divisor gives an estimate that is up to two low (`estimate_low`), rounded down one that is up to two
high (`estimate_high`). Both need a leading digit that is at least half the base.

Main results: `estimate_low` and `estimate_high`.
-/

namespace MoMiner.LongDivision

variable {B d v x y : ℕ}

/-! ## Digits -/

theorem div_digits (hd : 0 < d) (x y : ℕ) : (x * B + y) / d = x / d * B + (x % d * B + y) / d := by
  have hx : x * B + y = x % d * B + y + d * (x / d * B) := by
    conv_lhs => rw [← Nat.div_add_mod x d]
    ring
  rw [hx, Nat.add_mul_div_left _ _ hd, Nat.add_comm]

theorem mod_digits (x y : ℕ) : (x * B + y) % d = (x % d * B + y) % d :=
  ((Nat.mod_modEq x d).symm.mul_right B).add_right y

/-- The quotient of two digits is one when the upper is reduced. -/
theorem div_digits_lt (hx : x < d) (hy : y < B) : (x * B + y) / d < B := by
  refine Nat.div_lt_of_lt_mul ?_
  calc x * B + y < x * B + B := Nat.add_lt_add_left hy _
    _ = (x + 1) * B := by ring
    _ ≤ d * B := Nat.mul_le_mul_right B hx

/-! ## Estimates -/

/-- **A leading digit rounded up gives an estimate that is up to two low.** -/
theorem estimate_low (hlow : v * B ≤ d) (hhigh : d < (v + 1) * B) (hv : 0 < v)
    (hq : x / d ≤ 2 * v + 1) :
    x / ((v + 1) * B) ≤ x / d ∧ x / d ≤ x / ((v + 1) * B) + 2 := by
  have hB : 0 < B := Nat.pos_of_ne_zero fun h => by simp [h] at hhigh
  have hd : 0 < d := (Nat.mul_pos hv hB).trans_le hlow
  refine ⟨Nat.div_le_div_left hhigh.le hd, ?_⟩
  by_contra hlt
  set e := x / ((v + 1) * B) with he
  have hge : (e + 3) * d ≤ x := (Nat.mul_le_mul_right d (by omega)).trans (Nat.div_mul_le_self x d)
  have hup : x < (e + 1) * ((v + 1) * B) := by
    rw [← Nat.div_lt_iff_lt_mul (by positivity), ← he]
    exact Nat.lt_succ_self e
  have he2 : e + 2 ≤ 2 * v := by omega
  nlinarith

/-- **A leading digit rounded down gives an estimate that is up to two high.** -/
theorem estimate_high (hlow : v * B ≤ d) (hhigh : d < (v + 1) * B) (hv : B ≤ 2 * v)
    (hq : x / d < B) :
    x / d ≤ min (x / (v * B)) (B - 1) ∧ min (x / (v * B)) (B - 1) ≤ x / d + 2 := by
  have hB : 0 < B := Nat.pos_of_ne_zero fun h => by simp [h] at hhigh
  have hv' : 0 < v := by omega
  have hd : 0 < d := (Nat.mul_pos hv' hB).trans_le hlow
  refine ⟨le_min (Nat.div_le_div_left hlow (Nat.mul_pos hv' hB)) (Nat.le_sub_one_of_lt hq), ?_⟩
  by_contra hgt
  set e := min (x / (v * B)) (B - 1) with he
  have hle : e * (v * B) ≤ x :=
    (Nat.mul_le_mul_right _ (min_le_left _ _)).trans (Nat.div_mul_le_self x _)
  have hup : x < (x / d + 1) * d := (Nat.div_lt_iff_lt_mul hd).mp (Nat.lt_succ_self _)
  obtain ⟨f, hf⟩ := Nat.exists_eq_add_of_le'
    ((Nat.le_add_left 2 (x / d)).trans (Nat.lt_of_not_le hgt).le)
  have hscaled : (f + 2) * v * B < f * (v + 1) * B :=
    calc (f + 2) * v * B = e * (v * B) := by rw [hf, Nat.mul_assoc]
      _ ≤ x := hle
      _ < (x / d + 1) * d := hup
      _ ≤ f * d := Nat.mul_le_mul_right d (by omega)
      _ ≤ f * ((v + 1) * B) := Nat.mul_le_mul_left f hhigh.le
      _ = f * (v + 1) * B := (Nat.mul_assoc _ _ _).symm
  have hdigit : (f + 2) * v < f * (v + 1) := Nat.lt_of_mul_lt_mul_right hscaled
  rw [Nat.add_mul, Nat.mul_add, Nat.mul_one] at hdigit
  omega

end MoMiner.LongDivision
