import Mathlib.Tactic.Linarith
import Mathlib.Tactic.Ring

/-!
# Remainders by a reciprocal

A remainder by a fixed divisor is computed with multiplications by a reciprocal in base `W`: from
the low part of a product with the reciprocal rounded up (`scaled_low`), or from the high part of a
product with the reciprocal rounded down and one correction (`barrett`). A quotient is the high part
of a product with a close reciprocal (`mul_div_up`, `succ_mul_div_down`).
-/

namespace MoMiner.Reciprocal

variable {W c d e x : ℕ}

/-- The low part of `c * x` when `c * d` is the base and a small excess. -/
theorem low_mul (hd : 0 < d) (hc : c * d = W + e)
    (hsmall : e * (x / d + 1) < c * (d - x % d)) :
    c * x % W = e * (x / d) + c * (x % d) := by
  have hmod : x % d < d := Nat.mod_lt x hd
  have hx : x = d * (x / d) + x % d := (Nat.div_add_mod x d).symm
  have hlow : e * (x / d) + c * (x % d) < W := by
    have hsplit : c * (d - x % d) + c * (x % d) = W + e := by
      rw [← Nat.mul_add, Nat.sub_add_cancel hmod.le, hc]
    rw [Nat.mul_add, Nat.mul_one] at hsmall
    omega
  have hprod : c * x = W * (x / d) + (e * (x / d) + c * (x % d)) := by
    calc c * x = c * d * (x / d) + c * (x % d) := by
          nth_rewrite 1 [hx]
          ring
      _ = W * (x / d) + (e * (x / d) + c * (x % d)) := by rw [hc]; ring
  rw [hprod, Nat.mul_add_mod, Nat.mod_eq_of_lt hlow]

/-- **The remainder is the high part of the low part times the divisor.** -/
theorem scaled_low (hd : 0 < d) (hc : c * d = W + e)
    (hsmall : e * (x / d + 1) < c * (d - x % d)) (hx : e * x < W) :
    c * x % W * d / W = x % d := by
  rw [low_mul hd hc hsmall]
  have hsum : (e * (x / d) + c * (x % d)) * d = W * (x % d) + e * x := by
    calc (e * (x / d) + c * (x % d)) * d
        = e * (d * (x / d)) + c * d * (x % d) := by ring
      _ = W * (x % d) + e * (d * (x / d) + x % d) := by rw [hc]; ring
      _ = W * (x % d) + e * x := by rw [Nat.div_add_mod]
  have hW : 0 < W := by omega
  rw [hsum, Nat.mul_add_div hW, Nat.div_eq_of_lt hx, Nat.add_zero]

/-- The bounds of `scaled_low` for operands below a root of the base. -/
theorem excess_small {R : ℕ} (hR : R * R ≤ W) (hd : 0 < d) (hdR : d < R) (hxR : x < R)
    (hc : c * d = W + e) (he : e < d) :
    e * (x / d + 1) < c * (d - x % d) ∧ e * x < W := by
  have hcR : R < c := by
    by_contra hle
    have h1 : c * d ≤ R * d := Nat.mul_le_mul_right d (not_lt.mp hle)
    have h2 : R * d < R * R := Nat.mul_lt_mul_of_pos_left hdR (by omega)
    omega
  have hmod : x % d < d := Nat.mod_lt x hd
  constructor
  · have hx : d * (x / d) + x % d = x := Nat.div_add_mod x d
    calc e * (x / d + 1) ≤ d * (x / d + 1) := Nat.mul_le_mul_right _ he.le
      _ = x + (d - x % d) := by rw [Nat.mul_add, Nat.mul_one]; omega
      _ < R + (d - x % d) := by omega
      _ ≤ R * (d - x % d) + (d - x % d) := Nat.add_le_add_right
          (Nat.le_mul_of_pos_right R (by omega)) _
      _ = (R + 1) * (d - x % d) := by ring
      _ ≤ c * (d - x % d) := Nat.mul_le_mul_right _ hcR
  · calc e * x < R * R := Nat.mul_lt_mul'' (by omega) hxR
      _ ≤ W := hR

/-- **The quotient is the high part of the product with a reciprocal rounded up.** -/
theorem mul_div_up (hd : 0 < d) (hc : c * d = W + e) (hx : e * x < W) : x * c / W = x / d := by
  have hmod : x % d < d := Nat.mod_lt x hd
  have hsplit : d * (x / d) + x % d = x := Nat.div_add_mod x d
  have hprod : x * c * d = W * x + e * x := by
    rw [Nat.mul_assoc, hc]
    ring
  apply Nat.div_eq_of_lt_le
  · refine Nat.le_of_mul_le_mul_right ?_ hd
    calc x / d * W * d = W * (d * (x / d)) := by ring
      _ ≤ W * x := Nat.mul_le_mul_left W (by omega)
      _ ≤ x * c * d := by omega
  · refine Nat.lt_of_mul_lt_mul_right (a := d) ?_
    calc x * c * d < W * x + W := by omega
      _ = W * (x + 1) := by ring
      _ ≤ W * (d * (x / d) + d) := Nat.mul_le_mul_left W (by omega)
      _ = (x / d + 1) * W * d := by ring

/-- **With a reciprocal rounded down, the operand is rounded up.** -/
theorem succ_mul_div_down (hd : 0 < d) (he : 0 < e) (hc : c * d + e = W) (hx : e * (x + 1) ≤ W) :
    (x + 1) * c / W = x / d := by
  have hmod : x % d < d := Nat.mod_lt x hd
  have hsplit : d * (x / d) + x % d = x := Nat.div_add_mod x d
  have hprod : (x + 1) * c * d + e * (x + 1) = W * (x + 1) := by
    rw [← hc]
    ring
  apply Nat.div_eq_of_lt_le
  · refine Nat.le_of_mul_le_mul_right ?_ hd
    calc x / d * W * d = W * (d * (x / d)) := by ring
      _ ≤ W * x := Nat.mul_le_mul_left W (by omega)
      _ ≤ (x + 1) * c * d := by
        have hsucc : W * (x + 1) = W * x + W := Nat.mul_succ W x
        omega
  · refine Nat.lt_of_mul_lt_mul_right (a := d) ?_
    have hpos : 0 < e * (x + 1) := Nat.mul_pos he (Nat.succ_pos x)
    calc (x + 1) * c * d < W * (x + 1) := by omega
      _ ≤ W * (d * (x / d) + d) := Nat.mul_le_mul_left W (by omega)
      _ = (x / d + 1) * W * d := by ring

/-- The quotient by a reciprocal that leaves at most the divisor is at most one too low. -/
theorem barrett_of_le (hd : 0 < d) (hc : c * d + e = W) (he : e ≤ d) (hx : x < W) :
    x * c / W * d ≤ x ∧ x < (x * c / W + 2) * d := by
  have hW : 0 < W := by omega
  set q := x * c / W
  have hqW : q * W ≤ x * c := Nat.div_mul_le_self _ _
  have hqW' : x * c < (q + 1) * W := by
    rw [Nat.mul_comm (q + 1)]
    exact Nat.lt_mul_div_succ _ hW
  constructor
  · have h : q * d * W ≤ x * W :=
      calc q * d * W = q * W * d := by ring
        _ ≤ x * c * d := Nat.mul_le_mul_right d hqW
        _ = x * (c * d) := by ring
        _ ≤ x * W := Nat.mul_le_mul_left x (by omega)
    exact Nat.le_of_mul_le_mul_right h hW
  · have h : x * W < (q + 2) * d * W :=
      calc x * W = x * c * d + x * e := by
            rw [← hc]
            ring
        _ ≤ x * c * d + x * d := Nat.add_le_add_left (Nat.mul_le_mul_left x he) _
        _ < (q + 1) * W * d + W * d := Nat.add_lt_add
            (Nat.mul_lt_mul_of_pos_right hqW' hd) (Nat.mul_lt_mul_of_pos_right hx hd)
        _ = (q + 2) * d * W := by ring
    exact Nat.lt_of_mul_lt_mul_right h

theorem barrett (hd : 0 < d) (hx : x < W) :
    x * (W / d) / W * d ≤ x ∧ x < (x * (W / d) / W + 2) * d :=
  barrett_of_le hd (Nat.div_add_mod' W d) (Nat.mod_lt W hd).le hx

/-- One correction after a quotient that is at most one too low. -/
theorem mod_of_quotient {q : ℕ} (hle : q * d ≤ x) (hlt : x < (q + 2) * d) :
    (if d ≤ x - q * d then x - q * d - d else x - q * d) = x % d := by
  have hlt' : x - q * d < 2 * d := by
    rw [Nat.add_mul] at hlt
    omega
  have hmod : (x - q * d) % d = x % d := by
    rw [Nat.mul_comm q d]
    exact Nat.sub_mul_mod (by rwa [Nat.mul_comm] at hle)
  rw [← hmod]
  split
  · rename_i hge
    rw [Nat.mod_eq_sub_mod hge, Nat.mod_eq_of_lt (by omega)]
  · rename_i hge
    exact (Nat.mod_eq_of_lt (by omega)).symm

/-- **One correction after the quotient by the reciprocal.** -/
theorem barrett_mod (hd : 0 < d) (hx : x < W) :
    (if d ≤ x - x * (W / d) / W * d then x - x * (W / d) / W * d - d
      else x - x * (W / d) / W * d) = x % d :=
  mod_of_quotient (barrett hd hx).1 (barrett hd hx).2

end MoMiner.Reciprocal
