import Mathlib.FieldTheory.Finite.Basic
import MoMiner.Nexapow.Prime
import MoMiner.Nexapow.Reference

/-!
# Powers in the reference field

A fixed chain of squares and products computes powers whose exponents are runs of ones. The inverse
and the residue test share it. Exponents are carried by `Power`, so that no large power is ever
evaluated.

Main result: `npFieldInverse_mul`.
-/

namespace MoMiner.Nexapow

open MoMiner.Limbs

local instance factFieldPrime : Fact fieldPrime.Prime := ⟨fieldPrime_prime⟩

theorem npOne_length : ([1, 0, 0, 0, 0, 0, 0, 0] : List UInt32).length = 8 := rfl

def npOne : U256 := ⟨[1, 0, 0, 0, 0, 0, 0, 0], npOne_length⟩

/-- Square a number of times. -/
def squareN (x : U256) (count : ℕ) : U256 := (List.range count).foldl (fun x _ => npFieldSquare x) x

structure FieldPowerChain where
  x2 : U256
  x22 : U256
  x223 : U256

def npFieldPowerChain (value : U256) : FieldPowerChain :=
  let x2 := npFieldMul (npFieldSquare value) value
  let x3 := npFieldMul (npFieldSquare x2) value
  let x6 := npFieldMul (squareN x3 3) x3
  let x9 := npFieldMul (squareN x6 3) x3
  let x11 := npFieldMul (squareN x9 2) x2
  let x22 := npFieldMul (squareN x11 11) x11
  let x44 := npFieldMul (squareN x22 22) x22
  let x88 := npFieldMul (squareN x44 44) x44
  let x176 := npFieldMul (squareN x88 88) x88
  let x220 := npFieldMul (squareN x176 44) x44
  let x223 := npFieldMul (squareN x220 3) x3
  { x2, x22, x223 }

/-- Square and multiply, for the low bits of an exponent. -/
def lowPower (exponent : UInt32) (value : U256) : ℕ → U256 → U256
  | 0, low => low
  | bit + 1, low =>
    let low := npFieldSquare low
    lowPower exponent value bit
      (if (exponent >>> UInt32.ofNat bit) &&& 1 ≠ 0 then npFieldMul low value else low)

def npFieldInverse (value : U256) : U256 :=
  let high := squareN (npFieldPowerChain value).x223 33
  let low := lowPower 0xfffffc2d value 32 npOne
  npFieldMul high low

/-! ## Exponents -/

/-- A number is the power of another one with an exponent, in the field. -/
def Power (v x : U256) (e : ℕ) : Prop :=
  (x.toNat : ZMod fieldPrime) = (v.toNat : ZMod fieldPrime) ^ e

variable {v x y : U256} {e f : ℕ}

theorem cast_npFieldMul (x y : U256) :
    ((npFieldMul x y).toNat : ZMod fieldPrime) = x.toNat * y.toNat := by
  rw [npFieldMul_spec, ZMod.natCast_mod, Nat.cast_mul]

theorem npOne_toNat : npOne.toNat = 1 := by decide

namespace Power

theorem self (v : U256) : Power v v 1 := (pow_one _).symm

theorem one (v : U256) : Power v npOne 0 := by
  rw [Power, npOne_toNat, pow_zero, Nat.cast_one]

theorem mul (hx : Power v x e) (hy : Power v y f) : Power v (npFieldMul x y) (e + f) := by
  rw [Power, cast_npFieldMul, hx, hy, pow_add]

theorem square (hx : Power v x e) : Power v (npFieldSquare x) (2 * e) := by
  rw [npFieldSquare_eq, Nat.two_mul]
  exact hx.mul hx

theorem squareN (hx : Power v x e) (count : ℕ) :
    Power v (Nexapow.squareN x count) (2 ^ count * e) := by
  induction count with
  | zero => rwa [pow_zero, one_mul]
  | succ count ih =>
    rw [Nexapow.squareN, List.range_succ, List.foldl_append, List.foldl_cons, List.foldl_nil,
      pow_succ', mul_assoc]
    exact ih.square

/-- A step of a chain: squares, then a product. -/
theorem chain (hx : Power v x e) (hy : Power v y f) (count : ℕ) {g : ℕ} (h : 2 ^ count * e + f = g) :
    Power v (npFieldMul (Nexapow.squareN x count) y) g := by
  rw [← h]
  exact (hx.squareN count).mul hy

theorem lowPower {exponent : UInt32} {bits : ℕ} (hbits : bits ≤ 32)
    (hx : Power v x (exponent.toNat / 2 ^ bits)) :
    Power v (Nexapow.lowPower exponent v bits x) exponent.toNat := by
  induction bits generalizing x with
  | zero => rwa [pow_zero, Nat.div_one] at hx
  | succ bit ih =>
    apply ih (by omega)
    have hshift : (UInt32.ofNat bit).toNat % 32 = bit := by
      rw [UInt32.toNat_ofNat']
      omega
    have hbit : ((exponent >>> UInt32.ofNat bit) &&& 1).toNat = exponent.toNat / 2 ^ bit % 2 := by
      rw [UInt32.toNat_and, UInt32.toNat_shiftRight, hshift, Nat.shiftRight_eq_div_pow]
      exact Nat.and_one_is_mod _
    have hhalf : exponent.toNat / 2 ^ (bit + 1) = exponent.toNat / 2 ^ bit / 2 := by
      rw [pow_succ, Nat.div_div_eq_div_mul]
    rw [hhalf] at hx
    split_ifs with h
    · have hodd : exponent.toNat / 2 ^ bit % 2 = 1 := by
        rw [Ne, ← UInt32.toNat_inj, hbit, UInt32.toNat_zero] at h
        omega
      have hsum : exponent.toNat / 2 ^ bit = 2 * (exponent.toNat / 2 ^ bit / 2) + 1 := by omega
      rw [hsum]
      exact hx.square.mul (self v)
    · have heven : exponent.toNat / 2 ^ bit % 2 = 0 := by
        rw [not_not, ← UInt32.toNat_inj, hbit, UInt32.toNat_zero] at h
        exact h
      have hsum : exponent.toNat / 2 ^ bit = 2 * (exponent.toNat / 2 ^ bit / 2) := by omega
      rw [hsum]
      exact hx.square

end Power

/-- **The chain.** Its powers have exponents of 2, 22 and 223 ones. -/
theorem npFieldPowerChain_spec (v : U256) :
    Power v (npFieldPowerChain v).x2 (2 ^ 2 - 1) ∧
      Power v (npFieldPowerChain v).x22 (2 ^ 22 - 1) ∧
      Power v (npFieldPowerChain v).x223 (2 ^ 223 - 1) := by
  have h1 := Power.self v
  have h2 := h1.chain h1 1 (show 2 ^ 1 * 1 + 1 = 2 ^ 2 - 1 by norm_num)
  have h3 := h2.chain h1 1 (show 2 ^ 1 * (2 ^ 2 - 1) + 1 = 2 ^ 3 - 1 by norm_num)
  have h6 := h3.chain h3 3 (show 2 ^ 3 * (2 ^ 3 - 1) + (2 ^ 3 - 1) = 2 ^ 6 - 1 by norm_num)
  have h9 := h6.chain h3 3 (show 2 ^ 3 * (2 ^ 6 - 1) + (2 ^ 3 - 1) = 2 ^ 9 - 1 by norm_num)
  have h11 := h9.chain h2 2 (show 2 ^ 2 * (2 ^ 9 - 1) + (2 ^ 2 - 1) = 2 ^ 11 - 1 by norm_num)
  have h22 := h11.chain h11 11
    (show 2 ^ 11 * (2 ^ 11 - 1) + (2 ^ 11 - 1) = 2 ^ 22 - 1 by norm_num)
  have h44 := h22.chain h22 22
    (show 2 ^ 22 * (2 ^ 22 - 1) + (2 ^ 22 - 1) = 2 ^ 44 - 1 by norm_num)
  have h88 := h44.chain h44 44
    (show 2 ^ 44 * (2 ^ 44 - 1) + (2 ^ 44 - 1) = 2 ^ 88 - 1 by norm_num)
  have h176 := h88.chain h88 88
    (show 2 ^ 88 * (2 ^ 88 - 1) + (2 ^ 88 - 1) = 2 ^ 176 - 1 by norm_num)
  have h220 := h176.chain h44 44
    (show 2 ^ 44 * (2 ^ 176 - 1) + (2 ^ 44 - 1) = 2 ^ 220 - 1 by norm_num)
  have h223 := h220.chain h3 3
    (show 2 ^ 3 * (2 ^ 220 - 1) + (2 ^ 3 - 1) = 2 ^ 223 - 1 by norm_num)
  exact ⟨h2, h22, h223⟩

theorem npFieldInverse_power (v : U256) : Power v (npFieldInverse v) (fieldPrime - 2) := by
  have hhigh := (npFieldPowerChain_spec v).2.2.squareN 33
  have hlow := @Power.lowPower _ _ 0xfffffc2d 32 le_rfl (Power.one v)
  have hsum : 2 ^ 33 * (2 ^ 223 - 1) + (0xfffffc2d : UInt32).toNat = fieldPrime - 2 := by
    have hexponent : (0xfffffc2d : UInt32).toNat = 0xfffffc2d := rfl
    rw [fieldPrime, hexponent]
    norm_num
  rw [← hsum]
  exact hhigh.mul hlow

/-- **The inverse.** -/
theorem npFieldInverse_mul (hv : v.toNat ≠ 0) (hlt : v.toNat < fieldPrime) :
    (npFieldInverse v).toNat * v.toNat % fieldPrime = 1 := by
  have hpos : 1 < fieldPrime := by decide
  have hne : (v.toNat : ZMod fieldPrime) ≠ 0 := by
    rw [Ne, ZMod.natCast_eq_zero_iff]
    exact fun hdvd => hv (Nat.eq_zero_of_dvd_of_lt hdvd hlt)
  have hfermat := ZMod.pow_card_sub_one_eq_one hne
  have hpower := npFieldInverse_power v
  rw [Power] at hpower
  have hproduct : ((npFieldInverse v).toNat * v.toNat : ZMod fieldPrime) = 1 := by
    rw [hpower, ← pow_succ, ← hfermat]
    congr 1
  rw [← Nat.cast_mul, ← Nat.cast_one, ZMod.natCast_eq_natCast_iff'] at hproduct
  rwa [Nat.mod_eq_of_lt hpos] at hproduct

end MoMiner.Nexapow
