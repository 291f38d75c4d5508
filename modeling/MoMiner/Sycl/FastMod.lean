import Mathlib.Data.Nat.Prime.Basic
import MoMiner.Lib.Fallible
import MoMiner.Lib.Reciprocal

/-!
# Remainders by a runtime divisor

The kernels that pick items of a dataset reduce by its size with one multiplication and one shift.
The host prepares the reciprocal, rounded up or down by the remainder that it leaves; a reciprocal
rounded down goes with an operand rounded up.

Main result: `fast_mod_exact`.
-/

namespace MoMiner.Sycl

open MoMiner.Reciprocal

structure FastModData where
  reciprocal : UInt32
  increment : UInt32 := 0
  shift : UInt32
  divisor : UInt32

/-- Leading zeros of a nonzero word. -/
def clz32Host (value : UInt32) : UInt32 := UInt32.ofNat (31 - value.toNat.log2)

/-- The reciprocal of a divisor that is no power of two, before it is stored in 32 bits, and the
increment of the operand. -/
def roundedReciprocal (divisor shift : UInt32) : UInt64 × UInt32 :=
  let n : UInt64 := 1 <<< shift.toUInt64
  let q := n / divisor.toUInt64
  let r := n - q * divisor.toUInt64
  if r * 2 < divisor.toUInt64 then (q, 1) else (q + 1, 0)

def makeFastModData (divisor : UInt32) : Except String FastModData :=
  if divisor = 0 then .error "Fast modulus divisor must be positive"
  else if divisor &&& (divisor - 1) = 0 then
    .ok { reciprocal := 1, shift := 31 - clz32Host divisor, divisor }
  else
    let shift := 63 - clz32Host divisor
    let rounded := roundedReciprocal divisor shift
    .ok { reciprocal := rounded.1.toUInt32, increment := rounded.2, shift, divisor }

def fastModDev (a : UInt32) (d : FastModData) : UInt32 :=
  let t := a.toUInt64
  let q := (((t + d.increment.toUInt64) * d.reciprocal.toUInt64) >>> d.shift.toUInt64).toUInt32
  a - q * d.divisor

/-! ## The shift -/

variable {d a : UInt32}

theorem toNat_clz32Host (hd : d ≠ 0) : (clz32Host d).toNat = 31 - d.toNat.log2 := by
  have hlog : d.toNat.log2 < 32 :=
    (Nat.log2_lt (by simpa [← UInt32.toNat_inj] using hd)).mpr d.toNat_lt
  rw [clz32Host, UInt32.toNat_ofNat_of_lt' (by simp [UInt32.size]; omega)]

/-- The bounds of the highest set bit. -/
theorem log2_bounds (hd : d ≠ 0) :
    d.toNat.log2 ≤ 31 ∧ 2 ^ d.toNat.log2 ≤ d.toNat ∧ d.toNat < 2 ^ (d.toNat.log2 + 1) := by
  have hd' : d.toNat ≠ 0 := by simpa [← UInt32.toNat_inj] using hd
  have hlog : d.toNat.log2 < 32 := (Nat.log2_lt hd').mpr d.toNat_lt
  exact ⟨by omega, Nat.log2_self_le hd', Nat.lt_log2_self⟩

theorem isPowerOfTwo_iff (hd : d ≠ 0) : d &&& (d - 1) = 0 ↔ d.toNat.isPowerOfTwo := by
  have hd' : d.toNat ≠ 0 := by simpa [← UInt32.toNat_inj] using hd
  have hone : (d - 1).toNat = d.toNat - 1 := by
    rw [UInt32.toNat_sub_of_le]
    · rfl
    · rw [UInt32.le_iff_toNat_le]
      exact Nat.one_le_iff_ne_zero.mpr hd'
  rw [← Nat.and_sub_one_eq_zero_iff_isPowerOfTwo hd', ← UInt32.toNat_inj, UInt32.toNat_and, hone]
  rfl

/-! ## The reciprocal -/

/-- Of a power of two the reciprocal is one. -/
theorem makeFastModData_pow (hd : d ≠ 0) (hpow : d.toNat.isPowerOfTwo) :
    makeFastModData d = .ok { reciprocal := 1, shift := 31 - clz32Host d, divisor := d } ∧
      2 ^ (31 - clz32Host d).toNat = d.toNat := by
  obtain ⟨hlog, hlow, hhigh⟩ := log2_bounds hd
  refine ⟨by rw [makeFastModData, if_neg hd, if_pos ((isPowerOfTwo_iff hd).mpr hpow)], ?_⟩
  have hclz := toNat_clz32Host hd
  have hle : clz32Host d ≤ 31 := by
    rw [UInt32.le_iff_toNat_le, hclz]
    exact Nat.sub_le 31 _
  obtain ⟨k, hk⟩ := hpow
  rw [UInt32.toNat_sub_of_le _ _ hle, hclz, hk, Nat.log2_two_pow]
  rw [hk, Nat.log2_two_pow] at hlog
  have h31 : (31 : UInt32).toNat = 31 := rfl
  congr 1
  omega

/-- The shift and the words of the division, as numbers. -/
structure Rounds (d : UInt32) (shift q r : ℕ) : Prop where
  shift_eq : shift = 32 + d.toNat.log2
  div_eq : q = 2 ^ shift / d.toNat
  mod_eq : r = 2 ^ shift % d.toNat

namespace Rounds

variable {shift q r : ℕ}

theorem split (h : Rounds d shift q r) : q * d.toNat + r = 2 ^ shift := by
  rw [h.div_eq, h.mod_eq, Nat.mul_comm]
  exact Nat.div_add_mod _ _

/-- The divisor is no power of two, so it leaves a remainder. -/
theorem pos (h : Rounds d shift q r) (hpow : ¬ d.toNat.isPowerOfTwo) : 0 < r := by
  rw [h.mod_eq]
  refine Nat.pos_of_ne_zero fun hzero => hpow ?_
  obtain ⟨k, -, hk⟩ := (Nat.dvd_prime_pow Nat.prime_two).mp (Nat.dvd_of_mod_eq_zero hzero)
  exact ⟨k, hk⟩

theorem lt (h : Rounds d shift q r) (hd : d ≠ 0) : r < d.toNat := by
  rw [h.mod_eq]
  exact Nat.mod_lt _ (by have := (log2_bounds hd).2.1; have := Nat.two_pow_pos d.toNat.log2; omega)

/-- The reciprocal leaves room for rounding up. -/
theorem q_lt (h : Rounds d shift q r) (hd : d ≠ 0) (hpow : ¬ d.toNat.isPowerOfTwo) :
    q + 1 < 2 ^ 32 := by
  obtain ⟨hlog, hlow, hhigh⟩ := log2_bounds hd
  have hne : d.toNat ≠ 2 ^ d.toNat.log2 := fun heq => hpow ⟨_, heq⟩
  have hbase : 2 ^ shift = 2 ^ 32 * 2 ^ d.toNat.log2 := by rw [h.shift_eq, Nat.pow_add]
  have hmost : 2 ^ d.toNat.log2 ≤ 2 ^ 31 := Nat.pow_le_pow_right (by decide) hlog
  have hsplit := h.split
  by_contra hge
  have hq : 2 ^ 32 - 1 ≤ q := by omega
  have hmul : (2 ^ 32 - 1) * d.toNat ≤ q * d.toNat := Nat.mul_le_mul_right _ hq
  omega

/-- The reciprocal and the increment give the quotient. -/
theorem exact (h : Rounds d shift q r) (hd : d ≠ 0) (hpow : ¬ d.toNat.isPowerOfTwo) {x : ℕ}
    (hx : x < 2 ^ 32) :
    (if r * 2 < d.toNat then (x + 1) * q else x * (q + 1)) / 2 ^ shift = x / d.toNat := by
  obtain ⟨hlog, hlow, hhigh⟩ := log2_bounds hd
  have hdpos : 0 < d.toNat := by
    have := Nat.two_pow_pos d.toNat.log2
    omega
  have hbase : 2 ^ shift = 2 ^ d.toNat.log2 * 2 ^ 32 := by
    rw [h.shift_eq, Nat.pow_add, Nat.mul_comm]
  rw [Nat.pow_succ] at hhigh
  have hsplit := h.split
  have hr := h.lt hd
  split_ifs with hdown
  · refine succ_mul_div_down hdpos (h.pos hpow) hsplit ?_
    rw [hbase]
    exact Nat.mul_le_mul (by omega) (by omega)
  · refine mul_div_up (e := d.toNat - r) hdpos ?_ ?_
    · rw [Nat.add_mul, Nat.one_mul]
      omega
    · rw [hbase]
      calc (d.toNat - r) * x ≤ 2 ^ d.toNat.log2 * x := Nat.mul_le_mul_right _ (by omega)
        _ < 2 ^ d.toNat.log2 * 2 ^ 32 := Nat.mul_lt_mul_of_pos_left hx (Nat.two_pow_pos _)

end Rounds

/-- `roundedReciprocal` computes with the words of the division. -/
theorem roundedReciprocal_spec (hd : d ≠ 0) (hpow : ¬ d.toNat.isPowerOfTwo) :
    ∃ q r, Rounds d (63 - clz32Host d).toNat q r ∧
      (roundedReciprocal d (63 - clz32Host d)).1.toNat = (if r * 2 < d.toNat then q else q + 1) ∧
      (roundedReciprocal d (63 - clz32Host d)).2 = if r * 2 < d.toNat then 1 else 0 := by
  obtain ⟨hlog, hlow, hhigh⟩ := log2_bounds hd
  have hclz := toNat_clz32Host hd
  have hle : clz32Host d ≤ 63 := by
    rw [UInt32.le_iff_toNat_le, hclz]
    exact (Nat.sub_le 31 _).trans (by decide)
  have hshift : (63 - clz32Host d).toNat = 32 + d.toNat.log2 := by
    rw [UInt32.toNat_sub_of_le _ _ hle, hclz]
    have h63 : (63 : UInt32).toNat = 63 := rfl
    omega
  set shift := 63 - clz32Host d
  have h : Rounds d shift.toNat (2 ^ shift.toNat / d.toNat) (2 ^ shift.toNat % d.toNat) :=
    ⟨hshift, rfl, rfl⟩
  have hlt := h.q_lt hd hpow
  have hr := h.lt hd
  have hsplit := h.split
  refine ⟨_, _, h, ?_⟩
  have hn : ((1 : UInt64) <<< shift.toUInt64).toNat = 2 ^ shift.toNat := by
    have hlt64 : shift.toNat < 64 := by omega
    rw [UInt64.toNat_shiftLeft, UInt32.toNat_toUInt64, Nat.mod_eq_of_lt hlt64, Nat.shiftLeft_eq]
    change 1 * 2 ^ shift.toNat % 2 ^ 64 = _
    rw [Nat.one_mul, Nat.mod_eq_of_lt (Nat.pow_lt_pow_right (by decide) hlt64)]
  have hq : ((1 : UInt64) <<< shift.toUInt64 / d.toUInt64).toNat = 2 ^ shift.toNat / d.toNat := by
    rw [UInt64.toNat_div, hn, UInt32.toNat_toUInt64]
  have hmul : ((1 : UInt64) <<< shift.toUInt64 / d.toUInt64 * d.toUInt64).toNat =
      2 ^ shift.toNat / d.toNat * d.toNat := by
    have hprod := Nat.mul_lt_mul'' (show 2 ^ shift.toNat / d.toNat < 2 ^ 32 by omega) d.toNat_lt
    rw [UInt64.toNat_mul, hq, UInt32.toNat_toUInt64, Nat.mod_eq_of_lt (by omega)]
  have hrem : ((1 : UInt64) <<< shift.toUInt64 -
      (1 : UInt64) <<< shift.toUInt64 / d.toUInt64 * d.toUInt64).toNat =
        2 ^ shift.toNat % d.toNat := by
    rw [UInt64.toNat_sub_of_le, hn, hmul]
    · omega
    · rw [UInt64.le_iff_toNat_le, hn, hmul]
      omega
  have hcond : ((1 : UInt64) <<< shift.toUInt64 -
      (1 : UInt64) <<< shift.toUInt64 / d.toUInt64 * d.toUInt64) * 2 < d.toUInt64 ↔
        2 ^ shift.toNat % d.toNat * 2 < d.toNat := by
    have hsmall := d.toNat_lt
    have htwo : (2 : UInt64).toNat = 2 := rfl
    rw [UInt64.lt_iff_toNat_lt, UInt64.toNat_mul, hrem, UInt32.toNat_toUInt64, htwo,
      Nat.mod_eq_of_lt (by omega)]
  simp only [roundedReciprocal, hcond]
  split_ifs with hdown
  · exact ⟨hq, rfl⟩
  · refine ⟨?_, rfl⟩
    have hone : (1 : UInt64).toNat = 1 := rfl
    rw [UInt64.toNat_add, hq, hone, Nat.mod_eq_of_lt (by omega)]

/-! ## The remainder -/

/-- The reduction of an operand computes its quotient without overflow. -/
structure Exact (d a : UInt32) (data : FastModData) : Prop where
  divisor : data.divisor = d
  shift_lt : data.shift.toNat < 64
  product_lt : (a.toNat + data.increment.toNat) * data.reciprocal.toNat < 2 ^ 64
  quotient : (a.toNat + data.increment.toNat) * data.reciprocal.toNat / 2 ^ data.shift.toNat =
    a.toNat / d.toNat

/-- An exact quotient leaves the remainder. -/
theorem Exact.fastModDev_eq {data : FastModData} (h : Exact d a data) :
    fastModDev a data = a % d := by
  have hsum : (a.toUInt64 + data.increment.toUInt64).toNat = a.toNat + data.increment.toNat := by
    have := a.toNat_lt
    have := data.increment.toNat_lt
    rw [UInt64.toNat_add, UInt32.toNat_toUInt64, UInt32.toNat_toUInt64, Nat.mod_eq_of_lt (by omega)]
  have hq : ((((a.toUInt64 + data.increment.toUInt64) * data.reciprocal.toUInt64) >>>
      data.shift.toUInt64).toUInt32).toNat = a.toNat / d.toNat := by
    have hle : a.toNat / d.toNat ≤ a.toNat := Nat.div_le_self _ _
    have hlt := a.toNat_lt
    rw [UInt64.toNat_toUInt32, UInt64.toNat_shiftRight, UInt64.toNat_mul, hsum,
      UInt32.toNat_toUInt64, UInt32.toNat_toUInt64, Nat.mod_eq_of_lt h.product_lt,
      Nat.mod_eq_of_lt h.shift_lt, Nat.shiftRight_eq_div_pow, h.quotient,
      Nat.mod_eq_of_lt (by omega)]
  have hmul : d.toNat * (a.toNat / d.toNat) + a.toNat % d.toNat = a.toNat := Nat.div_add_mod _ _
  rw [← UInt32.toNat_inj, UInt32.toNat_mod, fastModDev, UInt32.toNat_sub_of_le] <;>
    simp only [UInt32.le_iff_toNat_le, UInt32.toNat_mul, hq, h.divisor]
  all_goals
    rw [Nat.mul_comm, Nat.mod_eq_of_lt (by have := a.toNat_lt; omega)]
    omega

/-- **The reciprocal of every divisor fits in 32 bits, and every operand is reduced exactly.** -/
theorem fast_mod_exact (hd : d ≠ 0) :
    (d &&& (d - 1) ≠ 0 → (roundedReciprocal d (63 - clz32Host d)).1.toNat < 2 ^ 32) ∧
      ∃ data, makeFastModData d = .ok data ∧ ∀ a, Exact d a data ∧ fastModDev a data = a % d := by
  obtain ⟨hlog, hlow, hhigh⟩ := log2_bounds hd
  rw [ne_eq, isPowerOfTwo_iff hd]
  by_cases hpow : d.toNat.isPowerOfTwo
  · obtain ⟨hdata, hshift⟩ := makeFastModData_pow hd hpow
    refine ⟨fun h => absurd hpow h, _, hdata, fun a => ?_⟩
    have hexact : Exact d a { reciprocal := 1, shift := 31 - clz32Host d, divisor := d } := by
      have hone : (1 : UInt32).toNat = 1 := rfl
      have hzero : (0 : UInt32).toNat = 0 := rfl
      have ha := a.toNat_lt
      refine ⟨rfl, ?_, ?_, ?_⟩ <;> dsimp only
      · by_contra hge
        have hle : 2 ^ 64 ≤ 2 ^ (31 - clz32Host d).toNat :=
          Nat.pow_le_pow_right (by decide) (by omega)
        have := d.toNat_lt
        omega
      · rw [hone, hzero]
        omega
      · rw [hone, hzero, hshift, Nat.add_zero, Nat.mul_one]
    exact ⟨hexact, hexact.fastModDev_eq⟩
  · obtain ⟨q, r, h, hreciprocal, hincrement⟩ := roundedReciprocal_spec hd hpow
    have hlt := h.q_lt hd hpow
    have hfits : (roundedReciprocal d (63 - clz32Host d)).1.toNat < 2 ^ 32 := by
      rw [hreciprocal]
      split_ifs <;> omega
    refine ⟨fun _ => hfits, _, by
      rw [makeFastModData, if_neg hd, if_neg (mt (isPowerOfTwo_iff hd).mp hpow)], fun a => ?_⟩
    have ha := a.toNat_lt
    have hstored : (roundedReciprocal d (63 - clz32Host d)).1.toUInt32.toNat =
        if r * 2 < d.toNat then q else q + 1 := by
      rw [UInt64.toNat_toUInt32, Nat.mod_eq_of_lt hfits, hreciprocal]
    have hoperand : (a.toNat + (roundedReciprocal d (63 - clz32Host d)).2.toNat) *
        (roundedReciprocal d (63 - clz32Host d)).1.toUInt32.toNat =
          if r * 2 < d.toNat then (a.toNat + 1) * q else a.toNat * (q + 1) := by
      rw [hstored, hincrement]
      split_ifs <;> rfl
    have hexact : Exact d a {
        reciprocal := (roundedReciprocal d (63 - clz32Host d)).1.toUInt32
        increment := (roundedReciprocal d (63 - clz32Host d)).2
        shift := 63 - clz32Host d, divisor := d } := by
      refine ⟨rfl, ?_, ?_, ?_⟩ <;> dsimp only
      · rw [h.shift_eq]
        omega
      · rw [hoperand]
        change _ < 2 ^ 32 * 2 ^ 32
        split_ifs
        · calc (a.toNat + 1) * q ≤ 2 ^ 32 * q := Nat.mul_le_mul_right _ ha
            _ < 2 ^ 32 * 2 ^ 32 := Nat.mul_lt_mul_of_pos_left (by omega) (by decide)
        · exact Nat.mul_lt_mul'' ha hlt
      · rw [hoperand]
        exact h.exact hd hpow ha
    exact ⟨hexact, hexact.fastModDev_eq⟩

theorem fast_mod_exact_ten : (10 : UInt32) ≠ 0 ∧
    ∃ data, makeFastModData 10 = .ok data ∧ fastModDev 4294967295 data = 4294967295 % 10 := by
  obtain ⟨-, data, hdata, h⟩ := fast_mod_exact (d := 10) (by decide)
  exact ⟨by decide, data, hdata, (h 4294967295).2⟩

end MoMiner.Sycl
