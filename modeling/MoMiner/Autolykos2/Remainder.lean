import MoMiner.Lib.Reciprocal

/-!
# Remainders by the table length

The two remainders of the search, by reciprocals of the table length that the host computes:
`mo_mod_u32` rounds the reciprocal up, `mo_mod_u64` rounds it down and corrects once. Both take the
high half of a product of 64-bit words, which some builds put together from products of halves.

Main results: `moModU32_eq` and `moModU64_eq`.
-/

namespace MoMiner.Autolykos2

/-! ## The high half of a product -/

def moMulWideU32 (a b : UInt32) : UInt64 := a.toUInt64 * b.toUInt64

/-- `mo_mul_hi_u64`, from halves or by `sycl::mul_hi`. -/
def moMulHiU64 (halves : Bool) (a b : UInt64) : UInt64 :=
  if halves then
    let a0 := a.toUInt32
    let a1 := (a >>> 32).toUInt32
    let b0 := b.toUInt32
    let b1 := (b >>> 32).toUInt32
    let p0 := moMulWideU32 a0 b0
    let p1 := moMulWideU32 a0 b1
    let p2 := moMulWideU32 a1 b0
    let p3 := moMulWideU32 a1 b1
    let carry := (p0 >>> 32) + p1.toUInt32.toUInt64 + p2.toUInt32.toUInt64
    p3 + (p1 >>> 32) + (p2 >>> 32) + (carry >>> 32)
  else UInt64.ofNat (a.toNat * b.toNat / 2 ^ 64)

theorem toNat_moMulWideU32 (a b : UInt32) : (moMulWideU32 a b).toNat = a.toNat * b.toNat := by
  have h : a.toNat * b.toNat < 2 ^ 32 * 2 ^ 32 := Nat.mul_lt_mul'' a.toNat_lt b.toNat_lt
  rw [moMulWideU32, UInt64.toNat_mul, UInt32.toNat_toUInt64, UInt32.toNat_toUInt64,
    Nat.mod_eq_of_lt (by omega)]

theorem mul_wide_le (a b : UInt32) : a.toNat * b.toNat ≤ (2 ^ 32 - 1) * (2 ^ 32 - 1) := by
  have := a.toNat_lt
  have := b.toNat_lt
  exact Nat.mul_le_mul (by omega) (by omega)

theorem toNat_shiftRight_32 (v : UInt64) : (v >>> 32).toNat = v.toNat / 2 ^ 32 := by
  simp [Nat.shiftRight_eq_div_pow]

theorem toNat_moMulHiU64 (halves : Bool) (a b : UInt64) :
    (moMulHiU64 halves a b).toNat = a.toNat * b.toNat / 2 ^ 64 := by
  have hbound : a.toNat * b.toNat / 2 ^ 64 < 2 ^ 64 :=
    Nat.div_lt_of_lt_mul (Nat.mul_lt_mul'' a.toNat_lt b.toNat_lt)
  unfold moMulHiU64
  split
  · set a0 := a.toUInt32 with ha0
    set a1 := (a >>> 32).toUInt32 with ha1
    set b0 := b.toUInt32 with hb0
    set b1 := (b >>> 32).toUInt32 with hb1
    have halo : a0.toNat = a.toNat % 2 ^ 32 := by simp [ha0]
    have hahi : a1.toNat = a.toNat / 2 ^ 32 := by
      have := a.toNat_lt
      rw [ha1, UInt64.toNat_toUInt32, toNat_shiftRight_32, Nat.mod_eq_of_lt (by omega)]
    have hblo : b0.toNat = b.toNat % 2 ^ 32 := by simp [hb0]
    have hbhi : b1.toNat = b.toNat / 2 ^ 32 := by
      have := b.toNat_lt
      rw [hb1, UInt64.toNat_toUInt32, toNat_shiftRight_32, Nat.mod_eq_of_lt (by omega)]
    have hprod : a.toNat * b.toNat = a0.toNat * b0.toNat +
        2 ^ 32 * (a0.toNat * b1.toNat + a1.toNat * b0.toNat) + 2 ^ 64 * (a1.toNat * b1.toNat) := by
      have ha : a.toNat = a0.toNat + 2 ^ 32 * a1.toNat := by omega
      have hb : b.toNat = b0.toNat + 2 ^ 32 * b1.toNat := by omega
      rw [ha, hb]
      ring
    have h0 := mul_wide_le a0 b0
    have h1 := mul_wide_le a0 b1
    have h2 := mul_wide_le a1 b0
    have h3 := mul_wide_le a1 b1
    simp only [UInt64.toNat_add, toNat_shiftRight_32, UInt32.toNat_toUInt64, UInt64.toNat_toUInt32,
      toNat_moMulWideU32]
    rw [hprod] at hbound ⊢
    generalize a0.toNat * b0.toNat = p0 at *
    generalize a0.toNat * b1.toNat = p1 at *
    generalize a1.toNat * b0.toNat = p2 at *
    generalize a1.toNat * b1.toNat = p3 at *
    omega
  · rw [UInt64.toNat_ofNat', Nat.mod_eq_of_lt hbound]

/-! ## 32-bit operands -/

/-- The reciprocal of the host for `mo_mod_u32`. -/
def moModM (d : UInt32) : UInt64 :=
  if d ≠ 0 then 0xFFFFFFFFFFFFFFFF / d.toUInt64 + 1 else 0

def moModU32 (halves : Bool) (x d : UInt32) (m : UInt64) : UInt32 :=
  (moMulHiU64 halves (m * x.toUInt64) d.toUInt64).toUInt32

theorem toNat_ne_zero {d : UInt32} (hd : d ≠ 0) : 0 < d.toNat :=
  Nat.pos_of_ne_zero fun h => hd (UInt32.toNat_inj.mp h)

/-- The reciprocal is rounded up, and wraps for the divisor one. -/
theorem toNat_moModM {d : UInt32} (hd : d ≠ 0) :
    (moModM d).toNat = ((2 ^ 64 - 1) / d.toNat + 1) % 2 ^ 64 := by
  rw [moModM, if_pos hd, UInt64.toNat_add, UInt64.toNat_div, UInt32.toNat_toUInt64]
  rfl

/-- **The 32-bit remainder is exact.** -/
theorem moModU32_eq (halves : Bool) (x : UInt32) {d : UInt32} (hd : d ≠ 0) :
    moModU32 halves x d (moModM d) = x % d := by
  have hpos := toNat_ne_zero hd
  have hd32 := d.toNat_lt
  have hx32 := x.toNat_lt
  apply UInt32.toNat_inj.mp
  rw [moModU32, UInt64.toNat_toUInt32, toNat_moMulHiU64, UInt64.toNat_mul, toNat_moModM hd,
    UInt32.toNat_toUInt64, UInt32.toNat_toUInt64, UInt32.toNat_mod, Nat.mod_mul_mod]
  set c := (2 ^ 64 - 1) / d.toNat + 1 with hc
  have hrest : (2 ^ 64 - 1) % d.toNat < d.toNat := Nat.mod_lt _ hpos
  obtain ⟨e, he, hed⟩ : ∃ e, c * d.toNat = 2 ^ 64 + e ∧ e < d.toNat := by
    have hdiv := Nat.div_add_mod (2 ^ 64 - 1) d.toNat
    refine ⟨d.toNat - 1 - (2 ^ 64 - 1) % d.toNat, ?_, by omega⟩
    rw [hc, Nat.add_mul, Nat.one_mul, Nat.mul_comm]
    omega
  obtain ⟨hsmall, hlow⟩ := Reciprocal.excess_small (by decide) hpos hd32 hx32 he hed
  rw [Reciprocal.scaled_low hpos he hsmall hlow]
  have := Nat.mod_lt x.toNat hpos
  exact Nat.mod_eq_of_lt (by omega)

/-! ## 64-bit operands -/

/-- The reciprocal of the host for `mo_mod_u64`. -/
def moDivM64 (d : UInt32) : UInt64 :=
  if d = 0 then 0
  else
    let q := 0xFFFFFFFFFFFFFFFF / d.toUInt64
    if 0xFFFFFFFFFFFFFFFF % d.toUInt64 = (d - 1).toUInt64 then q + 1 else q

def moModU64 (halves : Bool) (x : UInt64) (d : UInt32) (m : UInt64) : UInt32 :=
  if d ≤ 1 then 0
  else
    let q := moMulHiU64 halves x m
    let r := x - q * d.toUInt64
    let r := if r ≥ d.toUInt64 then r - d.toUInt64 else r
    r.toUInt32

theorem toNat_moDivM64 {d : UInt32} (hd : 1 < d.toNat) :
    (moDivM64 d).toNat = 2 ^ 64 / d.toNat := by
  have hne : d ≠ 0 := by
    rintro rfl
    exact absurd hd (by decide)
  have hd32 := d.toNat_lt
  have hpred : (d - 1).toNat = d.toNat - 1 :=
    UInt32.toNat_sub_of_le d 1 (UInt32.le_iff_toNat_le.mpr hd.le)
  have hdiv := Nat.div_add_mod (2 ^ 64 - 1) d.toNat
  have hmod : (2 ^ 64 - 1) % d.toNat < d.toNat := Nat.mod_lt _ (by omega)
  have hquot : (2 ^ 64 - 1) / d.toNat < 2 ^ 64 - 1 := Nat.div_lt_self (by decide) hd
  have hiff : (0xFFFFFFFFFFFFFFFF : UInt64) % d.toUInt64 = (d - 1).toUInt64 ↔
      (2 ^ 64 - 1) % d.toNat = d.toNat - 1 := by
    rw [← UInt64.toNat_inj, UInt64.toNat_mod, UInt32.toNat_toUInt64, UInt32.toNat_toUInt64, hpred]
    rfl
  have hq : ((0xFFFFFFFFFFFFFFFF : UInt64) / d.toUInt64).toNat = (2 ^ 64 - 1) / d.toNat := by
    rw [UInt64.toNat_div, UInt32.toNat_toUInt64]
    rfl
  rw [moDivM64, if_neg hne]
  by_cases hlast : (2 ^ 64 - 1) % d.toNat = d.toNat - 1
  · -- The divisor divides the base.
    have hbase : 2 ^ 64 = d.toNat * ((2 ^ 64 - 1) / d.toNat + 1) := by
      rw [Nat.mul_add, Nat.mul_one]
      omega
    have hright : 2 ^ 64 / d.toNat = (2 ^ 64 - 1) / d.toNat + 1 :=
      Nat.div_eq_of_eq_mul_right (by omega) hbase
    rw [if_pos (hiff.mpr hlast), UInt64.toNat_add, hq, hright]
    exact Nat.mod_eq_of_lt (by simp only [UInt64.toNat_one]; omega)
  · rw [if_neg (hlast ∘ hiff.mp), hq, eq_comm]
    refine Nat.div_eq_of_lt_le ?_ ?_
    · rw [Nat.mul_comm]
      omega
    · rw [Nat.succ_mul, Nat.mul_comm]
      omega

/-- **The 64-bit remainder is exact.** -/
theorem moModU64_eq (halves : Bool) (x : UInt64) {d : UInt32} (hd : d ≠ 0) :
    (moModU64 halves x d (moDivM64 d)).toNat = x.toNat % d.toNat := by
  have hpos := toNat_ne_zero hd
  have hd32 := d.toNat_lt
  rw [moModU64]
  by_cases hone : d.toNat ≤ 1
  · rw [if_pos (UInt32.le_iff_toNat_le.mpr hone), show d.toNat = 1 by omega, Nat.mod_one]
    rfl
  · rw [if_neg fun h => hone (UInt32.le_iff_toNat_le.mp h)]
    have hexact := Reciprocal.barrett_mod (W := 2 ^ 64) hpos x.toNat_lt
    obtain ⟨hle, -⟩ := Reciprocal.barrett (W := 2 ^ 64) hpos x.toNat_lt
    set q := moMulHiU64 halves x (moDivM64 d) with hq
    have hqnat : q.toNat = x.toNat * (2 ^ 64 / d.toNat) / 2 ^ 64 := by
      rw [hq, toNat_moMulHiU64, toNat_moDivM64 (by omega)]
    rw [← hqnat] at hexact hle
    have hr : (x - q * d.toUInt64).toNat = x.toNat - q.toNat * d.toNat := by
      have hprod : (q * d.toUInt64).toNat = q.toNat * d.toNat := by
        rw [UInt64.toNat_mul, UInt32.toNat_toUInt64,
          Nat.mod_eq_of_lt (lt_of_le_of_lt hle x.toNat_lt)]
      rw [UInt64.toNat_sub_of_le _ _ (UInt64.le_iff_toNat_le.mpr (hprod ▸ hle)), hprod]
    have hmod := Nat.mod_lt x.toNat hpos
    have hge : x - q * d.toUInt64 ≥ d.toUInt64 ↔ d.toNat ≤ x.toNat - q.toNat * d.toNat := by
      rw [ge_iff_le, UInt64.le_iff_toNat_le, hr, UInt32.toNat_toUInt64]
    rw [UInt64.toNat_toUInt32]
    split
    · rename_i h
      rw [if_pos (hge.mp h)] at hexact
      rw [UInt64.toNat_sub_of_le _ _ h, hr, UInt32.toNat_toUInt64, hexact]
      exact Nat.mod_eq_of_lt (by omega)
    · rename_i h
      rw [if_neg (h ∘ hge.mpr)] at hexact
      rw [hr, hexact]
      exact Nat.mod_eq_of_lt (by omega)

end MoMiner.Autolykos2
