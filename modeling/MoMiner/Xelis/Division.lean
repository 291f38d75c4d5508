import Mathlib.Data.UInt
import MoMiner.Lib.LongDivision

/-!
# Integer division of XelisHash

Devices without floating point of double width divide by parts of 32 bits. A part of the quotient is
estimated from the leading part of the divisor and corrected; the divisors of two words are divided
by the leading three words over two.

The high half of a product and the leading zeros of a word have one form for each kind of build.

Main result: `integer_division_exact`.
-/

namespace MoMiner.Xelis

/-! ## Products and leading zeros -/

/-- What a build takes from the device and what it computes. -/
structure Route where
  /-- Products of 32-bit words come from halves of 16 bits. -/
  halves : Bool
  /-- The high half of a product comes from 32-bit words, not from `sycl::mul_hi`. -/
  portable : Bool
  /-- The leading zeros are counted in steps, not by `sycl::clz`. -/
  esimd : Bool

variable (route : Route)

/-- `mo_mul_wide_u32` -/
def mulWide32 (a b : UInt32) : UInt64 :=
  if route.halves then
    let a0 := a.toUInt16.toUInt32
    let a1 := a >>> 16
    let b0 := b.toUInt16.toUInt32
    let b1 := b >>> 16
    let p0 := (a0 * b0).toUInt64
    let p1 := (a0 * b1).toUInt64
    let p2 := (a1 * b0).toUInt64
    let p3 := (a1 * b1).toUInt64
    p0 + ((p1 + p2) <<< 16) + (p3 <<< 32)
  else a.toUInt64 * b.toUInt64

def mulHi64Portable (a b : UInt64) : UInt64 :=
  let a0 := a.toUInt32
  let a1 := (a >>> 32).toUInt32
  let b0 := b.toUInt32
  let b1 := (b >>> 32).toUInt32
  let w0 := mulWide32 route a0 b0
  let t := mulWide32 route a1 b0 + (w0 >>> 32)
  let w1 := (t &&& 0xffffffff) + mulWide32 route a0 b1
  mulWide32 route a1 b1 + (t >>> 32) + (w1 >>> 32)

def mulHi64 (a b : UInt64) : UInt64 :=
  if route.portable then mulHi64Portable route a b else UInt64.ofNat (a.toNat * b.toNat / 2 ^ 64)

/-- One step of the count: skip `k` zeros. -/
def skipZeros (s : UInt32 × UInt64) (k : ℕ) : UInt32 × UInt64 :=
  if s.2 >>> UInt64.ofNat (64 - k) = 0 then (s.1 + UInt32.ofNat k, s.2 <<< UInt64.ofNat k) else s

/-- The leading zeros of a word, 64 for zero. -/
def clz64 (x : UInt64) : UInt32 :=
  if x = 0 then 64
  else if route.esimd then
    let s := [32, 16, 8, 4, 2].foldl skipZeros (0, x)
    s.1 + if s.2 >>> 63 = 0 then 1 else 0
  else UInt32.ofNat (63 - x.toNat.log2)

/-! ## Division -/

/-- The quotient by the leading half of the divisor, rounded up. -/
def estimate64 (a d : UInt64) : UInt32 :=
  let shift := (clz64 route d).toUInt64
  let v := ((d <<< shift) >>> 32).toUInt32
  let top := if shift ≠ 0 then a >>> (32 - shift) else a >>> 32
  if v = 0xffffffff then (top >>> 32).toUInt32 else (top / (v.toUInt64 + 1)).toUInt32

/-- An estimate that is too low goes up by one. -/
def raise (d : UInt64) (s : UInt32 × UInt64) : UInt32 × UInt64 :=
  if d ≤ s.2 then (s.1 + 1, s.2 - d) else s

/-- The quotient and the remainder of two words. -/
def divmod64 (a d : UInt64) : UInt64 × UInt64 :=
  if a < d then (0, a)
  else if d ≤ 0xffffffff then
    let dv := d.toUInt32
    let ahi := (a >>> 32).toUInt32
    let qhi := ahi / dv
    let rhi := ahi - qhi * dv
    let mid := rhi.toUInt64 <<< 32 ||| a.toUInt32.toUInt64
    let qlo := (mid / dv.toUInt64).toUInt32
    (qhi.toUInt64 <<< 32 ||| qlo.toUInt64, mid - qlo.toUInt64 * dv.toUInt64)
  else
    let estimate := estimate64 route a d
    let rem := a - estimate.toUInt64 * d
    let first := if rem > a then (estimate - 1, rem + d) else raise d (estimate, rem)
    -- Dividing by `v + 1` can leave the estimate two low.
    let second := raise d first
    (second.1.toUInt64, second.2)

/-- The remainder of an estimated quotient: its low word and its signed high word. -/
structure Estimate where
  q : UInt64
  rem : UInt64
  hi : Int64

/-- A negative remainder takes the quotient one down. -/
def Estimate.lower (s : Estimate) (d : UInt64) : Estimate :=
  let above : UInt64 := if s.hi < 0 then 1 else 0
  let rem := s.rem + (d &&& (0 - above))
  { q := s.q - above
    rem
    hi := s.hi + (above &&& if rem < d then 1 else 0).toInt64 }

/-- Divide `(r << 32) | x` by a normalized `d`. -/
def div96 (r : UInt64) (x : UInt32) (d : UInt64) : UInt32 × UInt64 :=
  let q0 := r / (d >>> 32)
  let q := if q0 > 0xffffffff then 0xffffffff else q0
  let rem := r <<< 32 ||| x.toUInt64
  let product := q * d
  let hi := (r >>> 32).toInt64 - (mulHi64 route q d).toInt64 - if rem < product then 1 else 0
  let s := ((Estimate.mk q (rem - product) hi).lower d).lower d
  let under : UInt64 := if s.hi > 0 ∨ d ≤ s.rem then 1 else 0
  ((s.q + under).toUInt32, s.rem - (d &&& (0 - under)))

/-- The low word of the quotient of two words by one, and the remainder. -/
def divmod128Fast (hi lo d : UInt64) : UInt64 × UInt64 :=
  let d := d + if d = 0 then 1 else 0
  let r := (divmod64 route hi d).2
  let shift := (clz64 route d).toUInt64
  let normalized := d <<< shift
  let nhi := if shift ≠ 0 then (r <<< shift) ||| (lo >>> (64 - shift)) else r
  let nlo := lo <<< shift
  let upper := div96 route nhi (nlo >>> 32).toUInt32 normalized
  let lower := div96 route upper.2 nlo.toUInt32 normalized
  (upper.1.toUInt64 <<< 32 ||| lower.1.toUInt64, lower.2 >>> shift)

/-- Take an estimated quotient down while its product with the low divisor word is too large. -/
def correctQuotient (v1 v0 u0 : UInt64) : ℕ → UInt64 → UInt64 → UInt64
  | 0, q, _ => q
  | n + 1, q, r =>
    let productLo := q * v0
    let productHi := mulHi64 route q v0
    if productHi < r ∨ productHi = r ∧ productLo ≤ u0 then q
    else
      let q := q - 1
      let previous := r
      let r := r + v1
      if r < previous then q else correctQuotient v1 v0 u0 n q r

/-- The quotient of two words by two, and the low word of the remainder. -/
def divmod128By128 (hi lo divisorHi divisorLo : UInt64) : UInt64 × UInt64 :=
  if divisorHi = 0 then divmod128Fast route hi lo divisorLo
  else if hi < divisorHi ∨ hi = divisorHi ∧ lo < divisorLo then (0, lo)
  else
    let shift := (clz64 route divisorHi).toUInt64
    let v1 := if shift ≠ 0 then divisorHi <<< shift ||| divisorLo >>> (64 - shift) else divisorHi
    let v0 := if shift ≠ 0 then divisorLo <<< shift else divisorLo
    let u2 := if shift ≠ 0 then hi >>> (64 - shift) else 0
    let u1 := if shift ≠ 0 then hi <<< shift ||| lo >>> (64 - shift) else hi
    let u0 := if shift ≠ 0 then lo <<< shift else lo
    let estimated := divmod128Fast route u2 u1 v1
    let q := correctQuotient route v1 v0 u0 2 estimated.1 estimated.2
    (q, lo - q * divisorLo)

/-! ## Words -/

theorem toNat_shiftLeft_of_lt {x s : UInt64} (hs : s.toNat < 64)
    (hx : x.toNat * 2 ^ s.toNat < 2 ^ 64) : (x <<< s).toNat = x.toNat * 2 ^ s.toNat := by
  rw [UInt64.toNat_shiftLeft, Nat.mod_eq_of_lt hs, Nat.shiftLeft_eq, Nat.mod_eq_of_lt hx]

theorem toNat_shiftRight_of_lt {x s : UInt64} (hs : s.toNat < 64) :
    (x >>> s).toNat = x.toNat / 2 ^ s.toNat := by
  rw [UInt64.toNat_shiftRight, Nat.mod_eq_of_lt hs, Nat.shiftRight_eq_div_pow]

theorem toNat_upper (x : UInt64) : (x >>> 32).toNat = x.toNat / 2 ^ 32 :=
  toNat_shiftRight_of_lt (by decide)

theorem toNat_toUInt32_upper (x : UInt64) : (x >>> 32).toUInt32.toNat = x.toNat / 2 ^ 32 := by
  have := x.toNat_lt
  rw [UInt64.toNat_toUInt32, toNat_upper]
  omega

theorem toNat_shiftIn (r : UInt64) (x : UInt32) :
    (r <<< 32 ||| x.toUInt64).toNat = r.toNat % 2 ^ 32 * 2 ^ 32 + x.toNat := by
  have hshift : (r <<< 32).toNat = 2 ^ 32 * (r.toNat % 2 ^ 32) := by
    rw [UInt64.toNat_shiftLeft, Nat.shiftLeft_eq]
    change r.toNat * 2 ^ 32 % 2 ^ 64 = _
    omega
  rw [UInt64.toNat_or, hshift, UInt32.toNat_toUInt64, ← Nat.two_pow_add_eq_or_of_lt x.toNat_lt,
    Nat.mul_comm]

/-- Two halves make one word. -/
theorem toNat_join (a b : UInt32) :
    (a.toUInt64 <<< 32 ||| b.toUInt64).toNat = a.toNat * 2 ^ 32 + b.toNat := by
  rw [toNat_shiftIn, UInt32.toNat_toUInt64, Nat.mod_eq_of_lt a.toNat_lt]

theorem toNat_mulHalves {a b : UInt32} (ha : a.toNat < 2 ^ 16) (hb : b.toNat < 2 ^ 16) :
    (a * b).toUInt64.toNat = a.toNat * b.toNat ∧
      a.toNat * b.toNat ≤ (2 ^ 16 - 1) * (2 ^ 16 - 1) := by
  have hle : a.toNat * b.toNat ≤ (2 ^ 16 - 1) * (2 ^ 16 - 1) :=
    Nat.mul_le_mul (Nat.le_sub_one_of_lt ha) (Nat.le_sub_one_of_lt hb)
  rw [UInt32.toNat_toUInt64, UInt32.toNat_mul, Nat.mod_eq_of_lt (by omega)]
  exact ⟨rfl, hle⟩

theorem toNat_mulWide32 (a b : UInt32) : (mulWide32 route a b).toNat = a.toNat * b.toNat := by
  have hprod : a.toNat * b.toNat < 2 ^ 32 * 2 ^ 32 := Nat.mul_lt_mul'' a.toNat_lt b.toNat_lt
  rw [mulWide32]
  split_ifs
  · have hlow : ∀ x : UInt32, x.toUInt16.toUInt32.toNat = x.toNat % 2 ^ 16 := fun x => by
      rw [UInt16.toNat_toUInt32, UInt32.toNat_toUInt16]
    have hhigh : ∀ x : UInt32, (x >>> 16).toNat = x.toNat / 2 ^ 16 := fun x => by
      rw [UInt32.toNat_shiftRight, Nat.shiftRight_eq_div_pow]
      rfl
    have ha := a.toNat_lt
    have hb := b.toNat_lt
    have hsplit : ∀ x : ℕ, x = x % 2 ^ 16 + 2 ^ 16 * (x / 2 ^ 16) := fun x =>
      (Nat.mod_add_div x (2 ^ 16)).symm
    set a0 := a.toUInt16.toUInt32
    set a1 := a >>> 16
    set b0 := b.toUInt16.toUInt32
    set b1 := b >>> 16
    have ha0 : a0.toNat < 2 ^ 16 := (hlow a).trans_lt (Nat.mod_lt _ (by norm_num))
    have hb0 : b0.toNat < 2 ^ 16 := (hlow b).trans_lt (Nat.mod_lt _ (by norm_num))
    have ha1 : a1.toNat < 2 ^ 16 := (hhigh a).trans_lt (by omega)
    have hb1 : b1.toNat < 2 ^ 16 := (hhigh b).trans_lt (by omega)
    obtain ⟨h0, hle0⟩ := toNat_mulHalves ha0 hb0
    obtain ⟨h1, hle1⟩ := toNat_mulHalves ha0 hb1
    obtain ⟨h2, hle2⟩ := toNat_mulHalves ha1 hb0
    obtain ⟨h3, hle3⟩ := toNat_mulHalves ha1 hb1
    have hfull : a.toNat * b.toNat = a0.toNat * b0.toNat +
        (a0.toNat * b1.toNat + a1.toNat * b0.toNat) * 2 ^ 16 + a1.toNat * b1.toNat * 2 ^ 32 := by
      rw [hsplit a.toNat, hsplit b.toNat, ← hlow a, ← hhigh a, ← hlow b, ← hhigh b]
      ring
    have hmid : ((a0 * b1).toUInt64 + (a1 * b0).toUInt64).toNat =
        a0.toNat * b1.toNat + a1.toNat * b0.toNat := by
      rw [UInt64.toNat_add, h1, h2]
      omega
    have hmid' : (((a0 * b1).toUInt64 + (a1 * b0).toUInt64) <<< 16).toNat =
        (a0.toNat * b1.toNat + a1.toNat * b0.toNat) * 2 ^ 16 := by
      rw [← hmid]
      refine toNat_shiftLeft_of_lt (by decide) ?_
      rw [hmid]
      change _ * 2 ^ 16 < 2 ^ 64
      omega
    have htop : ((a1 * b1).toUInt64 <<< 32).toNat = a1.toNat * b1.toNat * 2 ^ 32 := by
      rw [← h3]
      refine toNat_shiftLeft_of_lt (by decide) ?_
      rw [h3]
      change _ * 2 ^ 32 < 2 ^ 64
      omega
    dsimp only
    rw [UInt64.toNat_add, UInt64.toNat_add, h0, hmid', htop, hfull]
    omega
  · rw [UInt64.toNat_mul, UInt32.toNat_toUInt64, UInt32.toNat_toUInt64]
    exact Nat.mod_eq_of_lt hprod

theorem mul_wide_le (a b : UInt32) : a.toNat * b.toNat ≤ (2 ^ 32 - 1) * (2 ^ 32 - 1) :=
  Nat.mul_le_mul (Nat.le_sub_one_of_lt a.toNat_lt) (Nat.le_sub_one_of_lt b.toNat_lt)

theorem toNat_mulHi64Portable (a b : UInt64) :
    (mulHi64Portable route a b).toNat = a.toNat * b.toNat / 2 ^ 64 := by
  have hbound : a.toNat * b.toNat / 2 ^ 64 < 2 ^ 64 :=
    Nat.div_lt_of_lt_mul (Nat.mul_lt_mul'' a.toNat_lt b.toNat_lt)
  have hlow : ∀ x : UInt64, x.toUInt32.toNat = x.toNat % 2 ^ 32 := fun x =>
    UInt64.toNat_toUInt32 x
  have hmask : ∀ x : UInt64, (x &&& 0xffffffff).toNat = x.toNat % 2 ^ 32 := fun x => by
    rw [UInt64.toNat_and]
    exact Nat.and_two_pow_sub_one_eq_mod x.toNat 32
  rw [mulHi64Portable]
  have halo := hlow a
  have hblo := hlow b
  have hahi := toNat_toUInt32_upper a
  have hbhi := toNat_toUInt32_upper b
  set a0 := a.toUInt32
  set a1 := (a >>> 32).toUInt32
  set b0 := b.toUInt32
  set b1 := (b >>> 32).toUInt32
  have hprod : a.toNat * b.toNat = a0.toNat * b0.toNat +
      2 ^ 32 * (a0.toNat * b1.toNat + a1.toNat * b0.toNat) + 2 ^ 64 * (a1.toNat * b1.toNat) := by
    have ha : a.toNat = a0.toNat + 2 ^ 32 * a1.toNat := by omega
    have hb : b.toNat = b0.toNat + 2 ^ 32 * b1.toNat := by omega
    rw [ha, hb]
    ring
  have h0 := mul_wide_le a0 b0
  have h1 := mul_wide_le a0 b1
  have h2 := mul_wide_le a1 b0
  have h3 := mul_wide_le a1 b1
  simp only [UInt64.toNat_add, toNat_upper, hmask, toNat_mulWide32]
  rw [hprod] at hbound ⊢
  generalize a0.toNat * b0.toNat = p0 at *
  generalize a0.toNat * b1.toNat = p1 at *
  generalize a1.toNat * b0.toNat = p2 at *
  generalize a1.toNat * b1.toNat = p3 at *
  omega

theorem toNat_mulHi64 (a b : UInt64) : (mulHi64 route a b).toNat = a.toNat * b.toNat / 2 ^ 64 := by
  have hbound : a.toNat * b.toNat / 2 ^ 64 < 2 ^ 64 :=
    Nat.div_lt_of_lt_mul (Nat.mul_lt_mul'' a.toNat_lt b.toNat_lt)
  rw [mulHi64]
  split_ifs
  · exact toNat_mulHi64Portable route a b
  · rw [UInt64.toNat_ofNat', Nat.mod_eq_of_lt hbound]

/-! ## Leading zeros -/

/-- What the count keeps: the shifted word and that one of its `k` upper bits is set. -/
structure Counted (d : UInt64) (k : ℕ) (s : UInt32 × UInt64) : Prop where
  shifted : s.2.toNat = d.toNat * 2 ^ s.1.toNat
  low : 2 ^ (64 - k) ≤ s.2.toNat
  count : s.1.toNat + k ≤ 64

theorem shiftRight_eq_zero {x : UInt64} {k : ℕ} (hk : 1 ≤ k) (hk64 : k ≤ 64) :
    x >>> UInt64.ofNat (64 - k) = 0 ↔ x.toNat < 2 ^ (64 - k) := by
  have hamount : (UInt64.ofNat (64 - k)).toNat = 64 - k := by
    rw [UInt64.toNat_ofNat']
    omega
  rw [← UInt64.toNat_inj, toNat_shiftRight_of_lt (by omega), hamount, UInt64.toNat_zero,
    Nat.div_eq_zero_iff_lt (by positivity)]

theorem skipZeros_spec {d : UInt64} {s : UInt32 × UInt64} {k : ℕ} (hk : 1 ≤ k) (hk32 : k ≤ 32)
    (hs : Counted d (2 * k) s) : Counted d k (skipZeros s k) := by
  obtain ⟨hshifted, hlow, hcount⟩ := hs
  rw [skipZeros]
  split_ifs with hzero
  · rw [shiftRight_eq_zero hk (by omega)] at hzero
    have hn : (s.1 + UInt32.ofNat k).toNat = s.1.toNat + k := by
      rw [UInt32.toNat_add, UInt32.toNat_ofNat']
      omega
    have hamount : (UInt64.ofNat k).toNat = k := by
      rw [UInt64.toNat_ofNat']
      omega
    have hfit : s.2.toNat * 2 ^ k < 2 ^ 64 :=
      calc s.2.toNat * 2 ^ k < 2 ^ (64 - k) * 2 ^ k :=
            Nat.mul_lt_mul_of_pos_right hzero (by positivity)
        _ = 2 ^ 64 := by rw [← Nat.pow_add, Nat.sub_add_cancel (by omega)]
    have hshift : (s.2 <<< UInt64.ofNat k).toNat = s.2.toNat * 2 ^ k := by
      rw [toNat_shiftLeft_of_lt (by omega) (by rwa [hamount]), hamount]
    refine ⟨?_, ?_, by dsimp only; omega⟩
    · dsimp only
      rw [hshift, hn, hshifted, Nat.pow_add, Nat.mul_assoc]
    · dsimp only
      rw [hshift]
      calc 2 ^ (64 - k) = 2 ^ (64 - 2 * k) * 2 ^ k := by rw [← Nat.pow_add]; congr 1; omega
        _ ≤ s.2.toNat * 2 ^ k := Nat.mul_le_mul_right _ hlow
  · rw [shiftRight_eq_zero hk (by omega)] at hzero
    exact ⟨hshifted, not_lt.mp hzero, by omega⟩

/-- The shift that normalizes a word. -/
theorem clz64_spec {d : UInt64} (hd : d ≠ 0) :
    (clz64 route d).toNat < 64 ∧ 2 ^ 63 ≤ d.toNat * 2 ^ (clz64 route d).toNat ∧
      d.toNat * 2 ^ (clz64 route d).toNat < 2 ^ 64 := by
  have hpos : d.toNat ≠ 0 := fun h => hd (UInt64.toNat_inj.mp h)
  rw [clz64, if_neg hd]
  split_ifs
  · have hstart : Counted d 64 (0, d) := ⟨by simp, Nat.one_le_iff_ne_zero.mpr hpos, le_rfl⟩
    have hsteps := skipZeros_spec (k := 2) (by norm_num) (by norm_num)
      (skipZeros_spec (k := 4) (by norm_num) (by norm_num)
        (skipZeros_spec (k := 8) (by norm_num) (by norm_num)
          (skipZeros_spec (k := 16) (by norm_num) (by norm_num)
            (skipZeros_spec (k := 32) (by norm_num) le_rfl hstart))))
    change Counted d 2 ([32, 16, 8, 4, 2].foldl skipZeros (0, d)) at hsteps
    set s := [32, 16, 8, 4, 2].foldl skipZeros (0, d)
    obtain ⟨hshifted, hlow, hcount⟩ := hsteps
    have hlt := s.2.toNat_lt
    have hlast : s.2 >>> 63 = 0 ↔ s.2.toNat < 2 ^ 63 :=
      shiftRight_eq_zero (k := 1) le_rfl (by norm_num)
    dsimp only
    split_ifs with hzero
    · rw [hlast] at hzero
      have hn : (s.1 + 1).toNat = s.1.toNat + 1 := by
        rw [UInt32.toNat_add, UInt32.toNat_one]
        omega
      have hdouble : d.toNat * 2 ^ (s.1.toNat + 1) = s.2.toNat * 2 := by
        rw [Nat.pow_succ, ← Nat.mul_assoc, ← hshifted]
      rw [hn, hdouble]
      omega
    · rw [hlast] at hzero
      rw [UInt32.add_zero, ← hshifted]
      omega
  · have hlog : d.toNat.log2 < 64 := (Nat.log2_lt hpos).mpr d.toNat_lt
    have hn : (UInt32.ofNat (63 - d.toNat.log2)).toNat = 63 - d.toNat.log2 := by
      rw [UInt32.toNat_ofNat']
      omega
    rw [hn]
    refine ⟨by omega, ?_, ?_⟩
    · calc 2 ^ 63 = 2 ^ d.toNat.log2 * 2 ^ (63 - d.toNat.log2) := by
            rw [← Nat.pow_add]
            congr 1
            omega
        _ ≤ _ := Nat.mul_le_mul_right _ (Nat.log2_self_le hpos)
    · calc d.toNat * 2 ^ (63 - d.toNat.log2) < 2 ^ (d.toNat.log2 + 1) * 2 ^ (63 - d.toNat.log2) :=
            Nat.mul_lt_mul_of_pos_right Nat.lt_log2_self (by positivity)
        _ = 2 ^ 64 := by
          rw [← Nat.pow_add]
          congr 1
          omega

/-! ## One word by one -/

theorem raise_spec {a d : UInt64} {s : UInt32 × UInt64} {n : ℕ} (hd : 2 ^ 32 ≤ d.toNat)
    (hs : s.2.toNat + d.toNat * s.1.toNat = a.toNat) (hn : s.2.toNat < (n + 2) * d.toNat) :
    (raise d s).2.toNat + d.toNat * (raise d s).1.toNat = a.toNat ∧
      (raise d s).2.toNat < (n + 1) * d.toNat := by
  have ha := a.toNat_lt
  rw [raise]
  split_ifs with hle
  · have hle' := UInt64.le_iff_toNat_le.mp hle
    have hq : (s.1 + 1).toNat = s.1.toNat + 1 := by
      have hmul : 2 ^ 32 * s.1.toNat ≤ d.toNat * s.1.toNat := Nat.mul_le_mul_right _ hd
      rw [UInt32.toNat_add, UInt32.toNat_one]
      omega
    have hsucc : d.toNat * (s.1.toNat + 1) = d.toNat * s.1.toNat + d.toNat := Nat.mul_succ _ _
    have hbound : (n + 2) * d.toNat = (n + 1) * d.toNat + d.toNat := by ring
    dsimp only
    rw [hq, UInt64.toNat_sub_of_le _ _ hle]
    omega
  · rw [UInt64.le_iff_toNat_le, not_le] at hle
    refine ⟨hs, hle.trans_le ?_⟩
    exact Nat.le_mul_of_pos_left _ (Nat.succ_pos n)

theorem toNat_top {a s : UInt64} (hs : s.toNat < 32) :
    (if s ≠ 0 then a >>> (32 - s) else a >>> 32).toNat = a.toNat * 2 ^ s.toNat / 2 ^ 32 := by
  split_ifs with hzero
  · have hsub : (32 - s : UInt64).toNat = 32 - s.toNat :=
      UInt64.toNat_sub_of_le _ _ (UInt64.le_iff_toNat_le.mpr hs.le)
    have hpow : 2 ^ 32 = 2 ^ (32 - s.toNat) * 2 ^ s.toNat := by
      rw [← Nat.pow_add, Nat.sub_add_cancel hs.le]
    rw [toNat_shiftRight_of_lt (by omega), hsub, hpow, Nat.mul_div_mul_right _ _ (by positivity)]
  · rw [not_not.mp hzero, toNat_upper]
    simp

theorem divmod64_narrow {a d : UInt64} (hd : 0 < d.toNat) (hle : d ≤ 0xffffffff) (ha : ¬ a < d) :
    (divmod64 route a d).1.toNat = a.toNat / d.toNat ∧
      (divmod64 route a d).2.toNat = a.toNat % d.toNat := by
  have hdlt : d.toNat < 2 ^ 32 := (UInt64.le_iff_toNat_le.mp hle).trans_lt (by decide)
  have hdv : d.toUInt32.toNat = d.toNat := by rw [UInt64.toNat_toUInt32, Nat.mod_eq_of_lt hdlt]
  have hahi := toNat_toUInt32_upper a
  rw [divmod64, if_neg ha, if_pos hle]
  set dv := d.toUInt32
  set ahi := (a >>> 32).toUInt32
  have hqhi : (ahi / dv).toNat = a.toNat / 2 ^ 32 / d.toNat := by
    rw [UInt32.toNat_div, hahi, hdv]
  have hrhi : (ahi - ahi / dv * dv).toNat = a.toNat / 2 ^ 32 % d.toNat := by
    have hle : ahi.toNat / dv.toNat * dv.toNat ≤ ahi.toNat := Nat.div_mul_le_self _ _
    have hmul : (ahi / dv * dv).toNat = ahi.toNat / dv.toNat * dv.toNat := by
      rw [UInt32.toNat_mul, UInt32.toNat_div, Nat.mod_eq_of_lt (hle.trans_lt ahi.toNat_lt)]
    rw [UInt32.toNat_sub_of_le _ _ (UInt32.le_iff_toNat_le.mpr (hmul.trans_le hle)), hmul, hahi,
      hdv, Nat.mod_eq_sub_div_mul]
  set rhi := ahi - ahi / dv * dv
  have hmid : (rhi.toUInt64 <<< 32 ||| a.toUInt32.toUInt64).toNat =
      a.toNat / 2 ^ 32 % d.toNat * 2 ^ 32 + a.toNat % 2 ^ 32 := by
    rw [toNat_join, hrhi, UInt64.toNat_toUInt32]
  set mid := rhi.toUInt64 <<< 32 ||| a.toUInt32.toUInt64
  have hqlt : (a.toNat / 2 ^ 32 % d.toNat * 2 ^ 32 + a.toNat % 2 ^ 32) / d.toNat < 2 ^ 32 :=
    LongDivision.div_digits_lt (Nat.mod_lt _ hd) (Nat.mod_lt _ (by norm_num))
  have hqlo : (mid / dv.toUInt64).toUInt32.toNat = mid.toNat / d.toNat := by
    rw [UInt64.toNat_toUInt32, UInt64.toNat_div, UInt32.toNat_toUInt64, hdv, hmid,
      Nat.mod_eq_of_lt hqlt]
  have hsplit : a.toNat / 2 ^ 32 * 2 ^ 32 + a.toNat % 2 ^ 32 = a.toNat := Nat.div_add_mod' _ _
  dsimp only
  refine ⟨?_, ?_⟩
  · rw [toNat_join, hqhi, hqlo, hmid, ← LongDivision.div_digits hd, hsplit]
  · have hle : mid.toNat / d.toNat * d.toNat ≤ mid.toNat := Nat.div_mul_le_self _ _
    have hmul : ((mid / dv.toUInt64).toUInt32.toUInt64 * dv.toUInt64).toNat =
        mid.toNat / d.toNat * d.toNat := by
      rw [UInt64.toNat_mul, UInt32.toNat_toUInt64, UInt32.toNat_toUInt64, hqlo, hdv,
        Nat.mod_eq_of_lt (hle.trans_lt mid.toNat_lt)]
    rw [UInt64.toNat_sub_of_le _ _ (UInt64.le_iff_toNat_le.mpr (hmul.trans_le hle)), hmul,
      ← Nat.mod_eq_sub_div_mul, hmid, ← LongDivision.mod_digits, hsplit]

/-- The estimate is at most two low. -/
theorem estimate64_spec {a d : UInt64} (hd : 2 ^ 32 ≤ d.toNat) :
    (estimate64 route a d).toNat ≤ a.toNat / d.toNat ∧
      a.toNat / d.toNat ≤ (estimate64 route a d).toNat + 2 := by
  have hne : d ≠ 0 := fun h => by simp [h] at hd
  obtain ⟨hs64, hnorm, hfit⟩ := clz64_spec route hne
  rw [← UInt32.toNat_toUInt64] at hs64 hnorm hfit
  rw [estimate64]
  set s := (clz64 route d).toUInt64
  have hs32 : s.toNat < 32 := by
    have hpow : 2 ^ s.toNat * 2 ^ 32 < 2 ^ 32 * 2 ^ 32 :=
      calc 2 ^ s.toNat * 2 ^ 32 ≤ 2 ^ s.toNat * d.toNat := Nat.mul_le_mul_left _ hd
        _ < 2 ^ 32 * 2 ^ 32 := by
          rw [Nat.mul_comm]
          exact hfit
    exact (Nat.pow_lt_pow_iff_right (by norm_num)).mp (Nat.lt_of_mul_lt_mul_right hpow)
  have hv : ((d <<< s) >>> 32).toUInt32.toNat = d.toNat * 2 ^ s.toNat / 2 ^ 32 := by
    rw [toNat_toUInt32_upper, toNat_shiftLeft_of_lt hs64 hfit]
  have htop := toNat_top (a := a) hs32
  set v := ((d <<< s) >>> 32).toUInt32
  set top := if s ≠ 0 then a >>> (32 - s) else a >>> 32
  have hq32 : a.toNat / d.toNat < 2 ^ 32 :=
    Nat.div_lt_of_lt_mul (a.toNat_lt.trans_le (Nat.mul_le_mul_right (2 ^ 32) hd))
  have hscaled : a.toNat * 2 ^ s.toNat / (d.toNat * 2 ^ s.toNat) = a.toNat / d.toNat :=
    Nat.mul_div_mul_right _ _ (by positivity)
  obtain ⟨hlow, hhigh⟩ := LongDivision.estimate_low (v := v.toNat) (B := 2 ^ 32)
    (d := d.toNat * 2 ^ s.toNat) (x := a.toNat * 2 ^ s.toNat)
    (by omega) (by omega) (by omega) (by omega)
  rw [hscaled, Nat.mul_comm _ (2 ^ 32), ← Nat.div_div_eq_div_mul, ← htop] at hlow hhigh
  have hestimate : (if v = 0xffffffff then (top >>> 32).toUInt32
      else (top / (v.toUInt64 + 1)).toUInt32).toNat = top.toNat / (v.toNat + 1) := by
    split_ifs with hall
    · rw [toNat_toUInt32_upper, hall]
      rfl
    · have hv1 : (v.toUInt64 + 1).toNat = v.toNat + 1 := by
        have hv32 := v.toNat_lt
        rw [UInt64.toNat_add, UInt32.toNat_toUInt64, UInt64.toNat_one]
        omega
      rw [UInt64.toNat_toUInt32, UInt64.toNat_div, hv1, Nat.mod_eq_of_lt (hlow.trans_lt hq32)]
  rw [hestimate]
  exact ⟨hlow, hhigh⟩

theorem divmod64_wide {a d : UInt64} (hd : ¬ d ≤ 0xffffffff) (ha : ¬ a < d) :
    (divmod64 route a d).1.toNat = a.toNat / d.toNat ∧
      (divmod64 route a d).2.toNat = a.toNat % d.toNat := by
  have hd32 : 2 ^ 32 ≤ d.toNat :=
    not_lt.mp fun h => hd (UInt64.le_iff_toNat_le.mpr (Nat.le_sub_one_of_lt h))
  have halt := a.toNat_lt
  obtain ⟨hlow, hhigh⟩ := estimate64_spec route (a := a) hd32
  rw [divmod64, if_neg ha, if_neg hd]
  dsimp only
  set e := estimate64 route a d
  have hle : d.toNat * e.toNat ≤ a.toNat :=
    (Nat.mul_le_mul_left _ hlow).trans (Nat.mul_div_le _ _)
  have hmul : (e.toUInt64 * d).toNat = d.toNat * e.toNat := by
    rw [UInt64.toNat_mul, UInt32.toNat_toUInt64, Nat.mul_comm e.toNat,
      Nat.mod_eq_of_lt (hle.trans_lt halt)]
  have hrem : (a - e.toUInt64 * d).toNat = a.toNat - d.toNat * e.toNat := by
    rw [UInt64.toNat_sub_of_le _ _ (UInt64.le_iff_toNat_le.mpr (hmul.trans_le hle)), hmul]
  have hnot : ¬ a - e.toUInt64 * d > a := by
    rw [gt_iff_lt, UInt64.lt_iff_toNat_lt, hrem]
    omega
  rw [if_neg hnot]
  set rem := a - e.toUInt64 * d
  have hup : a.toNat < d.toNat * e.toNat + (1 + 2) * d.toNat :=
    calc a.toNat < (a.toNat / d.toNat + 1) * d.toNat := by
          rw [Nat.mul_comm]
          exact Nat.lt_mul_div_succ _ (by omega)
      _ ≤ (e.toNat + 2 + 1) * d.toNat := Nat.mul_le_mul_right _ (Nat.succ_le_succ hhigh)
      _ = d.toNat * e.toNat + (1 + 2) * d.toNat := by ring
  obtain ⟨hsum, hbound⟩ := raise_spec (a := a) (s := (e, rem)) (n := 1) hd32
    (by dsimp only; omega) (by dsimp only; omega)
  obtain ⟨hsum', hbound'⟩ := raise_spec (n := 0) hd32 hsum hbound
  rw [Nat.zero_add, Nat.one_mul] at hbound'
  obtain ⟨hq, hr⟩ := (Nat.div_mod_unique (by omega)).mpr ⟨hsum', hbound'⟩
  rw [UInt32.toNat_toUInt64, hq, hr]
  exact ⟨rfl, rfl⟩

/-- **Division of words is exact.** -/
theorem divmod64_spec {a d : UInt64} (hd : 0 < d.toNat) :
    (divmod64 route a d).1.toNat = a.toNat / d.toNat ∧
      (divmod64 route a d).2.toNat = a.toNat % d.toNat := by
  by_cases ha : a < d
  · have hlt := UInt64.lt_iff_toNat_lt.mp ha
    rw [divmod64, if_pos ha, Nat.div_eq_of_lt hlt, Nat.mod_eq_of_lt hlt]
    exact ⟨rfl, rfl⟩
  · by_cases hle : d ≤ 0xffffffff
    · exact divmod64_narrow route hd hle ha
    · exact divmod64_wide route hle ha

/-! ## Three halves by one word -/

theorem toInt_toInt64 {x : UInt64} (h : x.toNat < 2 ^ 63) : x.toInt64.toInt = x.toNat :=
  BitVec.toInt_eq_toNat_of_lt (by change 2 * x.toNat < 2 ^ 64; omega)

/-- The signed remainder in its two words. -/
def Estimate.value (s : Estimate) : ℤ :=
  s.hi.toInt * 2 ^ 64 + s.rem.toNat

theorem Estimate.lower_of_nonneg {s : Estimate} (hhi : 0 ≤ s.hi.toInt) (d : UInt64) :
    s.lower d = s := by
  have hnot : ¬ s.hi < 0 := by
    rw [Int64.lt_iff_toInt_lt, Int64.toInt_zero]
    omega
  simp [Estimate.lower, hnot]

theorem Estimate.lower_of_neg {s : Estimate} (hhi : s.hi.toInt < 0) (hbound : -2 ^ 40 ≤ s.hi.toInt)
    (d : UInt64) :
    (s.lower d).value = s.value + d.toNat ∧ (s.lower d).q = s.q - 1 := by
  have hneg : s.hi < 0 := by
    rw [Int64.lt_iff_toInt_lt, Int64.toInt_zero]
    exact hhi
  have hd := d.toNat_lt
  have hrem := s.rem.toNat_lt
  have hall : d &&& (0 - 1) = d := UInt64.and_neg_one
  have hadd : (s.rem + d).toNat = (s.rem.toNat + d.toNat) % 2 ^ 64 := UInt64.toNat_add _ _
  rw [Estimate.lower]
  simp only [if_pos hneg, hall, and_true]
  rw [Estimate.value, Estimate.value]
  dsimp only
  split_ifs with hcarry
  · rw [UInt64.lt_iff_toNat_lt] at hcarry
    have hone : ((1 : UInt64) &&& 1).toInt64.toInt = 1 := rfl
    rw [Int64.toInt_add, hone, Int.bmod_eq_of_le (by omega) (by omega)]
    omega
  · rw [UInt64.lt_iff_toNat_lt] at hcarry
    have hzero : ((1 : UInt64) &&& 0).toInt64.toInt = 0 := rfl
    rw [Int64.toInt_add, hzero, Int.bmod_eq_of_le (by omega) (by omega)]
    omega

/-- The first remainder. -/
theorem value_estimate {r q d : UInt64} {x : UInt32} (hq : q.toNat < 2 ^ 32) :
    (Estimate.mk q ((r <<< 32 ||| x.toUInt64) - q * d)
        ((r >>> 32).toInt64 - (mulHi64 route q d).toInt64 -
          if (r <<< 32 ||| x.toUInt64) < q * d then 1 else 0)).value =
      (r.toNat * 2 ^ 32 + x.toNat : ℕ) - (q.toNat * d.toNat : ℕ) ∧
    -2 ^ 40 ≤ ((r >>> 32).toInt64 - (mulHi64 route q d).toInt64 -
      if (r <<< 32 ||| x.toUInt64) < q * d then 1 else 0).toInt := by
  have hr := r.toNat_lt
  have hx := x.toNat_lt
  have hprod : q.toNat * d.toNat < 2 ^ 32 * 2 ^ 64 := Nat.mul_lt_mul'' hq d.toNat_lt
  have hrem := toNat_shiftIn r x
  have hlow : (q * d).toNat = q.toNat * d.toNat % 2 ^ 64 := UInt64.toNat_mul _ _
  have hhigh := toNat_mulHi64 route q d
  have hrhi : (r >>> 32).toInt64.toInt = (r.toNat / 2 ^ 32 : ℕ) := by
    rw [toInt_toInt64 (by rw [toNat_upper]; omega), toNat_upper]
  have hphi : (mulHi64 route q d).toInt64.toInt = (q.toNat * d.toNat / 2 ^ 64 : ℕ) := by
    rw [toInt_toInt64 (by rw [hhigh]; omega), hhigh]
  have hsub : ((r <<< 32 ||| x.toUInt64) - q * d).toNat =
      (2 ^ 64 - (q * d).toNat + (r <<< 32 ||| x.toUInt64).toNat) % 2 ^ 64 := UInt64.toNat_sub _ _
  have hhi : ((r >>> 32).toInt64 - (mulHi64 route q d).toInt64).toInt =
      (r.toNat / 2 ^ 32 : ℕ) - (q.toNat * d.toNat / 2 ^ 64 : ℕ) := by
    rw [Int64.toInt_sub, hrhi, hphi]
    exact Int.bmod_eq_of_le (by omega) (by omega)
  rw [Estimate.value]
  dsimp only
  generalize q.toNat * d.toNat = p at *
  split_ifs with hborrow
  · rw [UInt64.lt_iff_toNat_lt] at hborrow
    rw [Int64.toInt_sub, hhi, Int64.toInt_one, Int.bmod_eq_of_le (by omega) (by omega)]
    omega
  · rw [UInt64.lt_iff_toNat_lt] at hborrow
    rw [Int64.toInt_sub, hhi, Int64.toInt_zero, Int.bmod_eq_of_le (by omega) (by omega)]
    omega

/-- The estimate of a quotient is at most `n` too high, and the remainder goes with it. -/
structure Estimate.Within (t n : ℕ) (d : UInt64) (s : Estimate) : Prop where
  value : s.value = t - (s.q.toNat * d.toNat : ℕ)
  low : t / d.toNat ≤ s.q.toNat
  high : s.q.toNat ≤ t / d.toNat + n
  hi : -2 ^ 40 ≤ s.hi.toInt

theorem Estimate.Within.lower {t n : ℕ} {d : UInt64} {s : Estimate} (hd : 0 < d.toNat)
    (hs : s.Within t (n + 1) d) : (s.lower d).Within t n d := by
  obtain ⟨hvalue, hlow, hhigh, hhi⟩ := hs
  have hrem := s.rem.toNat_lt
  have hrem' := (s.lower d).rem.toNat_lt
  rcases lt_or_ge s.hi.toInt 0 with hneg | hnonneg
  · obtain ⟨hvalue', hq⟩ := Estimate.lower_of_neg hneg hhi d
    have hover : t < s.q.toNat * d.toNat := by
      rw [Estimate.value] at hvalue
      omega
    have hlt : t / d.toNat < s.q.toNat := (Nat.div_lt_iff_lt_mul hd).mpr hover
    have hone : (1 : UInt64) ≤ s.q := UInt64.le_iff_toNat_le.mpr (Nat.one_le_of_lt hlt)
    have hq' : (s.lower d).q.toNat = s.q.toNat - 1 := by
      rw [hq, UInt64.toNat_sub_of_le _ _ hone]
      rfl
    have hmul : s.q.toNat * d.toNat = (s.q.toNat - 1) * d.toNat + d.toNat := by
      rw [← Nat.succ_mul, Nat.succ_eq_add_one, Nat.sub_add_cancel (Nat.one_le_of_lt hlt)]
    refine ⟨?_, hq' ▸ Nat.le_sub_one_of_lt hlt, hq' ▸ Nat.sub_le_iff_le_add.mpr hhigh, ?_⟩
    · rw [hvalue', hvalue, hq', hmul]
      push_cast
      ring
    · rw [Estimate.value, Estimate.value] at hvalue'
      omega
  · rw [Estimate.lower_of_nonneg hnonneg]
    have hle : s.q.toNat * d.toNat ≤ t := by
      rw [Estimate.value] at hvalue
      omega
    have hexact : s.q.toNat ≤ t / d.toNat := (Nat.le_div_iff_mul_le hd).mpr hle
    exact ⟨hvalue, hlow, hexact.trans (Nat.le_add_right _ _), hhi⟩

/-- The quotient and the remainder of three halves by a normalized word. -/
theorem div96_spec {r d : UInt64} (x : UInt32) (hd : 2 ^ 63 ≤ d.toNat) (hr : r < d) :
    (div96 route r x d).1.toNat = (r.toNat * 2 ^ 32 + x.toNat) / d.toNat ∧
      (div96 route r x d).2.toNat = (r.toNat * 2 ^ 32 + x.toNat) % d.toNat := by
  have hdlt := d.toNat_lt
  have hpos : 0 < d.toNat := by omega
  have hrd := UInt64.lt_iff_toNat_lt.mp hr
  set t := r.toNat * 2 ^ 32 + x.toNat with ht
  have hqlt : t / d.toNat < 2 ^ 32 := LongDivision.div_digits_lt hrd x.toNat_lt
  set v := d.toNat / 2 ^ 32 with hv
  have htop : t / (v * 2 ^ 32) = r.toNat / v := by
    have hx := x.toNat_lt
    rw [Nat.mul_comm, ← Nat.div_div_eq_div_mul]
    congr 1
    omega
  obtain ⟨hlow, hhigh⟩ := LongDivision.estimate_high (v := v) (B := 2 ^ 32) (d := d.toNat) (x := t)
    (by omega) (by omega) (by omega) hqlt
  rw [htop] at hlow hhigh
  rw [div96]
  have hq0 : (r / (d >>> 32)).toNat = r.toNat / v := by rw [UInt64.toNat_div, toNat_upper]
  have hq : (if r / (d >>> 32) > 0xffffffff then (0xffffffff : UInt64) else r / (d >>> 32)).toNat =
      min (r.toNat / v) (2 ^ 32 - 1) := by
    have hall : (0xffffffff : UInt64).toNat = 2 ^ 32 - 1 := rfl
    split_ifs with hbig
    · rw [gt_iff_lt, UInt64.lt_iff_toNat_lt, hq0, hall] at hbig
      rw [hall, min_eq_right hbig.le]
    · rw [gt_iff_lt, UInt64.lt_iff_toNat_lt, hq0, hall, not_lt] at hbig
      rw [hq0, min_eq_left hbig]
  dsimp only
  set q : UInt64 := if r / (d >>> 32) > 0xffffffff then 0xffffffff else r / (d >>> 32)
  rw [← hq] at hlow hhigh
  obtain ⟨hvalue, hhi⟩ := value_estimate route (r := r) (x := x) (d := d) (q := q) (by omega)
  have hstart : (Estimate.mk q ((r <<< 32 ||| x.toUInt64) - q * d)
      ((r >>> 32).toInt64 - (mulHi64 route q d).toInt64 -
        if (r <<< 32 ||| x.toUInt64) < q * d then 1 else 0)).Within t 2 d :=
    ⟨hvalue, hlow, hhigh, hhi⟩
  have hlowered := (hstart.lower hpos).lower hpos
  set s := (Estimate.lower _ d).lower d
  obtain ⟨hvalue', hlow', hhigh', hhi'⟩ := hlowered
  have hsq : s.q.toNat = t / d.toNat := by omega
  have hrem := s.rem.toNat_lt
  have hmod : t % d.toNat < d.toNat := Nat.mod_lt _ hpos
  have hsplit : t / d.toNat * d.toNat + t % d.toNat = t := Nat.div_add_mod' _ _
  rw [hsq, Estimate.value] at hvalue'
  have hsrem : s.hi.toInt = 0 ∧ s.rem.toNat = t % d.toNat := by omega
  have hunder : ¬ (s.hi > 0 ∨ d ≤ s.rem) := by
    rw [gt_iff_lt, Int64.lt_iff_toInt_lt, Int64.toInt_zero, UInt64.le_iff_toNat_le]
    omega
  rw [if_neg hunder, UInt64.add_zero, UInt64.toNat_toUInt32, hsq, Nat.mod_eq_of_lt hqlt]
  refine ⟨rfl, ?_⟩
  rw [UInt64.sub_zero, UInt64.and_zero, UInt64.sub_zero]
  exact hsrem.2

/-! ## Two words by one -/

theorem toNat_shiftDown (x : UInt64) {s : UInt64} (hs : s.toNat < 64) (hzero : s ≠ 0) :
    (x >>> (64 - s)).toNat = x.toNat * 2 ^ s.toNat / 2 ^ 64 := by
  have hpos : 0 < s.toNat := Nat.pos_of_ne_zero fun h => hzero (UInt64.toNat_inj.mp h)
  have hsub : (64 - s : UInt64).toNat = 64 - s.toNat :=
    UInt64.toNat_sub_of_le _ _ (UInt64.le_iff_toNat_le.mpr hs.le)
  have hpow : 2 ^ 64 = 2 ^ (64 - s.toNat) * 2 ^ s.toNat := by
    rw [← Nat.pow_add, Nat.sub_add_cancel hs.le]
  rw [toNat_shiftRight_of_lt (by omega), hsub, hpow, Nat.mul_div_mul_right _ _ (by positivity)]

/-- The upper word of two that are shifted up. -/
theorem toNat_shiftUp {hi lo s : UInt64} (hs : s.toNat < 64) :
    (if s ≠ 0 then hi <<< s ||| lo >>> (64 - s) else hi).toNat =
      hi.toNat * 2 ^ s.toNat % 2 ^ 64 + lo.toNat * 2 ^ s.toNat / 2 ^ 64 := by
  have hlo := lo.toNat_lt
  split_ifs with hzero
  · have hpow : 2 ^ 64 = 2 ^ s.toNat * 2 ^ (64 - s.toNat) := by
      rw [← Nat.pow_add, Nat.add_sub_cancel' hs.le]
    have hhigh : (hi <<< s).toNat = 2 ^ s.toNat * (hi.toNat % 2 ^ (64 - s.toNat)) := by
      rw [UInt64.toNat_shiftLeft, Nat.mod_eq_of_lt hs, Nat.shiftLeft_eq, ← Nat.mul_mod_mul_left,
        ← hpow, Nat.mul_comm]
    have hlow := toNat_shiftDown lo hs hzero
    have hlt : lo.toNat * 2 ^ s.toNat / 2 ^ 64 < 2 ^ s.toNat := by
      refine Nat.div_lt_of_lt_mul ?_
      exact Nat.mul_lt_mul_of_pos_right hlo (by positivity)
    rw [UInt64.toNat_or, hlow, hhigh, ← Nat.two_pow_add_eq_or_of_lt hlt, ← Nat.mul_mod_mul_left,
      ← hpow, Nat.mul_comm]
  · rw [not_not.mp hzero]
    have hhi := hi.toNat_lt
    simp only [UInt64.toNat_zero, Nat.pow_zero, Nat.mul_one]
    omega

theorem toNat_shiftLow {lo s : UInt64} (hs : s.toNat < 64) :
    (lo <<< s).toNat = lo.toNat * 2 ^ s.toNat % 2 ^ 64 := by
  rw [UInt64.toNat_shiftLeft, Nat.mod_eq_of_lt hs, Nat.shiftLeft_eq]

theorem toNat_atLeastOne (d : UInt64) : (d + if d = 0 then 1 else 0).toNat = max d.toNat 1 := by
  have hd := d.toNat_lt
  split_ifs with hzero
  · rw [hzero]
    rfl
  · have hne : d.toNat ≠ 0 := fun h => hzero (UInt64.toNat_inj.mp h)
    rw [UInt64.add_zero]
    omega

/-- **Division of two words by one is exact.** -/
theorem divmod128Fast_spec (hi lo d : UInt64) :
    (divmod128Fast route hi lo d).1.toNat =
        (hi.toNat * 2 ^ 64 + lo.toNat) / max d.toNat 1 % 2 ^ 64 ∧
      (divmod128Fast route hi lo d).2.toNat =
        (hi.toNat * 2 ^ 64 + lo.toNat) % max d.toNat 1 := by
  have hlo := lo.toNat_lt
  rw [divmod128Fast, ← toNat_atLeastOne]
  set c := d + if d = 0 then 1 else 0
  have hpos : 0 < c.toNat := by
    rw [toNat_atLeastOne]
    exact lt_max_of_lt_right Nat.one_pos
  have hne : c ≠ 0 := fun h => by simp [h] at hpos
  dsimp only
  have hr := (divmod64_spec route (a := hi) hpos).2
  set r := (divmod64 route hi c).2
  obtain ⟨hs64, hnorm, hfit⟩ := clz64_spec route hne
  rw [← UInt32.toNat_toUInt64] at hs64 hnorm hfit
  set s := (clz64 route c).toUInt64
  have hN := toNat_shiftLeft_of_lt hs64 hfit
  rw [← hN] at hnorm
  have hrlt : r.toNat < c.toNat := hr.trans_lt (Nat.mod_lt _ hpos)
  have hrfit : r.toNat * 2 ^ s.toNat < 2 ^ 64 :=
    (Nat.mul_lt_mul_of_pos_right hrlt (by positivity)).trans hfit
  have hnhi := @toNat_shiftUp r lo _ hs64
  rw [Nat.mod_eq_of_lt hrfit] at hnhi
  have hnlo := @toNat_shiftLow lo _ hs64
  set nhi := if s ≠ 0 then r <<< s ||| lo >>> (64 - s) else r
  set nlo := lo <<< s
  set N := c <<< s
  have hwhole : nhi.toNat * 2 ^ 64 + nlo.toNat = (r.toNat * 2 ^ 64 + lo.toNat) * 2 ^ s.toNat := by
    have hsplit := Nat.div_add_mod' (lo.toNat * 2 ^ s.toNat) (2 ^ 64)
    rw [hnhi, hnlo, Nat.add_mul, Nat.add_assoc, hsplit]
    ring
  have hnhilt : nhi < N := by
    rw [UInt64.lt_iff_toNat_lt, hN]
    refine Nat.lt_of_mul_lt_mul_right (a := 2 ^ 64) ?_
    calc nhi.toNat * 2 ^ 64 ≤ (r.toNat * 2 ^ 64 + lo.toNat) * 2 ^ s.toNat := by omega
      _ < (r.toNat + 1) * 2 ^ 64 * 2 ^ s.toNat :=
        Nat.mul_lt_mul_of_pos_right (by omega) (by positivity)
      _ ≤ c.toNat * 2 ^ 64 * 2 ^ s.toNat :=
        Nat.mul_le_mul_right _ (Nat.mul_le_mul_right _ hrlt)
      _ = c.toNat * 2 ^ s.toNat * 2 ^ 64 := by ring
  obtain ⟨hq1, hr1⟩ := div96_spec route (nlo >>> 32).toUInt32 hnorm hnhilt
  rw [toNat_toUInt32_upper] at hq1 hr1
  have hr1lt : (div96 route nhi (nlo >>> 32).toUInt32 N).2 < N := by
    rw [UInt64.lt_iff_toNat_lt, hr1]
    exact Nat.mod_lt _ (by omega)
  obtain ⟨hq2, hr2⟩ := div96_spec route nlo.toUInt32 hnorm hr1lt
  rw [hr1, UInt64.toNat_toUInt32] at hq2 hr2
  have hparts : (nhi.toNat * 2 ^ 32 + nlo.toNat / 2 ^ 32) * 2 ^ 32 + nlo.toNat % 2 ^ 32 =
      (r.toNat * 2 ^ 64 + lo.toNat) * 2 ^ s.toNat := by
    have hsplit := Nat.div_add_mod' nlo.toNat (2 ^ 32)
    rw [← hwhole, Nat.add_mul, Nat.add_assoc, hsplit]
    ring
  have hdigits : (hi.toNat * 2 ^ 64 + lo.toNat) / c.toNat % 2 ^ 64 =
      (r.toNat * 2 ^ 64 + lo.toNat) / c.toNat := by
    rw [LongDivision.div_digits hpos, ← hr, Nat.mul_add_mod',
      Nat.mod_eq_of_lt (LongDivision.div_digits_lt hrlt hlo)]
  refine ⟨?_, ?_⟩
  · rw [toNat_join, hq1, hq2, ← LongDivision.div_digits (by omega), hparts, hN,
      Nat.mul_div_mul_right _ _ (by positivity), hdigits]
  · rw [toNat_shiftRight_of_lt hs64, hr2, ← LongDivision.mod_digits, hparts, hN,
      Nat.mul_mod_mul_right, Nat.mul_div_cancel _ (by positivity),
      LongDivision.mod_digits hi.toNat, ← hr]

/-! ## Two words by two -/

/-- The comparison of the two words of a product. -/
theorem product_le_iff (q v0 r u0 : UInt64) :
    mulHi64 route q v0 < r ∨ mulHi64 route q v0 = r ∧ q * v0 ≤ u0 ↔
      q.toNat * v0.toNat ≤ r.toNat * 2 ^ 64 + u0.toNat := by
  have hr := r.toNat_lt
  have hu := u0.toNat_lt
  rw [UInt64.lt_iff_toNat_lt, UInt64.le_iff_toNat_le, ← UInt64.toNat_inj, toNat_mulHi64,
    UInt64.toNat_mul]
  generalize q.toNat * v0.toNat = p
  omega

/-- The corrections of an estimate that is at most `n` above the quotient `w`. -/
theorem correctQuotient_spec {v1 v0 u0 q r : UInt64} {n u w : ℕ}
    (hw : ∀ x, x ≤ w ↔ x * (v1.toNat * 2 ^ 64 + v0.toNat) ≤ u)
    (hu : (q.toNat * v1.toNat + r.toNat) * 2 ^ 64 + u0.toNat = u)
    (hlow : w ≤ q.toNat) (hhigh : q.toNat ≤ w + n) :
    (correctQuotient route v1 v0 u0 n q r).toNat = w := by
  have hmul : ∀ x, x * (v1.toNat * 2 ^ 64 + v0.toNat) = x * v1.toNat * 2 ^ 64 + x * v0.toNat :=
    fun x => by ring
  induction n generalizing q r with
  | zero =>
    rw [Nat.add_zero] at hhigh
    exact Nat.le_antisymm hhigh hlow
  | succ n ih =>
    have hfits : q.toNat * v0.toNat ≤ r.toNat * 2 ^ 64 + u0.toNat ↔ q.toNat ≤ w := by
      rw [hw, hmul]
      omega
    rw [correctQuotient]
    simp only [product_le_iff, hfits]
    split_ifs with hdone hover
    · exact Nat.le_antisymm hdone hlow
    all_goals
      have hlt := not_le.mp hdone
      have hone : (1 : UInt64) ≤ q := UInt64.le_iff_toNat_le.mpr (Nat.one_le_of_lt hlt)
      have hq : (q - 1).toNat = q.toNat - 1 := UInt64.toNat_sub_of_le _ _ hone
      have hadd : (r + v1).toNat = (r.toNat + v1.toNat) % 2 ^ 64 := UInt64.toNat_add _ _
      have hsucc : q.toNat * v1.toNat = (q.toNat - 1) * v1.toNat + v1.toNat := by
        rw [← Nat.succ_mul, Nat.succ_eq_add_one, Nat.sub_add_cancel (Nat.one_le_of_lt hlt)]
      have hr := r.toNat_lt
      have hv1 := v1.toNat_lt
      have hq64 := q.toNat_lt
      rw [UInt64.lt_iff_toNat_lt, hadd] at hover
    · -- The sum passed a word: the product, which has two words, is below it.
      have hprod : (q.toNat - 1) * v0.toNat < 2 ^ 64 * 2 ^ 64 :=
        Nat.mul_lt_mul'' (by omega) v0.toNat_lt
      have hle : q.toNat - 1 ≤ w := by
        rw [hw, hmul]
        omega
      rw [hq]
      omega
    · refine ih ?_ (by omega) (by omega)
      rw [hq, ← hu, hsucc, hadd, Nat.mod_eq_of_lt (by omega)]
      ring

/-- The low word of a remainder from the low words. -/
theorem remainder_low {hi lo dh dl q : UInt64} {n d : ℕ} (hn : n = hi.toNat * 2 ^ 64 + lo.toNat)
    (hd : d = dh.toNat * 2 ^ 64 + dl.toNat) (hq : q.toNat = n / d) :
    (lo - q * dl).toNat = n % d % 2 ^ 64 := by
  have hlo := lo.toNat_lt
  have hsplit : q.toNat * d + n % d = n := by rw [hq, Nat.div_add_mod']
  have hmul : q.toNat * d = q.toNat * dh.toNat * 2 ^ 64 + q.toNat * dl.toNat := by
    rw [hd]
    ring
  rw [UInt64.toNat_sub, UInt64.toNat_mul]
  omega

/-- The quotient when the divisor has two words and is not above the number. -/
theorem divmod128By128_wide {hi lo dh dl : UInt64} {n d : ℕ}
    (hn : n = hi.toNat * 2 ^ 64 + lo.toNat) (hd : d = dh.toNat * 2 ^ 64 + dl.toNat) (hdh : dh ≠ 0)
    (hle : ¬ (hi < dh ∨ hi = dh ∧ lo < dl)) :
    (divmod128By128 route hi lo dh dl).1.toNat = n / d := by
  have hhi := hi.toNat_lt
  have hlo := lo.toNat_lt
  have hdl := dl.toNat_lt
  have hdh0 : 0 < dh.toNat := Nat.pos_of_ne_zero fun h => hdh (UInt64.toNat_inj.mp h)
  obtain ⟨hs64, hnorm, hfit⟩ := clz64_spec route hdh
  rw [divmod128By128, if_neg hdh, if_neg hle]
  dsimp only
  rw [← UInt32.toNat_toUInt64] at hs64 hnorm hfit
  set s := (clz64 route dh).toUInt64
  have hlow : ∀ x : UInt64,
      (if s ≠ 0 then x <<< s else x).toNat = x.toNat * 2 ^ s.toNat % 2 ^ 64 := by
    intro x
    split_ifs with hzero
    · exact toNat_shiftLow hs64
    · rw [not_not.mp hzero, UInt64.toNat_zero, Nat.pow_zero, Nat.mul_one,
        Nat.mod_eq_of_lt x.toNat_lt]
  have hv1 := @toNat_shiftUp dh dl _ hs64
  have hu1 := @toNat_shiftUp hi lo _ hs64
  have hv0 := hlow dl
  have hu0 := hlow lo
  have hu2 : (if s ≠ 0 then hi >>> (64 - s) else 0).toNat = hi.toNat * 2 ^ s.toNat / 2 ^ 64 := by
    split_ifs with hzero
    · exact toNat_shiftDown hi hs64 hzero
    · rw [not_not.mp hzero, UInt64.toNat_zero, Nat.pow_zero, Nat.mul_one, Nat.div_eq_of_lt hhi]
  rw [Nat.mod_eq_of_lt hfit] at hv1
  set v1 := if s ≠ 0 then dh <<< s ||| dl >>> (64 - s) else dh
  set v0 := if s ≠ 0 then dl <<< s else dl
  set u2 := if s ≠ 0 then hi >>> (64 - s) else 0
  set u1 := if s ≠ 0 then hi <<< s ||| lo >>> (64 - s) else hi
  set u0 := if s ≠ 0 then lo <<< s else lo
  have hV : v1.toNat * 2 ^ 64 + v0.toNat = d * 2 ^ s.toNat := by
    have hsplit := Nat.div_add_mod' (dl.toNat * 2 ^ s.toNat) (2 ^ 64)
    rw [hv1, hv0, Nat.add_mul, Nat.add_assoc, hsplit, hd]
    ring
  have hU : (u2.toNat * 2 ^ 64 + u1.toNat) * 2 ^ 64 + u0.toNat = n * 2 ^ s.toNat := by
    have hsplit := Nat.div_add_mod' (lo.toNat * 2 ^ s.toNat) (2 ^ 64)
    have hsplit' := Nat.div_add_mod' (hi.toNat * 2 ^ s.toNat) (2 ^ 64)
    rw [hu2, hu1, hu0, ← Nat.add_assoc, hsplit', Nat.add_mul, Nat.add_assoc, hsplit, hn]
    ring
  have hu2lt : u2.toNat < 2 ^ 63 := by
    rw [hu2]
    refine Nat.div_lt_of_lt_mul ?_
    calc hi.toNat * 2 ^ s.toNat < 2 ^ 64 * 2 ^ s.toNat :=
          Nat.mul_lt_mul_of_pos_right hhi (by positivity)
      _ ≤ 2 ^ 64 * 2 ^ 63 :=
        Nat.mul_le_mul_left _ (Nat.pow_le_pow_right (by norm_num) (by omega))
  have hv1pos : 2 ^ 63 ≤ v1.toNat := by
    rw [hv1]
    exact hnorm.trans (Nat.le_add_right _ _)
  have hu2v1 : u2.toNat < v1.toNat := hu2lt.trans_le hv1pos
  obtain ⟨hq, hr⟩ := divmod128Fast_spec route u2 u1 v1
  rw [max_eq_left (by omega)] at hq hr
  rw [Nat.mod_eq_of_lt (LongDivision.div_digits_lt hu2v1 u1.toNat_lt)] at hq
  set estimated := divmod128Fast route u2 u1 v1
  have hd0 : 0 < d := by omega
  have hquotient : n * 2 ^ s.toNat / (d * 2 ^ s.toNat) = n / d :=
    Nat.mul_div_mul_right _ _ (by positivity)
  have hqlt : n / d < 2 ^ 64 := Nat.div_lt_of_lt_mul (by
    have : 2 ^ 64 * 2 ^ 64 ≤ d * 2 ^ 64 := Nat.mul_le_mul_right _ (by omega)
    omega)
  obtain ⟨hestimate, hestimate'⟩ := LongDivision.estimate_high (v := v1.toNat) (B := 2 ^ 64)
    (d := d * 2 ^ s.toNat) (x := n * 2 ^ s.toNat) (by omega)
    (by have := v0.toNat_lt; rw [Nat.add_mul]; omega) (by omega) (hquotient ▸ hqlt)
  have htop : n * 2 ^ s.toNat / (v1.toNat * 2 ^ 64) = estimated.1.toNat := by
    have hu0lt := u0.toNat_lt
    rw [← hU, Nat.mul_comm v1.toNat, ← Nat.div_div_eq_div_mul, hq]
    congr 1
    omega
  rw [htop, hquotient, min_eq_left (Nat.le_sub_one_of_lt estimated.1.toNat_lt)]
    at hestimate hestimate'
  refine correctQuotient_spec route (u := n * 2 ^ s.toNat) (fun x => ?_) ?_ hestimate hestimate'
  · rw [hV, ← hquotient, Nat.le_div_iff_mul_le (by positivity)]
  · rw [hq, hr, Nat.div_add_mod', hU]

/-- **Division of two words by two is exact.** -/
theorem divmod128By128_spec (hi lo dh dl : UInt64) {n d : ℕ}
    (hn : n = hi.toNat * 2 ^ 64 + lo.toNat) (hd : d = dh.toNat * 2 ^ 64 + dl.toNat) (hpos : 0 < d) :
    (divmod128By128 route hi lo dh dl).1.toNat = n / d % 2 ^ 64 ∧
      (divmod128By128 route hi lo dh dl).2.toNat = n % d % 2 ^ 64 := by
  have hlo := lo.toNat_lt
  have hdl := dl.toNat_lt
  by_cases hdh : dh = 0
  · rw [hdh, UInt64.toNat_zero, Nat.zero_mul, Nat.zero_add] at hd
    obtain ⟨hq, hr⟩ := divmod128Fast_spec route hi lo dl
    rw [max_eq_left (by omega), ← hd, ← hn] at hq hr
    rw [divmod128By128, if_pos hdh, hq, hr, Nat.mod_eq_of_lt (a := n % d)]
    · exact ⟨rfl, rfl⟩
    · exact (Nat.mod_lt n hpos).trans (by omega)
  by_cases hlt : hi < dh ∨ hi = dh ∧ lo < dl
  · have hnd : n < d := by
      rw [UInt64.lt_iff_toNat_lt, UInt64.lt_iff_toNat_lt, ← UInt64.toNat_inj] at hlt
      omega
    rw [divmod128By128, if_neg hdh, if_pos hlt, Nat.div_eq_of_lt hnd, Nat.mod_eq_of_lt hnd, hn,
      Nat.mul_add_mod', Nat.mod_eq_of_lt hlo]
    exact ⟨rfl, rfl⟩
  · have hq := divmod128By128_wide route hn hd hdh hlt
    have hr := remainder_low hn hd hq
    rw [← hr, ← hq, Nat.mod_eq_of_lt (UInt64.toNat_lt _)]
    refine ⟨rfl, ?_⟩
    simp only [divmod128By128, if_neg hdh, if_neg hlt]

/-- **Integer division is exact.** -/
theorem integer_division_exact :
    (∀ a b : UInt64, (mulHi64Portable route a b).toNat = a.toNat * b.toNat / 2 ^ 64) ∧
    (∀ a d : UInt64, 0 < d.toNat →
      (divmod64 route a d).1.toNat = a.toNat / d.toNat ∧
        (divmod64 route a d).2.toNat = a.toNat % d.toNat) ∧
    (∀ (r : UInt64) (x : UInt32) (d : UInt64), 2 ^ 63 ≤ d.toNat → r < d →
      (div96 route r x d).1.toNat = (r.toNat * 2 ^ 32 + x.toNat) / d.toNat ∧
        (div96 route r x d).2.toNat = (r.toNat * 2 ^ 32 + x.toNat) % d.toNat) ∧
    (∀ hi lo d : UInt64,
      (divmod128Fast route hi lo d).1.toNat =
          (hi.toNat * 2 ^ 64 + lo.toNat) / max d.toNat 1 % 2 ^ 64 ∧
        (divmod128Fast route hi lo d).2.toNat =
          (hi.toNat * 2 ^ 64 + lo.toNat) % max d.toNat 1) ∧
    ∀ hi lo dh dl : UInt64, 0 < dh.toNat * 2 ^ 64 + dl.toNat →
      (divmod128By128 route hi lo dh dl).1.toNat =
          (hi.toNat * 2 ^ 64 + lo.toNat) / (dh.toNat * 2 ^ 64 + dl.toNat) % 2 ^ 64 ∧
        (divmod128By128 route hi lo dh dl).2.toNat =
          (hi.toNat * 2 ^ 64 + lo.toNat) % (dh.toNat * 2 ^ 64 + dl.toNat) % 2 ^ 64 :=
  ⟨toNat_mulHi64Portable route, fun _ _ hd => divmod64_spec route hd,
    fun _ x _ hd hr => div96_spec route x hd hr, divmod128Fast_spec route,
    fun hi lo dh dl hd => divmod128By128_spec route hi lo dh dl rfl rfl hd⟩

/-- The estimate of this quotient is two high. -/
theorem integer_division_exact_two_high :
    (div96 ⟨false, true, true⟩ 0x7fffffff80000000 0 0x80000000ffffffff).1.toNat =
      0x7fffffff80000000 * 2 ^ 32 / 0x80000000ffffffff :=
  ((integer_division_exact ⟨false, true, true⟩).2.2.1 0x7fffffff80000000 0 0x80000000ffffffff
    (by decide) (by decide)).1

end MoMiner.Xelis
