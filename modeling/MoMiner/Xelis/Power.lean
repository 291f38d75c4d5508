import MoMiner.Lib.Reciprocal
import MoMiner.Xelis.Division

/-!
# Modular powers of XelisHash

A power is computed by squaring. The products are reduced by a reciprocal of the modulus, which two
divisions put together, with one correction of a remainder that may have 65 bits.

Main result: `modular_power_exact`.
-/

namespace MoMiner.Xelis

variable (route : Route)

/-- The upper words of the product of two words with the reciprocal. The lowest word of the product
carries nothing. -/
def barrettQuotient (lo hi muLo muHi : UInt64) : UInt64 :=
  let p0h := mulHi64 route lo muLo
  let p1l := lo * muHi
  let p1h := mulHi64 route lo muHi
  let p2l := hi * muLo
  let p2h := mulHi64 route hi muLo
  let p3l := hi * muHi
  let before := p0h + p1l
  let c1 : UInt64 := if before < p0h then 1 else 0
  let mid := before + p2l
  p3l + p1h + p2h + c1 + if mid < before then 1 else 0

def barrettReduce (lo hi mod muLo muHi : UInt64) : UInt64 :=
  let q := barrettQuotient route lo hi muLo muHi
  let qmLo := q * mod
  let qmHi := mulHi64 route q mod
  let r := lo - qmLo
  let rh := hi - qmHi - if lo < qmLo then 1 else 0
  if rh ≠ 0 ∨ mod ≤ r then r - mod else r

/-- The words of the reciprocal, lowest first. -/
def reciprocal (mod : UInt64) : UInt64 × UInt64 :=
  let upper := divmod64 route (~~~0) mod
  ((divmod128Fast route upper.2 (~~~0) mod).1, upper.1)

/-- Reduce the product of two residues. -/
def mulMod (mod : UInt64) (mu : UInt64 × UInt64) (a b : UInt64) : UInt64 :=
  barrettReduce route (a * b) (mulHi64 route a b) mod mu.1 mu.2

theorem toNat_shiftRight_one_lt {exp : UInt64} (h : exp ≠ 0) : (exp >>> 1).toNat < exp.toNat := by
  have hpos : 0 < exp.toNat := Nat.pos_of_ne_zero fun h0 => h (UInt64.toNat_inj.mp h0)
  rw [toNat_shiftRight_of_lt (by decide)]
  exact Nat.div_lt_self hpos (by decide)

/-- The loop over the bits of the exponent. -/
def powLoop (mod : UInt64) (mu : UInt64 × UInt64) (out base exp : UInt64) : UInt64 :=
  if h : exp = 0 then out
  else
    let out := if exp &&& 1 ≠ 0 then mulMod route mod mu out base else out
    let exp' := exp >>> 1
    let base := if exp' ≠ 0 then mulMod route mod mu base base else base
    powLoop mod mu out base exp'
termination_by exp.toNat
decreasing_by exact toNat_shiftRight_one_lt h

def modpow (base exp mod : UInt64) : UInt64 :=
  let mod := mod + if mod = 0 then 1 else 0
  if mod = 1 then 0
  else
    let base := base % mod
    if base < 2 then base
    else if exp = 0 then 1
    else powLoop route mod (reciprocal route mod) 1 base exp

/-! ## The reciprocal -/

/-- The reciprocal of two words. -/
theorem reciprocal_spec {mod : UInt64} (hmod : 0 < mod.toNat) :
    (reciprocal route mod).2.toNat * 2 ^ 64 + (reciprocal route mod).1.toNat =
      (2 ^ 128 - 1) / mod.toNat := by
  have hall : (~~~0 : UInt64).toNat = 2 ^ 64 - 1 := rfl
  obtain ⟨hupper, hrest⟩ := divmod64_spec route (a := ~~~0) hmod
  rw [hall] at hupper hrest
  have hlt : (2 ^ 64 - 1) % mod.toNat < mod.toNat := Nat.mod_lt _ hmod
  have hlower := (divmod128Fast_spec route (divmod64 route (~~~0) mod).2 (~~~0) mod).1
  rw [hrest, hall, max_eq_left hmod,
    Nat.mod_eq_of_lt (LongDivision.div_digits_lt hlt (by norm_num))] at hlower
  rw [reciprocal]
  dsimp only
  rw [hupper, hlower, ← LongDivision.div_digits hmod]
  rfl

/-! ## The reduction -/

theorem toNat_bit (c : Prop) [Decidable c] :
    (if c then 1 else 0 : UInt64).toNat = if c then 1 else 0 := by
  split_ifs <;> rfl

theorem barrettQuotient_spec {lo hi muLo muHi : UInt64} {x mu : ℕ}
    (hx : x = hi.toNat * 2 ^ 64 + lo.toNat) (hmu : mu = muHi.toNat * 2 ^ 64 + muLo.toNat)
    (hfits : x * mu / 2 ^ 128 < 2 ^ 64) :
    (barrettQuotient route lo hi muLo muHi).toNat = x * mu / 2 ^ 128 := by
  have hprod : x * mu = hi.toNat * muHi.toNat * 2 ^ 128 +
      (lo.toNat * muHi.toNat + hi.toNat * muLo.toNat) * 2 ^ 64 + lo.toNat * muLo.toNat := by
    rw [hx, hmu]
    ring
  rw [hprod] at hfits ⊢
  have hle : ∀ a b : UInt64, a.toNat * b.toNat ≤ (2 ^ 64 - 1) * (2 ^ 64 - 1) := fun a b =>
    Nat.mul_le_mul (Nat.le_sub_one_of_lt a.toNat_lt) (Nat.le_sub_one_of_lt b.toNat_lt)
  have h0 := hle lo muLo
  have h1 := hle lo muHi
  have h2 := hle hi muLo
  simp only [barrettQuotient, UInt64.toNat_add, UInt64.toNat_mul, toNat_mulHi64, toNat_bit,
    UInt64.lt_iff_toNat_lt]
  generalize lo.toNat * muLo.toNat = s0 at *
  generalize lo.toNat * muHi.toNat = s1 at *
  generalize hi.toNat * muLo.toNat = s2 at *
  generalize hi.toNat * muHi.toNat = s3 at *
  split_ifs <;> omega

/-- **One subtraction reduces, also when the remainder has 65 bits.** -/
theorem barrettReduce_spec {lo hi mod muLo muHi : UInt64} {x mu : ℕ} (hmod : 0 < mod.toNat)
    (hx : x = hi.toNat * 2 ^ 64 + lo.toNat) (hmu : mu = muHi.toNat * 2 ^ 64 + muLo.toNat)
    (hquot : mu = (2 ^ 128 - 1) / mod.toNat) (hlt : x < mod.toNat * mod.toNat) :
    (barrettReduce route lo hi mod muLo muHi).toNat = x % mod.toNat := by
  have hmodlt := mod.toNat_lt
  have hsquare : mod.toNat * mod.toNat ≤ 2 ^ 64 * 2 ^ 64 := Nat.mul_le_mul hmodlt.le hmodlt.le
  have hle : mu * mod.toNat ≤ 2 ^ 128 - 1 := hquot ▸ Nat.div_mul_le_self _ _
  have hgt : 2 ^ 128 - 1 < mu * mod.toNat + mod.toNat := by
    rw [hquot, ← Nat.succ_mul, Nat.mul_comm]
    exact Nat.lt_mul_div_succ _ hmod
  obtain ⟨hlow, hhigh⟩ := Reciprocal.barrett_of_le (c := mu) (e := 2 ^ 128 - mu * mod.toNat)
    (W := 2 ^ 128) (x := x) hmod (by omega) (by omega) (by omega)
  have hq64 : x * mu / 2 ^ 128 < 2 ^ 64 := by
    refine lt_of_mul_lt_mul_right (hlow.trans_lt (hlt.trans ?_)) (Nat.zero_le mod.toNat)
    exact Nat.mul_lt_mul_of_pos_right hmodlt hmod
  have hq := barrettQuotient_spec route hx hmu hq64
  rw [← hq] at hlow hhigh
  rw [← Reciprocal.mod_of_quotient hlow hhigh, barrettReduce]
  set q := barrettQuotient route lo hi muLo muHi
  rw [Nat.add_mul] at hhigh
  have hlo := lo.toNat_lt
  have hmul : (q * mod).toNat = q.toNat * mod.toNat % 2 ^ 64 := UInt64.toNat_mul _ _
  have hmulHi := toNat_mulHi64 route q mod
  have hr : (lo - q * mod).toNat = (2 ^ 64 - (q * mod).toNat + lo.toNat) % 2 ^ 64 :=
    UInt64.toNat_sub _ _
  have hrh : (hi - mulHi64 route q mod - if lo < q * mod then 1 else 0).toNat =
      (x - q.toNat * mod.toNat) / 2 ^ 64 := by
    simp only [UInt64.toNat_sub, toNat_bit, UInt64.lt_iff_toNat_lt, hmul, hmulHi]
    have hhi := hi.toNat_lt
    split_ifs <;> omega
  have hover : (hi - mulHi64 route q mod - if lo < q * mod then 1 else 0) ≠ 0 ∨
      mod ≤ lo - q * mod ↔ mod.toNat ≤ x - q.toNat * mod.toNat := by
    rw [Ne, ← UInt64.toNat_inj, hrh, UInt64.toNat_zero, UInt64.le_iff_toNat_le]
    omega
  simp only [hover]
  split_ifs with hbig
  · rw [UInt64.toNat_sub]
    omega
  · omega

/-! ## Powers -/

theorem mulMod_spec {mod a b : UInt64} (ha : a < mod) (hb : b < mod) :
    (mulMod route mod (reciprocal route mod) a b).toNat = a.toNat * b.toNat % mod.toNat := by
  rw [UInt64.lt_iff_toNat_lt] at ha hb
  have hmod : 0 < mod.toNat := Nat.zero_lt_of_lt ha
  refine barrettReduce_spec route hmod ?_ rfl (reciprocal_spec route hmod) (Nat.mul_lt_mul'' ha hb)
  rw [toNat_mulHi64, UInt64.toNat_mul, Nat.div_add_mod']

theorem mulMod_lt {mod a b : UInt64} (ha : a < mod) (hb : b < mod) :
    mulMod route mod (reciprocal route mod) a b < mod := by
  rw [UInt64.lt_iff_toNat_lt, mulMod_spec route ha hb]
  exact Nat.mod_lt _ (Nat.zero_lt_of_lt (UInt64.lt_iff_toNat_lt.mp ha))

theorem odd_iff (exp : UInt64) : exp &&& 1 ≠ 0 ↔ exp.toNat % 2 = 1 := by
  have hand : (exp &&& 1).toNat = exp.toNat % 2 := by
    rw [UInt64.toNat_and]
    exact Nat.and_one_is_mod exp.toNat
  rw [Ne, ← UInt64.toNat_inj, hand, UInt64.toNat_zero]
  omega

/-- The bit of a turn goes into `out`. -/
theorem multiply_spec {mod out base exp : UInt64} (hout : out < mod) (hbase : base < mod) :
    (if exp &&& 1 ≠ 0 then mulMod route mod (reciprocal route mod) out base else out) < mod ∧
      (if exp &&& 1 ≠ 0 then mulMod route mod (reciprocal route mod) out base else out).toNat ≡
        out.toNat * base.toNat ^ (exp.toNat % 2) [MOD mod.toNat] := by
  split_ifs with hbit
  · rw [odd_iff] at hbit
    refine ⟨mulMod_lt route hout hbase, ?_⟩
    rw [mulMod_spec route hout hbase, hbit, Nat.pow_one]
    exact Nat.mod_modEq _ _
  · rw [odd_iff, Nat.mod_two_not_eq_one] at hbit
    refine ⟨hout, ?_⟩
    rw [hbit, Nat.pow_zero, Nat.mul_one]

/-- The base of the next turn, which is squared only when there is one. -/
theorem square_spec {mod base exp : UInt64} (hbase : base < mod) :
    (if exp ≠ 0 then mulMod route mod (reciprocal route mod) base base else base) < mod ∧
      (if exp ≠ 0 then mulMod route mod (reciprocal route mod) base base else base).toNat ^
        exp.toNat ≡ (base.toNat ^ 2) ^ exp.toNat [MOD mod.toNat] := by
  split_ifs with hexp
  · refine ⟨mulMod_lt route hbase hbase, Nat.ModEq.pow _ ?_⟩
    rw [mulMod_spec route hbase hbase, Nat.pow_two]
    exact Nat.mod_modEq _ _
  · rw [not_not.mp hexp]
    exact ⟨hbase, Nat.ModEq.refl 1⟩

/-- What the loop multiplies `out` by is the power of `base`. -/
theorem powLoop_spec {mod out base exp : UInt64} (hout : out < mod) (hbase : base < mod) :
    (powLoop route mod (reciprocal route mod) out base exp).toNat =
      out.toNat * base.toNat ^ exp.toNat % mod.toNat := by
  induction h : exp.toNat using Nat.strong_induction_on generalizing out base exp with
  | _ n ih =>
    rw [powLoop]
    by_cases hzero : exp = 0
    · rw [dif_pos hzero, ← h, hzero, UInt64.toNat_zero, Nat.pow_zero, Nat.mul_one,
        Nat.mod_eq_of_lt (UInt64.lt_iff_toNat_lt.mp hout)]
    rw [dif_neg hzero]
    obtain ⟨hout', hmultiplied⟩ := @multiply_spec route _ _ _ exp hout hbase
    obtain ⟨hbase', hsquared⟩ := @square_spec route _ _ (exp >>> 1) hbase
    have hhalf : (exp >>> 1).toNat = n / 2 := h ▸ toNat_shiftRight_of_lt (by decide)
    have hless : (exp >>> 1).toNat < n := h ▸ toNat_shiftRight_one_lt hzero
    rw [ih _ hless hout' hbase' rfl]
    refine (hmultiplied.mul hsquared).trans ?_
    have hpow : (base.toNat ^ 2) ^ (n / 2) = base.toNat ^ (2 * (n / 2)) := (Nat.pow_mul _ _ _).symm
    rw [h, hhalf, hpow, Nat.mul_assoc, ← Nat.pow_add, Nat.mod_add_div]

/-- The power modulo `max mod 1`. -/
theorem modpow_spec {base exp mod : UInt64}
    (h : 1 ≤ exp.toNat ∨ ¬ max mod.toNat 1 ∣ base.toNat) :
    (modpow route base exp mod).toNat = base.toNat ^ exp.toNat % max mod.toNat 1 := by
  rw [← toNat_atLeastOne] at h ⊢
  rw [modpow]
  have hpos : 0 < (mod + if mod = 0 then 1 else 0).toNat := by
    rw [toNat_atLeastOne]
    exact lt_max_of_lt_right Nat.one_pos
  dsimp only
  set m := mod + if mod = 0 then 1 else 0
  by_cases hone : m = 1
  · rw [if_pos hone, hone, UInt64.toNat_one, Nat.mod_one, UInt64.toNat_zero]
  rw [if_neg hone]
  have hone' : m.toNat ≠ 1 := fun h1 => hone (UInt64.toNat_inj.mp h1)
  have hb : (base % m).toNat = base.toNat % m.toNat := UInt64.toNat_mod _ _
  have hpow : base.toNat ^ exp.toNat % m.toNat = (base % m).toNat ^ exp.toNat % m.toNat := by
    rw [hb, ← Nat.pow_mod]
  have hblt : base % m < m := by
    rw [UInt64.lt_iff_toNat_lt, hb]
    exact Nat.mod_lt _ hpos
  have hblt' := UInt64.lt_iff_toNat_lt.mp hblt
  rw [Nat.dvd_iff_mod_eq_zero, ← hb] at h
  rw [hpow]
  set b := base % m
  by_cases hsmall : b < 2
  · rw [if_pos hsmall]
    rw [UInt64.lt_iff_toNat_lt] at hsmall
    change b.toNat < 2 at hsmall
    obtain hb0 | hb1 : b.toNat = 0 ∨ b.toNat = 1 := by omega
    · rw [hb0] at h ⊢
      rw [Nat.zero_pow (by omega), Nat.zero_mod]
    · rw [hb1, Nat.one_pow, Nat.mod_eq_of_lt (by omega)]
  rw [if_neg hsmall]
  have hone_lt : (1 : UInt64) < m := by
    rw [UInt64.lt_iff_toNat_lt, UInt64.toNat_one]
    omega
  by_cases hexp : exp = 0
  · rw [if_pos hexp, hexp, UInt64.toNat_zero, Nat.pow_zero]
    exact (Nat.mod_eq_of_lt (UInt64.lt_iff_toNat_lt.mp hone_lt)).symm
  · rw [if_neg hexp, powLoop_spec route hone_lt hblt, UInt64.toNat_one, Nat.one_mul]

/-- **Modular powers are exact.** -/
theorem modular_power_exact (mod : UInt64) :
    (0 < mod.toNat → (reciprocal route mod).2.toNat * 2 ^ 64 + (reciprocal route mod).1.toNat =
      (2 ^ 128 - 1) / mod.toNat) ∧
    (∀ lo hi : UInt64, hi.toNat * 2 ^ 64 + lo.toNat < mod.toNat * mod.toNat →
      (barrettReduce route lo hi mod (reciprocal route mod).1 (reciprocal route mod).2).toNat =
        (hi.toNat * 2 ^ 64 + lo.toNat) % mod.toNat) ∧
    ∀ base exp : UInt64, 1 ≤ exp.toNat ∨ ¬ max mod.toNat 1 ∣ base.toNat →
      (modpow route base exp mod).toNat = base.toNat ^ exp.toNat % max mod.toNat 1 := by
  refine ⟨fun hmod => reciprocal_spec route hmod, fun lo hi hlt => ?_, fun _ _ h =>
    modpow_spec route h⟩
  have hmod : 0 < mod.toNat := Nat.pos_of_ne_zero fun h => by simp [h] at hlt
  exact barrettReduce_spec route hmod rfl rfl (reciprocal_spec route hmod) hlt

theorem modular_power_exact_five :
    (modpow ⟨false, true, false⟩ 3 2 5).toNat = 3 ^ 2 % max 5 1 :=
  (modular_power_exact ⟨false, true, false⟩ 5).2.2 3 2 (Or.inl (by decide))

end MoMiner.Xelis
