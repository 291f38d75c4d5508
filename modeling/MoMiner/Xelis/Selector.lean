import Mathlib.Data.Nat.Sqrt
import Mathlib.Tactic.IntervalCases
import MoMiner.Xelis.Division
import MoMiner.Xelis.Walk

/-!
# The operation selector of XelisHash

The sixteen consensus operations, as the kernel computes them. Nine of them share one expression
and five share one division, in which masks remove the operands of the operations that are not
selected; two divide by two words. The square root is the exact one.

Main result: `operation_eq_reference`.
-/

namespace MoMiner.Xelis

variable (route : Route)

/-! ## The selector -/

def murmur (x : UInt64) : UInt64 :=
  let x := x ^^^ (x >>> 55)
  let x := x * 0xff51afd7ed558ccd
  let x := x ^^^ (x >>> 32)
  let x := x * 0xc4ceb9fe1a85ec53
  x ^^^ (x >>> 15)

/-- The floor of the square root. -/
def isqrt64 (x : UInt64) : UInt64 :=
  UInt64.ofNat x.toNat.sqrt

/-- All ones when selected. -/
def mask (selected : Bool) : UInt64 :=
  0 - if selected then 1 else 0

/-- Operations 11 and 13. -/
def wideOperation (op : UInt32) (a b c : UInt64) (r : UInt32) (result : UInt64) : UInt64 :=
  let t0 := rotl64 result r
  if op = 11 then
    let divisorLo := a ||| 2
    let divisorGreater := b < t0 ∨ b = t0 ∧ c < divisorLo
    if divisorGreater then c else (divmod128By128 route b c t0 divisorLo).2
  else
    let divisorLo := c ||| 8
    let numeratorGreater := t0 > a ∨ t0 = a ∧ b > divisorLo
    if ¬ numeratorGreater then a ^^^ b else (divmod128By128 route t0 b a divisorLo).1

/-- Operations 3 to 9, 14 and 15. -/
def arithmeticOperation (op : UInt32) (a b c : UInt64) (r : UInt32) (result : UInt64) : UInt64 :=
  let m3 := mask (op == 3)
  let m4 := mask (op == 4)
  let m5 := mask (op == 5)
  let m6 := mask (op == 6)
  let m7 := mask (op == 7)
  let m8 := mask (op == 8)
  let m9 := mask (op == 9)
  let m14 := mask (op == 14)
  let m15 := mask (op == 15)
  let ab := a * b
  let ac := a * c
  let bc := b * c
  let cx := (ac &&& (m3 ||| m8)) ||| (ab &&& m4) ||| (c &&& m5) ||| (a &&& m6) ||| (bc &&& m7)
  let cy := (bc &&& m3) ||| (b &&& m5) ||| (c &&& m6) ||| (a &&& m7) ||| (b &&& m8)
  let cz := (ac &&& m4) ||| (a &&& m5) ||| (b &&& m6)
  let mhi := m14 ||| m15
  let hp := (a &&& m14) ||| (c &&& m15)
  let hq := (c &&& m14) ||| (b &&& m15)
  let hn := (bc &&& m14) ||| ((ab + c * rotr64 result r) &&& m15)
  (cx + cy - cz) ||| (ab * c &&& m9) ||| ((mulHi64 route hp hq + hn) &&& mhi)

/-- The square roots and the division that operations 0, 1, 2, 10 and 12 share. -/
structure DivisionGroup where
  sq0 : UInt64
  sq1 : UInt64
  hi : UInt64
  lo : UInt64
  divisor : UInt64

def divisionGroup (op : UInt32) (a b c result : UInt64) (i j : UInt32) : DivisionGroup :=
  let mur := murmur (c ^^^ result ^^^ i.toUInt64 ^^^ j.toUInt64) ||| 1
  let m0 := mask (op == 0)
  let m1 := mask (op == 1)
  let m2 := mask (op == 2)
  let m10 := mask (op == 10)
  let m12 := mask (op == 12)
  let pa := m0 ||| m10 ||| m12
  let pb := m1
  let pc := m2
  let sq0 := isqrt64 (((b + j.toUInt64) &&& pa) ||| ((b ||| 2) &&& pb) |||
    ((a + i.toUInt64) &&& pc))
  let sq1 := isqrt64 (((a + j.toUInt64) &&& pb) ||| ((c + j.toUInt64) &&& pc) |||
    (4 &&& ~~~(pb ||| pc)))
  let hi := ((a + i.toUInt64) &&& m0) ||| (a &&& m10) ||| (c &&& m12) ||| ~~~pa
  let lo := (sq0 &&& m0) ||| (b &&& m10) ||| (a &&& m12)
  let divisor := (mur &&& m0) ||| ((c ||| 1) &&& m10) ||| ((b ||| 4) &&& m12) ||| ~~~pa
  let num := ((c + i.toUInt64) &&& m1) ||| ~~~pb
  let den0 := (sq0 &&& m1) ||| ~~~pb
  let den := den0 + if den0 = 0 then 1 else 0
  { sq0, sq1
    hi := hi &&& pa
    lo := (lo &&& pa) ||| (num &&& pb) ||| (1 &&& ~~~(pa ||| pb))
    divisor := (divisor &&& pa) ||| (den &&& pb) ||| (1 &&& ~~~(pa ||| pb)) }

/-- Operations 0, 1, 2, 10 and 12. -/
def divisionOperation (op : UInt32) (a b c result : UInt64) (i j : UInt32) : UInt64 :=
  let g := divisionGroup op a b c result i j
  let m0 := mask (op == 0)
  let m1 := mask (op == 1)
  let m2 := mask (op == 2)
  let m10 := mask (op == 10)
  let m12 := mask (op == 12)
  let pa := m0 ||| m10 ||| m12
  let divided := divmod128Fast route g.hi g.lo g.divisor
  let ra := (divided.2 &&& (m0 ||| m10)) ||| (divided.1 &&& m12)
  let rb := rotl64 divided.2 (i + j) * g.sq1 &&& m1
  let rc := (g.sq0 * g.sq1) ^^^ (b + i.toUInt64 + j.toUInt64)
  (ra &&& pa) ||| (rb &&& m1) ||| (rc &&& m2)

def operation (op : UInt32) (a b c : UInt64) (r : UInt32) (result : UInt64) (i j : UInt32) :
    UInt64 :=
  if op = 11 ∨ op = 13 then wideOperation route op a b c r result
  else if 3 ≤ op ∧ (op ≤ 9 ∨ 14 ≤ op) then arithmeticOperation route op a b c r result
  else divisionOperation route op a b c result i j

/-! ## The consensus operations -/

/-- The number of two words. -/
def combine (hi lo : UInt64) : ℕ :=
  hi.toNat * 2 ^ 64 + lo.toNat

/-- The rotation of a word by any amount. -/
def rotateLeft (x : UInt64) (n : ℕ) : UInt64 :=
  ⟨x.toBitVec.rotateLeft n⟩

def rotateRight (x : UInt64) (n : ℕ) : UInt64 :=
  ⟨x.toBitVec.rotateRight n⟩

/-- The plain definition of the sixteen operations. -/
def reference (op : ℕ) (a b c : UInt64) (r : UInt32) (result : UInt64) (i j : UInt32) : UInt64 :=
  let t0 := rotateLeft result r.toNat
  let i' := i.toUInt64
  let j' := j.toUInt64
  match op with
  | 0 => UInt64.ofNat (combine (a + i') (isqrt64 (b + j')) %
      (murmur (c ^^^ result ^^^ i' ^^^ j') ||| 1).toNat)
  | 1 => rotateLeft ((c + i') % isqrt64 (b ||| 2)) (i + j).toNat * isqrt64 (a + j')
  | 2 => (isqrt64 (a + i') * isqrt64 (c + j')) ^^^ (b + i' + j')
  | 3 => (a + b) * c
  | 4 => (b - c) * a
  | 5 => c - a + b
  | 6 => a - b + c
  | 7 => b * c + a
  | 8 => c * a + b
  | 9 => a * b * c
  | 10 => UInt64.ofNat (combine a b % (c ||| 1).toNat)
  | 11 =>
    if combine t0 (a ||| 2) > combine b c then c
    else UInt64.ofNat (combine b c % combine t0 (a ||| 2))
  | 12 => UInt64.ofNat (combine c a / (b ||| 4).toNat)
  | 13 =>
    if combine t0 b > combine a (c ||| 8) then
      UInt64.ofNat (combine t0 b / combine a (c ||| 8))
    else a ^^^ b
  | 14 => UInt64.ofNat (combine b a * c.toNat / 2 ^ 64)
  | 15 => UInt64.ofNat (combine a c * combine (rotateRight result r.toNat) b / 2 ^ 64)
  | _ => 0

/-! ## Rotations -/

/-- Shifts by amounts that add to whole words rotate. -/
theorem shift_or_shift (x : UInt64) {p q : UInt64} (h : (p.toNat + q.toNat) % 64 = 0) :
    (x <<< p ||| x >>> q).toBitVec = x.toBitVec.rotateLeft p.toNat ∧
      (x <<< p ||| x >>> q).toBitVec = x.toBitVec.rotateRight q.toNat := by
  have hleft : (p.toBitVec % 64).toNat = p.toNat % 64 := BitVec.toNat_umod
  have hright : (q.toBitVec % 64).toNat = q.toNat % 64 := BitVec.toNat_umod
  rw [BitVec.rotateLeft_def, BitVec.rotateRight_def, UInt64.toBitVec_or, UInt64.toBitVec_shiftLeft,
    UInt64.toBitVec_shiftRight, BitVec.shiftLeft_eq', BitVec.ushiftRight_eq', hleft, hright]
  by_cases hzero : p.toNat % 64 = 0
  · have hq : q.toNat % 64 = 0 := by omega
    simp [hzero, hq, BitVec.ushiftRight_eq_zero]
  · have hq : 64 - p.toNat % 64 = q.toNat % 64 := by omega
    have hp : 64 - q.toNat % 64 = p.toNat % 64 := by omega
    rw [hq, hp]
    exact ⟨rfl, BitVec.or_comm _ _⟩

theorem neg_amount (n : UInt64) : (n.toNat + (0 - n).toNat) % 64 = 0 := by
  have hn := n.toNat_lt
  rw [UInt64.toNat_sub, UInt64.toNat_zero]
  omega

theorem rotl64_eq (x : UInt64) (n : UInt32) : rotl64 x n = rotateLeft x n.toNat := by
  rw [rotl64, rotateLeft, ← UInt64.toBitVec_inj, (shift_or_shift x (neg_amount _)).1,
    UInt32.toNat_toUInt64]

theorem rotr64_eq (x : UInt64) (n : UInt32) : rotr64 x n = rotateRight x n.toNat := by
  have hn := n.toNat_lt
  have hamount : (0 - (0 - n).toUInt64).toNat % 64 = n.toNat % 64 := by
    rw [UInt64.toNat_sub, UInt32.toNat_toUInt64, UInt32.toNat_sub, UInt64.toNat_zero,
      UInt32.toNat_zero]
    omega
  rw [rotr64, rotl64, rotateRight, ← UInt64.toBitVec_inj, (shift_or_shift x (neg_amount _)).2,
    ← BitVec.rotateRight_mod_eq_rotateRight, hamount, BitVec.rotateRight_mod_eq_rotateRight]

/-! ## Masks -/

@[simp] theorem mask_true : mask true = -1 := rfl

@[simp] theorem mask_false : mask false = 0 := rfl

theorem toNat_isqrt64 (x : UInt64) : (isqrt64 x).toNat = x.toNat.sqrt := by
  rw [isqrt64, UInt64.toNat_ofNat', Nat.mod_eq_of_lt ((Nat.sqrt_le_self _).trans_lt x.toNat_lt)]

/-- The high word of a product of two words with one. -/
theorem mulHi64_add (a b c : UInt64) :
    mulHi64 route a c + b * c = UInt64.ofNat (combine b a * c.toNat / 2 ^ 64) := by
  have hprod : combine b a * c.toNat = a.toNat * c.toNat + 2 ^ 64 * (b.toNat * c.toNat) := by
    rw [combine]
    ring
  rw [← UInt64.toNat_inj, UInt64.toNat_add, UInt64.toNat_mul, toNat_mulHi64, UInt64.toNat_ofNat',
    hprod, Nat.add_mul_div_left _ _ (by norm_num), Nat.add_mod_mod]

/-- The second word of a product of two words with two. -/
theorem mulHi64_add_cross (a b c t : UInt64) :
    mulHi64 route c b + (a * b + c * t) =
      UInt64.ofNat (combine a c * combine t b / 2 ^ 64) := by
  have hprod : combine a c * combine t b = c.toNat * b.toNat +
      2 ^ 64 * (a.toNat * b.toNat + c.toNat * t.toNat + 2 ^ 64 * (a.toNat * t.toNat)) := by
    rw [combine, combine]
    ring
  rw [← UInt64.toNat_inj, UInt64.toNat_add, UInt64.toNat_add, UInt64.toNat_mul, UInt64.toNat_mul,
    toNat_mulHi64, UInt64.toNat_ofNat', hprod, Nat.add_mul_div_left _ _ (by norm_num)]
  omega

theorem add_sub_right (x y z : UInt64) : x + y - z = x - z + y := by
  rw [UInt64.sub_eq_add_neg, UInt64.sub_eq_add_neg, UInt64.add_assoc, UInt64.add_comm y,
    ← UInt64.add_assoc]

/-- **The masked expression is the selected operation.** -/
theorem arithmeticOperation_eq {op : ℕ} (hop : 3 ≤ op ∧ op ≤ 9 ∨ op = 14 ∨ op = 15)
    (a b c : UInt64) (r : UInt32) (result : UInt64) (i j : UInt32) :
    arithmeticOperation route (UInt32.ofNat op) a b c r result =
      reference op a b c r result i j := by
  obtain ⟨hlow, hhigh⟩ | rfl | rfl := hop
  · interval_cases op
    · change _ = (a + b) * c
      simp [arithmeticOperation, UInt64.add_mul]
    · change _ = (b - c) * a
      rw [UInt64.sub_mul, UInt64.mul_comm b, UInt64.mul_comm c]
      simp [arithmeticOperation]
    · change _ = c - a + b
      rw [← add_sub_right]
      simp [arithmeticOperation]
    · change _ = a - b + c
      rw [← add_sub_right]
      simp [arithmeticOperation]
    · change _ = b * c + a
      simp [arithmeticOperation]
    · change _ = c * a + b
      simp [arithmeticOperation, UInt64.mul_comm]
    · change _ = a * b * c
      simp [arithmeticOperation]
  · refine Eq.trans ?_ (mulHi64_add route a b c)
    simp [arithmeticOperation]
  · change _ = UInt64.ofNat (combine a c * combine (rotateRight result r.toNat) b / 2 ^ 64)
    rw [← rotr64_eq, ← mulHi64_add_cross route]
    simp [arithmeticOperation]

/-! ## Wide divisors -/

theorem or_ne_zero (x : UInt64) {y : UInt64} (hy : y ≠ 0) : x ||| y ≠ 0 := by
  intro h
  have hle : y.toNat ≤ (x ||| y).toNat := by
    rw [UInt64.toNat_or]
    exact Nat.right_le_or
  rw [h, UInt64.toNat_zero, Nat.le_zero] at hle
  exact hy (UInt64.toNat_inj.mp hle)

theorem combine_lt_iff (hi lo hi' lo' : UInt64) :
    hi < hi' ∨ hi = hi' ∧ lo < lo' ↔ combine hi lo < combine hi' lo' := by
  have hlo := lo.toNat_lt
  have hlo' := lo'.toNat_lt
  rw [UInt64.lt_iff_toNat_lt, UInt64.lt_iff_toNat_lt, ← UInt64.toNat_inj, combine, combine]
  omega

theorem combine_pos (hi : UInt64) {lo : UInt64} (hlo : lo ≠ 0) : 0 < combine hi lo := by
  have hpos : 0 < lo.toNat := Nat.pos_of_ne_zero fun h => hlo (UInt64.toNat_inj.mp h)
  rw [combine]
  omega

/-- The division of numbers of two words. -/
theorem divmod128By128_combine (hi lo dh : UInt64) {dl : UInt64} (hdl : dl ≠ 0) :
    (divmod128By128 route hi lo dh dl).1 = UInt64.ofNat (combine hi lo / combine dh dl) ∧
      (divmod128By128 route hi lo dh dl).2 = UInt64.ofNat (combine hi lo % combine dh dl) := by
  obtain ⟨hq, hr⟩ := divmod128By128_spec route hi lo dh dl rfl rfl (combine_pos dh hdl)
  rw [← UInt64.toNat_inj, ← UInt64.toNat_inj, UInt64.toNat_ofNat', UInt64.toNat_ofNat']
  exact ⟨hq, hr⟩

theorem wideOperation_eq {op : ℕ} (hop : op = 11 ∨ op = 13) (a b c : UInt64) (r : UInt32)
    (result : UInt64) (i j : UInt32) :
    wideOperation route (UInt32.ofNat op) a b c r result = reference op a b c r result i j := by
  obtain rfl | rfl := hop
  · rw [wideOperation, if_pos (by decide), rotl64_eq]
    dsimp only
    rw [(divmod128By128_combine route b c _ (or_ne_zero a (by decide))).2]
    delta reference
    simp only [combine_lt_iff, gt_iff_lt]
  · rw [wideOperation, if_neg (by decide), rotl64_eq]
    dsimp only
    rw [(divmod128By128_combine route _ b a (or_ne_zero c (by decide))).1]
    delta reference
    simp only [gt_iff_lt, eq_comm (b := a), combine_lt_iff, ite_not]

/-! ## The shared division -/

theorem divmod128Fast_combine (hi lo : UInt64) {d : UInt64} (hd : d ≠ 0) :
    (divmod128Fast route hi lo d).1 = UInt64.ofNat (combine hi lo / d.toNat) ∧
      (divmod128Fast route hi lo d).2 = UInt64.ofNat (combine hi lo % d.toNat) := by
  have hpos : 0 < d.toNat := Nat.pos_of_ne_zero fun h => hd (UInt64.toNat_inj.mp h)
  obtain ⟨hq, hr⟩ := divmod128Fast_spec route hi lo d
  rw [max_eq_left hpos] at hq hr
  have hrlt : combine hi lo % d.toNat < 2 ^ 64 := (Nat.mod_lt _ hpos).trans d.toNat_lt
  rw [← UInt64.toNat_inj, ← UInt64.toNat_inj, UInt64.toNat_ofNat', UInt64.toNat_ofNat',
    Nat.mod_eq_of_lt hrlt]
  exact ⟨hq, hr⟩

theorem isqrt64_ne_zero {x : UInt64} (hx : x ≠ 0) : isqrt64 x ≠ 0 := by
  intro h
  have hpos : 0 < x.toNat := Nat.pos_of_ne_zero fun h0 => hx (UInt64.toNat_inj.mp h0)
  have hsqrt := Nat.sqrt_pos.mpr hpos
  rw [← toNat_isqrt64, h, UInt64.toNat_zero] at hsqrt
  exact absurd hsqrt (Nat.lt_irrefl 0)

variable (a b c result : UInt64) (i j : UInt32)

theorem divisionGroup_zero :
    (divisionGroup 0 a b c result i j).hi = a + i.toUInt64 ∧
      (divisionGroup 0 a b c result i j).lo = isqrt64 (b + j.toUInt64) ∧
      (divisionGroup 0 a b c result i j).divisor =
        murmur (c ^^^ result ^^^ i.toUInt64 ^^^ j.toUInt64) ||| 1 := by
  simp [divisionGroup]

theorem divisionGroup_one :
    (divisionGroup 1 a b c result i j).sq1 = isqrt64 (a + j.toUInt64) ∧
      (divisionGroup 1 a b c result i j).hi = 0 ∧
      (divisionGroup 1 a b c result i j).lo = c + i.toUInt64 ∧
      (divisionGroup 1 a b c result i j).divisor = isqrt64 (b ||| 2) := by
  have hne : isqrt64 (b ||| 2) ≠ 0 := isqrt64_ne_zero (or_ne_zero b (by decide))
  simp [divisionGroup, hne]

theorem divisionGroup_two :
    (divisionGroup 2 a b c result i j).sq0 = isqrt64 (a + i.toUInt64) ∧
      (divisionGroup 2 a b c result i j).sq1 = isqrt64 (c + j.toUInt64) ∧
      (divisionGroup 2 a b c result i j).hi = 0 ∧
      (divisionGroup 2 a b c result i j).lo = 1 ∧
      (divisionGroup 2 a b c result i j).divisor = 1 := by
  simp [divisionGroup]

theorem divisionGroup_ten :
    (divisionGroup 10 a b c result i j).hi = a ∧ (divisionGroup 10 a b c result i j).lo = b ∧
      (divisionGroup 10 a b c result i j).divisor = c ||| 1 := by
  simp [divisionGroup]

theorem divisionGroup_twelve :
    (divisionGroup 12 a b c result i j).hi = c ∧ (divisionGroup 12 a b c result i j).lo = a ∧
      (divisionGroup 12 a b c result i j).divisor = b ||| 4 := by
  simp [divisionGroup]

theorem divisionOperation_eq {op : ℕ} (hop : op ≤ 2 ∨ op = 10 ∨ op = 12) (r : UInt32) :
    divisionOperation route (UInt32.ofNat op) a b c result i j =
      reference op a b c r result i j := by
  have hone : (1 : UInt64) ≠ 0 := by decide
  delta reference
  obtain hlow | rfl | rfl := hop
  · interval_cases op
    · obtain ⟨hhi, hlo, hd⟩ := divisionGroup_zero a b c result i j
      change divisionOperation route 0 a b c result i j = _
      rw [divisionOperation]
      simp [hhi, hlo, hd, (divmod128Fast_combine route _ _ (or_ne_zero _ hone)).2]
    · obtain ⟨hsq1, hhi, hlo, hd⟩ := divisionGroup_one a b c result i j
      have hne : isqrt64 (b ||| 2) ≠ 0 := isqrt64_ne_zero (or_ne_zero b (by decide))
      have hrem : (divmod128Fast route 0 (c + i.toUInt64) (isqrt64 (b ||| 2))).2 =
          (c + i.toUInt64) % isqrt64 (b ||| 2) := by
        rw [(divmod128Fast_combine route _ _ hne).2, ← UInt64.toNat_inj, UInt64.toNat_ofNat',
          UInt64.toNat_mod, combine, UInt64.toNat_zero, Nat.zero_mul, Nat.zero_add]
        exact Nat.mod_eq_of_lt ((Nat.mod_le _ _).trans_lt (UInt64.toNat_lt _))
      change divisionOperation route 1 a b c result i j = _
      rw [divisionOperation]
      simp [hsq1, hhi, hlo, hd, hrem, rotl64_eq]
    · obtain ⟨hsq0, hsq1, -⟩ := divisionGroup_two a b c result i j
      change divisionOperation route 2 a b c result i j = _
      rw [divisionOperation]
      simp [hsq0, hsq1]
  · obtain ⟨hhi, hlo, hd⟩ := divisionGroup_ten a b c result i j
    change divisionOperation route 10 a b c result i j = _
    rw [divisionOperation]
    simp [hhi, hlo, hd, (divmod128Fast_combine route _ _ (or_ne_zero _ hone)).2]
  · obtain ⟨hhi, hlo, hd⟩ := divisionGroup_twelve a b c result i j
    change divisionOperation route 12 a b c result i j = _
    rw [divisionOperation]
    simp [hhi, hlo, hd, (divmod128Fast_combine route c a (or_ne_zero b (y := 4) (by decide))).1]

/-- The operands of the shared division, whichever operation is selected. -/
theorem divisionGroup_operands {op : ℕ} (hop : op ≤ 2 ∨ op = 10 ∨ op = 12) :
    (divisionGroup (UInt32.ofNat op) a b c result i j).divisor ≠ 0 ∧
      (op = 1 ∨ op = 2 → (divisionGroup (UInt32.ofNat op) a b c result i j).hi = 0) := by
  have hone : (1 : UInt64) ≠ 0 := by decide
  obtain hlow | rfl | rfl := hop
  · interval_cases op
    · refine ⟨?_, fun h => absurd h (by decide)⟩
      exact (divisionGroup_zero a b c result i j).2.2 ▸ or_ne_zero _ hone
    · obtain ⟨-, hhi, -, hd⟩ := divisionGroup_one a b c result i j
      exact ⟨hd ▸ isqrt64_ne_zero (or_ne_zero b (by decide)), fun _ => hhi⟩
    · obtain ⟨-, -, hhi, -, hd⟩ := divisionGroup_two a b c result i j
      exact ⟨hd ▸ hone, fun _ => hhi⟩
  · refine ⟨?_, fun h => absurd h (by decide)⟩
    exact (divisionGroup_ten a b c result i j).2.2 ▸ or_ne_zero _ hone
  · refine ⟨?_, fun h => absurd h (by decide)⟩
    exact (divisionGroup_twelve a b c result i j).2.2 ▸ or_ne_zero _ (by decide)

theorem operation_eq {op : ℕ} (hop : op < 16) (r : UInt32) :
    operation route (UInt32.ofNat op) a b c r result i j = reference op a b c r result i j := by
  have hcases : (op = 11 ∨ op = 13) ∨ (3 ≤ op ∧ op ≤ 9 ∨ op = 14 ∨ op = 15) ∨
      (op ≤ 2 ∨ op = 10 ∨ op = 12) := by omega
  rw [operation]
  obtain hwide | harithmetic | hdivision := hcases
  · have hselect : UInt32.ofNat op = 11 ∨ UInt32.ofNat op = 13 := by
      interval_cases op <;> simp at hwide ⊢
    rw [if_pos hselect]
    exact wideOperation_eq route hwide a b c r result i j
  · have hselect : ¬ (UInt32.ofNat op = 11 ∨ UInt32.ofNat op = 13) ∧
        3 ≤ UInt32.ofNat op ∧ (UInt32.ofNat op ≤ 9 ∨ 14 ≤ UInt32.ofNat op) := by
      interval_cases op <;> simp at harithmetic ⊢
    rw [if_neg hselect.1, if_pos hselect.2]
    exact arithmeticOperation_eq route harithmetic a b c r result i j
  · have hselect : ¬ (UInt32.ofNat op = 11 ∨ UInt32.ofNat op = 13) ∧
        ¬ (3 ≤ UInt32.ofNat op ∧ (UInt32.ofNat op ≤ 9 ∨ 14 ≤ UInt32.ofNat op)) := by
      interval_cases op <;> simp at hdivision ⊢
    rw [if_neg hselect.1, if_neg hselect.2]
    exact divisionOperation_eq route a b c result i j hdivision r

/-- **The selector is the plain definition.** The divisors are never zero, and the operations that
divide one word or nothing give the division no upper word. -/
theorem operation_eq_reference (op : Fin 16) (r : UInt32) :
    operation route (UInt32.ofNat op) a b c r result i j = reference op a b c r result i j ∧
      (op.val ≤ 2 ∨ op.val = 10 ∨ op.val = 12 →
        (divisionGroup (UInt32.ofNat op) a b c result i j).divisor ≠ 0 ∧
          (op.val = 1 ∨ op.val = 2 →
            (divisionGroup (UInt32.ofNat op) a b c result i j).hi = 0)) ∧
      0 < combine (rotl64 result r) (a ||| 2) ∧ 0 < combine a (c ||| 8) :=
  ⟨operation_eq route a b c result i j op.isLt r, divisionGroup_operands a b c result i j,
    combine_pos _ (or_ne_zero a (by decide)), combine_pos a (or_ne_zero c (by decide))⟩

end MoMiner.Xelis
