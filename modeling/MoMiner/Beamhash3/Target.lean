import Mathlib.Data.Nat.Bitwise
import MoMiner.Lib.Bytes
import MoMiner.Lib.LimbArray

/-!
# The Beam difficulty test

A packed difficulty is a 24-bit mantissa with a hidden bit and an order. A hash reaches it when its
product with the mantissa is below a power of two that the order selects. The product is kept in
limbs of 16 bits and compared by its highest set bit.

Main result: `beam_target_exact`.
-/

namespace MoMiner.Beamhash3

open LimbArray (value)

/-! ## The product -/

/-- The number of a hash, which is stored highest byte first. -/
def hashNumber (hash : Vector UInt8 32) : ℕ := Bytes.ofBE hash.toList

/-- The limbs of a hash, lowest first. -/
def hashWord (hash : Vector UInt8 32) (i : Fin 16) : UInt16 :=
  ((hash.get ⟨31 - 2 * i - 1, by omega⟩).toUInt32 <<< 8 |||
    (hash.get ⟨31 - 2 * i, by omega⟩).toUInt32).toUInt16

/-- The limbs of the product while a row is added: what is left of the row and the carry. -/
structure Sums where
  prod : ℕ → UInt16
  rest : UInt64
  carry : UInt64

def addLimb (s : Sums) (k : ℕ) : Sums :=
  let sum := (s.prod k).toUInt64 + (s.rest &&& 0xffff).toUInt16.toUInt64 + s.carry
  { prod := Function.update s.prod k (sum &&& 0xffff).toUInt16
    rest := s.rest >>> 16
    carry := sum >>> 16 }

/-- A carry that is left over goes on. -/
def carryLimb (s : (ℕ → UInt16) × UInt64) (k : ℕ) : (ℕ → UInt16) × UInt64 :=
  if s.2 = 0 then s
  else
    let sum := (s.1 k).toUInt64 + s.2
    (Function.update s.1 k (sum &&& 0xffff).toUInt16, sum >>> 16)

/-- Add a limb of the hash times the mantissa. -/
def addRow (mantissa : UInt64) (prod : ℕ → UInt16) (i : ℕ) (word : UInt16) : ℕ → UInt16 :=
  let s := (List.range' i (min 4 (18 - i))).foldl addLimb ⟨prod, word.toUInt64 * mantissa, 0⟩
  ((List.range' (i + 4) (18 - (i + 4))).foldl carryLimb (s.prod, s.carry)).1

def product (hash : Vector UInt8 32) (mantissa : UInt64) : ℕ → UInt16 :=
  (List.finRange 16).foldl (fun prod i => addRow mantissa prod i.val (hashWord hash i)) fun _ => 0

/-! ## The comparison -/

def topBit (w : UInt16) : Option ℕ :=
  (List.range 16).reverse.find? fun b => w.toUInt32 &&& ((1 : UInt32) <<< UInt32.ofNat b) ≠ 0

/-- The index of the highest set bit of the product. -/
def highBit (prod : ℕ → UInt16) : Option ℕ :=
  (List.range 18).reverse.findSome? fun limb =>
    if prod limb = 0 then none else (topBit (prod limb)).map (limb * 16 + ·)

def mantissaOf (packed : UInt32) : UInt64 :=
  (((1 : UInt32) <<< 24) ||| (packed &&& (((1 : UInt32) <<< 24) - 1))).toUInt64

def beamTargetReached (hash : Vector UInt8 32) (packed : UInt32) : Bool :=
  if (232 : UInt32) <<< 24 < packed then false
  else
    let order := packed >>> 24
    let threshold := 280 - order
    match highBit (product hash (mantissaOf packed)) with
    | none => true
    | some highbit => highbit < threshold.toNat

/-! ## Rows -/

/-- The number in the limbs. -/
def number (prod : ℕ → UInt16) : ℕ := value (2 ^ 16) (fun i => (prod i).toNat) 18

theorem number_update {prod : ℕ → UInt16} {k : ℕ} (hk : k < 18) (w : UInt16) :
    number (Function.update prod k w) + (prod k).toNat * (2 ^ 16) ^ k =
      number prod + w.toNat * (2 ^ 16) ^ k :=
  LimbArray.value_update_words UInt16.toNat hk w

theorem number_lt (prod : ℕ → UInt16) : number prod < (2 ^ 16) ^ 18 :=
  LimbArray.value_lt fun i _ => (prod i).toNat_lt

theorem toNat_low (x : UInt64) : (x &&& 0xffff).toUInt16.toNat = x.toNat % 2 ^ 16 := by
  have hmask : (0xffff : UInt64).toNat = 2 ^ 16 - 1 := rfl
  rw [UInt64.toNat_toUInt16, UInt64.toNat_and, hmask, Nat.and_two_pow_sub_one_eq_mod]
  exact Nat.mod_mod _ _

theorem toNat_high (x : UInt64) : (x >>> 16).toNat = x.toNat / 2 ^ 16 := by
  simp [Nat.shiftRight_eq_div_pow]

/-- The limbs, the carry and the rest of a row, when the next limb is `k`. -/
def Sums.total (s : Sums) (k : ℕ) : ℕ :=
  number s.prod + (s.carry.toNat + s.rest.toNat) * (2 ^ 16) ^ k

theorem addLimb_spec {s : Sums} {k : ℕ} (hk : k < 18) (hcarry : s.carry.toNat ≤ 1) :
    (addLimb s k).total (k + 1) = s.total k ∧ (addLimb s k).carry.toNat ≤ 1 ∧
      (addLimb s k).rest.toNat = s.rest.toNat / 2 ^ 16 := by
  have hprod := (s.prod k).toNat_lt
  have hrest : s.rest.toNat % 2 ^ 16 < 2 ^ 16 := Nat.mod_lt _ (by decide)
  set sum := (s.prod k).toUInt64 + (s.rest &&& 0xffff).toUInt16.toUInt64 + s.carry with hsum
  have htoNat : sum.toNat = (s.prod k).toNat + s.rest.toNat % 2 ^ 16 + s.carry.toNat := by
    rw [hsum, UInt64.toNat_add, UInt64.toNat_add, UInt16.toNat_toUInt64, UInt16.toNat_toUInt64,
      toNat_low]
    omega
  have hlow := toNat_low sum
  have hhigh := toNat_high sum
  have hupdate := @number_update s.prod _ hk (sum &&& 0xffff).toUInt16
  rw [hlow] at hupdate
  refine ⟨?_, ?_, toNat_high s.rest⟩
  · have hsplit : sum.toNat % 2 ^ 16 + 2 ^ 16 * (sum.toNat / 2 ^ 16 + s.rest.toNat / 2 ^ 16) =
        (s.prod k).toNat + (s.carry.toNat + s.rest.toNat) := by omega
    change number (Function.update s.prod k (sum &&& 0xffff).toUInt16) +
      ((sum >>> 16).toNat + (s.rest >>> 16).toNat) * (2 ^ 16) ^ (k + 1) = _
    rw [hhigh, toNat_high s.rest, Sums.total]
    refine Nat.add_right_cancel (m := (s.prod k).toNat * (2 ^ 16) ^ k) ?_
    calc _ = number (Function.update s.prod k (sum &&& 0xffff).toUInt16) +
          (s.prod k).toNat * (2 ^ 16) ^ k +
          2 ^ 16 * (sum.toNat / 2 ^ 16 + s.rest.toNat / 2 ^ 16) * (2 ^ 16) ^ k := by ring
      _ = number s.prod + (sum.toNat % 2 ^ 16 +
          2 ^ 16 * (sum.toNat / 2 ^ 16 + s.rest.toNat / 2 ^ 16)) * (2 ^ 16) ^ k := by
        rw [hupdate]
        ring
      _ = _ := by
        rw [hsplit]
        ring
  · change (sum >>> 16).toNat ≤ 1
    rw [hhigh]
    omega

/-- The rest of a row and the carry after some limbs. -/
theorem foldl_addLimb {s : Sums} {i n : ℕ} (hn : i + n ≤ 18) (hcarry : s.carry.toNat ≤ 1) :
    ((List.range' i n).foldl addLimb s).total (i + n) = s.total i ∧
      ((List.range' i n).foldl addLimb s).carry.toNat ≤ 1 ∧
      ((List.range' i n).foldl addLimb s).rest.toNat = s.rest.toNat / (2 ^ 16) ^ n := by
  induction n generalizing s i with
  | zero => simpa using hcarry
  | succ n ih =>
    obtain ⟨htotal, hcarry', hrest⟩ := addLimb_spec (k := i) (by omega) hcarry
    obtain ⟨htotal', hcarry'', hrest'⟩ := ih (s := addLimb s i) (i := i + 1) (by omega) hcarry'
    have hindex : i + (n + 1) = i + 1 + n := by omega
    rw [List.range'_succ, List.foldl_cons, hindex]
    refine ⟨htotal'.trans htotal, hcarry'', ?_⟩
    rw [hrest', hrest, Nat.div_div_eq_div_mul, ← Nat.pow_succ']

theorem carryLimb_spec {s : (ℕ → UInt16) × UInt64} {k : ℕ} (hk : k < 18)
    (hcarry : s.2.toNat ≤ 1) :
    number (carryLimb s k).1 + (carryLimb s k).2.toNat * (2 ^ 16) ^ (k + 1) =
      number s.1 + s.2.toNat * (2 ^ 16) ^ k ∧ (carryLimb s k).2.toNat ≤ 1 := by
  rw [carryLimb]
  split_ifs with hzero
  · rw [hzero]
    simp
  have hprod := (s.1 k).toNat_lt
  set sum := (s.1 k).toUInt64 + s.2 with hsum
  have htoNat : sum.toNat = (s.1 k).toNat + s.2.toNat := by
    rw [hsum, UInt64.toNat_add, UInt16.toNat_toUInt64]
    omega
  have hupdate := @number_update s.1 _ hk (sum &&& 0xffff).toUInt16
  rw [toNat_low] at hupdate
  dsimp only
  rw [toNat_high]
  refine ⟨?_, by omega⟩
  have hsplit : sum.toNat % 2 ^ 16 + 2 ^ 16 * (sum.toNat / 2 ^ 16) = (s.1 k).toNat + s.2.toNat := by
    omega
  refine Nat.add_right_cancel (m := (s.1 k).toNat * (2 ^ 16) ^ k) ?_
  calc _ = number (Function.update s.1 k (sum &&& 0xffff).toUInt16) +
        (s.1 k).toNat * (2 ^ 16) ^ k + 2 ^ 16 * (sum.toNat / 2 ^ 16) * (2 ^ 16) ^ k := by ring
    _ = number s.1 + (sum.toNat % 2 ^ 16 + 2 ^ 16 * (sum.toNat / 2 ^ 16)) * (2 ^ 16) ^ k := by
      rw [hupdate]
      ring
    _ = _ := by
      rw [hsplit]
      ring

theorem foldl_carryLimb {s : (ℕ → UInt16) × UInt64} {k n : ℕ} (hn : k + n ≤ 18)
    (hcarry : s.2.toNat ≤ 1) :
    number ((List.range' k n).foldl carryLimb s).1 +
      ((List.range' k n).foldl carryLimb s).2.toNat * (2 ^ 16) ^ (k + n) =
        number s.1 + s.2.toNat * (2 ^ 16) ^ k := by
  induction n generalizing s k with
  | zero => simp
  | succ n ih =>
    obtain ⟨htotal, hcarry'⟩ := carryLimb_spec (k := k) (by omega) hcarry
    have ih' := ih (s := carryLimb s k) (k := k + 1) (by omega) hcarry'
    have hindex : k + (n + 1) = k + 1 + n := by omega
    rw [List.range'_succ, List.foldl_cons, hindex]
    exact ih'.trans htotal

/-- A number below the last place has no carry out of it. -/
theorem eq_of_add_carry {a c b : ℕ} (h : a + c * (2 ^ 16) ^ 18 = b) (hb : b < (2 ^ 16) ^ 18) :
    a = b := by
  rcases Nat.eq_zero_or_pos c with rfl | hpos
  · rw [← h, Nat.zero_mul, Nat.add_zero]
  · have := Nat.le_mul_of_pos_left ((2 ^ 16) ^ 18) hpos
    omega

theorem addRow_spec {mantissa : UInt64} {prod : ℕ → UInt16} {i : ℕ} {word : UInt16} (hi : i < 16)
    (hmantissa : mantissa.toNat < 2 ^ 25)
    (hfits : number prod + word.toNat * mantissa.toNat * (2 ^ 16) ^ i < (2 ^ 16) ^ 18) :
    number (addRow mantissa prod i word) =
      number prod + word.toNat * mantissa.toNat * (2 ^ 16) ^ i := by
  have hwide : word.toNat * mantissa.toNat < 2 ^ 16 * 2 ^ 25 :=
    Nat.mul_lt_mul'' word.toNat_lt hmantissa
  have hrow : (word.toUInt64 * mantissa).toNat = word.toNat * mantissa.toNat := by
    rw [UInt64.toNat_mul, UInt16.toNat_toUInt64]
    exact Nat.mod_eq_of_lt (hwide.trans (by norm_num))
  have hstart : (Sums.mk prod (word.toUInt64 * mantissa) 0).total i =
      number prod + word.toNat * mantissa.toNat * (2 ^ 16) ^ i := by
    rw [Sums.total, ← hrow]
    exact congrArg (number prod + · * (2 ^ 16) ^ i) (Nat.zero_add _)
  rw [addRow]
  set n := min 4 (18 - i) with hn
  obtain ⟨htotal, hcarry, hrest⟩ := foldl_addLimb
    (s := ⟨prod, word.toUInt64 * mantissa, 0⟩) (i := i) (n := n) (by omega) (Nat.zero_le 1)
  set s := (List.range' i n).foldl addLimb ⟨prod, word.toUInt64 * mantissa, 0⟩
  -- Three limbs hold what is left of a row.
  have hzero : s.rest.toNat = 0 := by
    rw [hrest, hrow]
    refine Nat.div_eq_of_lt (hwide.trans_le ?_)
    calc 2 ^ 16 * 2 ^ 25 ≤ (2 ^ 16) ^ 3 := by norm_num
      _ ≤ (2 ^ 16) ^ n := Nat.pow_le_pow_right (by norm_num) (by omega)
  rw [hstart, Sums.total, hzero, Nat.add_zero] at htotal
  by_cases hlast : i = 15
  · subst hlast
    exact eq_of_add_carry htotal hfits
  · have hcarries := foldl_carryLimb (s := (s.prod, s.carry)) (k := i + 4) (n := 18 - (i + 4))
      (by omega) hcarry
    have hfour : n = 4 := by omega
    have hend : i + 4 + (18 - (i + 4)) = 18 := by omega
    rw [hend] at hcarries
    rw [hfour] at htotal
    exact eq_of_add_carry (hcarries.trans htotal) hfits

/-! ## The whole product -/

theorem ofLE_eq_value (bs : List UInt8) :
    Bytes.ofLE bs = value 256 (fun i => (bs.getD i 0).toNat) bs.length := by
  induction bs with
  | nil => rfl
  | cons b bs ih =>
    rw [Bytes.ofLE, ih, List.length_cons, value, value, Finset.sum_range_succ', Finset.mul_sum,
      Nat.add_comm]
    refine congrArg₂ (· + ·) (Finset.sum_congr rfl fun i _ => ?_) (by simp)
    rw [List.getD_cons_succ, Nat.pow_succ]
    ring

/-- The limbs of a hash as an array. -/
def wordAt (hash : Vector UInt8 32) (i : ℕ) : UInt16 :=
  if h : i < 16 then hashWord hash ⟨i, h⟩ else 0

theorem toNat_hashWord (hash : Vector UInt8 32) (i : Fin 16) :
    (hashWord hash i).toNat =
      (hash.get ⟨31 - 2 * i, by omega⟩).toNat +
        256 * (hash.get ⟨31 - 2 * i - 1, by omega⟩).toNat := by
  have hlow := (hash.get ⟨31 - 2 * i, by omega⟩).toNat_lt
  have hhigh := (hash.get ⟨31 - 2 * i - 1, by omega⟩).toNat_lt
  rw [hashWord, UInt32.toNat_toUInt16, UInt32.toNat_or, UInt32.toNat_shiftLeft,
    UInt8.toNat_toUInt32, UInt8.toNat_toUInt32]
  have hshift : (hash.get ⟨31 - 2 * i - 1, by omega⟩).toNat <<< ((8 : UInt32).toNat % 32) % 2 ^ 32 =
      2 ^ 8 * (hash.get ⟨31 - 2 * i - 1, by omega⟩).toNat := by
    rw [Nat.shiftLeft_eq]
    change _ * 2 ^ 8 % 2 ^ 32 = _
    omega
  rw [hshift, ← Nat.two_pow_add_eq_or_of_lt hlow]
  omega

theorem value_wordAt (hash : Vector UInt8 32) :
    value (2 ^ 16) (fun i => (wordAt hash i).toNat) 16 = hashNumber hash := by
  rw [hashNumber, Bytes.ofBE_eq, ofLE_eq_value, List.length_reverse, Vector.length_toList]
  refine Eq.trans (LimbArray.value_congr fun i hi => ?_) (LimbArray.value_pairs 256 _ 16)
  have hget : ∀ k (hk : k < 32), (hash.toList.reverse.getD k 0).toNat =
      (hash.get ⟨31 - k, by omega⟩).toNat := by
    intro k hk
    simp [List.getD_eq_getElem?_getD, hk, Vector.get]
  rw [wordAt, dif_pos hi, toNat_hashWord, hget (2 * i) (by omega), hget (2 * i + 1) (by omega)]
  rfl

theorem product_spec (hash : Vector UInt8 32) {mantissa : UInt64}
    (hmantissa : mantissa.toNat < 2 ^ 25) :
    number (product hash mantissa) = hashNumber hash * mantissa.toNat := by
  have hrows : product hash mantissa =
      (List.range 16).foldl (fun prod i => addRow mantissa prod i (wordAt hash i)) fun _ => 0 := by
    rw [product, ← List.map_coe_finRange_eq_range, List.foldl_map]
    refine List.foldl_ext _ _ _ fun prod i _ => ?_
    rw [wordAt, dif_pos i.isLt]
  have hprefix : ∀ n ≤ 16, number ((List.range n).foldl
      (fun prod i => addRow mantissa prod i (wordAt hash i)) fun _ => 0) =
        value (2 ^ 16) (fun i => (wordAt hash i).toNat) n * mantissa.toNat := by
    intro n hn
    induction n with
    | zero =>
      rw [LimbArray.value_zero, Nat.zero_mul]
      exact LimbArray.value_of_all_zero fun _ _ => rfl
    | succ n ih =>
      have hlt : value (2 ^ 16) (fun i => (wordAt hash i).toNat) (n + 1) < (2 ^ 16) ^ 16 := by
        refine (LimbArray.value_lt fun i _ => (wordAt hash i).toNat_lt).trans_le ?_
        exact Nat.pow_le_pow_right (by norm_num) hn
      have hsum : value (2 ^ 16) (fun i => (wordAt hash i).toNat) n * mantissa.toNat +
          (wordAt hash n).toNat * mantissa.toNat * (2 ^ 16) ^ n =
            value (2 ^ 16) (fun i => (wordAt hash i).toNat) (n + 1) * mantissa.toNat := by
        rw [LimbArray.value_succ]
        ring
      rw [List.range_succ, List.foldl_append, List.foldl_cons, List.foldl_nil, ← hsum,
        ← ih (by omega)]
      refine addRow_spec (by omega) hmantissa ?_
      rw [ih (by omega), hsum]
      calc _ < (2 ^ 16) ^ 16 * 2 ^ 25 := Nat.mul_lt_mul'' hlt hmantissa
        _ ≤ _ := by norm_num
  rw [hrows, hprefix 16 le_rfl, value_wordAt]

/-! ## The highest bit -/

theorem and_bit_ne_zero {w : UInt16} {b : ℕ} (hb : b < 16) :
    w.toUInt32 &&& ((1 : UInt32) <<< UInt32.ofNat b) ≠ 0 ↔ w.toNat.testBit b = true := by
  have hbit : ((1 : UInt32) <<< UInt32.ofNat b).toNat = 2 ^ b := by
    rw [UInt32.toNat_shiftLeft, UInt32.toNat_ofNat', Nat.mod_eq_of_lt (a := b) (by omega),
      Nat.mod_eq_of_lt (a := b) (by omega), UInt32.toNat_one, Nat.one_shiftLeft]
    exact Nat.mod_eq_of_lt (Nat.pow_lt_pow_right (by norm_num) (by omega))
  rw [Ne, ← UInt32.toNat_inj, UInt32.toNat_and, UInt16.toNat_toUInt32, hbit, Nat.and_two_pow,
    UInt32.toNat_zero]
  cases w.toNat.testBit b <;> simp

theorem topBit_none {w : UInt16} (h : topBit w = none) : w = 0 := by
  rw [← UInt16.toNat_inj]
  refine Nat.eq_of_testBit_eq fun b => ?_
  rw [UInt16.toNat_zero, Nat.zero_testBit]
  by_cases hb : b < 16
  · have hall := List.find?_eq_none.mp h b (by simp [hb])
    rw [decide_eq_true_iff, and_bit_ne_zero hb] at hall
    exact Bool.eq_false_iff.mpr hall
  · refine Nat.testBit_lt_two_pow (w.toNat_lt.trans_le ?_)
    exact Nat.pow_le_pow_right (by norm_num) (by omega)

theorem topBit_some {w : UInt16} {b : ℕ} (h : topBit w = some b) :
    2 ^ b ≤ w.toNat ∧ w.toNat + 1 ≤ 2 ^ (b + 1) := by
  rw [topBit, List.find?_eq_findSome?_guard] at h
  obtain ⟨k, hk, hguard, habove⟩ := LimbArray.findSome?_from_top h
  rw [Option.guard_eq_some_iff, decide_eq_true_iff] at hguard
  obtain ⟨rfl, hbit⟩ := hguard
  refine ⟨Nat.ge_two_pow_of_testBit ((and_bit_ne_zero hk).mp hbit), ?_⟩
  refine Nat.lt_pow_two_of_testBit _ fun i hi => ?_
  by_cases hi16 : i < 16
  · have hnone := habove i hi16 hi
    rw [Option.guard_eq_none_iff, decide_eq_false_iff_not, and_bit_ne_zero hi16] at hnone
    exact Bool.eq_false_iff.mpr hnone
  · refine Nat.testBit_lt_two_pow (w.toNat_lt.trans_le ?_)
    exact Nat.pow_le_pow_right (by norm_num) (by omega)

theorem highBit_none {prod : ℕ → UInt16} (h : highBit prod = none) : number prod = 0 := by
  refine LimbArray.value_of_all_zero fun i hi => ?_
  have hlimb := List.findSome?_eq_none_iff.mp h i (by simp [hi])
  by_cases hzero : prod i = 0
  · rw [hzero, UInt16.toNat_zero]
  · rw [if_neg hzero, Option.map_eq_none_iff] at hlimb
    exact absurd (topBit_none hlimb) hzero

theorem highBit_some {prod : ℕ → UInt16} {k : ℕ} (h : highBit prod = some k) :
    2 ^ k ≤ number prod ∧ number prod < 2 ^ (k + 1) := by
  obtain ⟨limb, hlimb, htop, habove⟩ := LimbArray.findSome?_from_top h
  have hzero : ∀ i < 18, limb < i → (prod i).toNat = 0 := by
    intro i hi hgt
    have hnone := habove i hi hgt
    by_cases hz : prod i = 0
    · rw [hz, UInt16.toNat_zero]
    · rw [if_neg hz, Option.map_eq_none_iff] at hnone
      exact absurd (topBit_none hnone) hz
  by_cases hz : prod limb = 0
  · rw [if_pos hz] at htop
    exact absurd htop (by simp)
  · rw [if_neg hz, Option.map_eq_some_iff] at htop
    obtain ⟨b, hb, rfl⟩ := htop
    obtain ⟨hlow, hhigh⟩ := topBit_some hb
    obtain ⟨hbelow, hup⟩ := LimbArray.value_bounds hlimb (fun i _ => (prod i).toNat_lt) hzero
    have hpow : ∀ c, 2 ^ (limb * 16 + c) = 2 ^ c * (2 ^ 16) ^ limb := fun c => by
      rw [← Nat.pow_mul, ← Nat.pow_add, Nat.mul_comm, Nat.add_comm]
    rw [Nat.add_assoc, hpow, hpow]
    exact ⟨(Nat.mul_le_mul_right _ hlow).trans hbelow,
      hup.trans_le (Nat.mul_le_mul_right _ hhigh)⟩

/-! ## The test -/

theorem toNat_mantissaOf (packed : UInt32) :
    (mantissaOf packed).toNat = 2 ^ 24 + packed.toNat % 2 ^ 24 := by
  have hmask : (((1 : UInt32) <<< 24) - 1).toNat = 2 ^ 24 - 1 := rfl
  have hhidden : ((1 : UInt32) <<< 24).toNat = 2 ^ 24 * 1 := rfl
  rw [mantissaOf, UInt32.toNat_toUInt64, UInt32.toNat_or, UInt32.toNat_and, hmask, hhidden,
    Nat.and_two_pow_sub_one_eq_mod, ← Nat.two_pow_add_eq_or_of_lt (Nat.mod_lt _ (by norm_num)),
    Nat.mul_one]

theorem toNat_threshold {packed : UInt32} (h : packed.toNat ≤ 232 * 2 ^ 24) :
    ((280 : UInt32) - packed >>> 24).toNat = 280 - packed.toNat / 2 ^ 24 := by
  have hshift : (packed >>> 24).toNat = packed.toNat / 2 ^ 24 := by
    simp [Nat.shiftRight_eq_div_pow]
  rw [UInt32.toNat_sub_of_le _ _ (UInt32.le_iff_toNat_le.mpr ?_), hshift]
  · rfl
  · rw [hshift]
    change _ ≤ 280
    omega

/-- The target a packed difficulty asks for. -/
theorem beamTargetReached_iff (hash : Vector UInt8 32) (packed : UInt32) :
    beamTargetReached hash packed = true ↔ packed.toNat ≤ 232 * 2 ^ 24 ∧
      hashNumber hash * (2 ^ 24 + packed.toNat % 2 ^ 24) <
        2 ^ (280 - packed.toNat / 2 ^ 24) := by
  have hvalid : (232 : UInt32) <<< 24 < packed ↔ 232 * 2 ^ 24 < packed.toNat :=
    UInt32.lt_iff_toNat_lt
  have hmantissa := toNat_mantissaOf packed
  have hproduct := @product_spec hash (mantissaOf packed) (by omega)
  rw [hmantissa] at hproduct
  rw [beamTargetReached, ← hproduct]
  by_cases hinf : 232 * 2 ^ 24 < packed.toNat
  · rw [if_pos (hvalid.mpr hinf)]
    exact ⟨fun h => absurd h (by decide), fun h => absurd h.1 (Nat.not_le.mpr hinf)⟩
  have hle := Nat.not_lt.mp hinf
  rw [if_neg (fun h => hinf (hvalid.mp h))]
  dsimp only
  cases hbit : highBit (product hash (mantissaOf packed)) with
  | none =>
    rw [highBit_none hbit]
    exact ⟨fun _ => ⟨hle, by positivity⟩, fun _ => rfl⟩
  | some k =>
    obtain ⟨hlow, hhigh⟩ := highBit_some hbit
    dsimp only
    rw [decide_eq_true_iff, toNat_threshold hle]
    refine ⟨fun h => ⟨hle, hhigh.trans_le (Nat.pow_le_pow_right (by norm_num) h)⟩, fun h => ?_⟩
    exact (Nat.pow_lt_pow_iff_right (by norm_num)).mp (hlow.trans_lt h.2)

/-- A higher difficulty asks for a larger multiple to stay below the same bound. -/
theorem scaled_mono {p q : ℕ} (h : p ≤ q) (hq : q ≤ 232 * 2 ^ 24) :
    (2 ^ 24 + p % 2 ^ 24) * 2 ^ (280 - q / 2 ^ 24) ≤
      (2 ^ 24 + q % 2 ^ 24) * 2 ^ (280 - p / 2 ^ 24) := by
  have horder : p / 2 ^ 24 ≤ q / 2 ^ 24 := Nat.div_le_div_right h
  rcases horder.eq_or_lt with hsame | hless
  · rw [hsame]
    exact Nat.mul_le_mul_right _ (by omega)
  · have hstep : 280 - p / 2 ^ 24 = 280 - q / 2 ^ 24 + 1 + (q / 2 ^ 24 - p / 2 ^ 24 - 1) := by omega
    calc _ ≤ 2 ^ 25 * 2 ^ (280 - q / 2 ^ 24) := Nat.mul_le_mul_right _ (by omega)
      _ = 2 ^ 24 * 2 ^ (280 - q / 2 ^ 24 + 1) := by ring
      _ ≤ 2 ^ 24 * 2 ^ (280 - p / 2 ^ 24) :=
        Nat.mul_le_mul_left _ (Nat.pow_le_pow_right (by norm_num) (by omega))
      _ ≤ _ := Nat.mul_le_mul_right _ (Nat.le_add_right _ _)

/-- **The difficulty test is exact.** The limbs hold the whole product, a hash is accepted exactly
when it is below the target, and a lower difficulty accepts every hash a higher one accepts. -/
theorem beam_target_exact (hash : Vector UInt8 32) (packed : UInt32) :
    number (product hash (mantissaOf packed)) =
        hashNumber hash * (2 ^ 24 + packed.toNat % 2 ^ 24) ∧
      (beamTargetReached hash packed = true ↔ packed.toNat ≤ 232 * 2 ^ 24 ∧
        hashNumber hash * (2 ^ 24 + packed.toNat % 2 ^ 24) <
          2 ^ (280 - packed.toNat / 2 ^ 24)) ∧
      ∀ lower ≤ packed, beamTargetReached hash packed = true →
        beamTargetReached hash lower = true := by
  have hmantissa := toNat_mantissaOf packed
  refine ⟨?_, beamTargetReached_iff hash packed, fun lower hlower hreached => ?_⟩
  · rw [product_spec hash (by omega), hmantissa]
  rw [beamTargetReached_iff] at hreached ⊢
  obtain ⟨hvalid, hbelow⟩ := hreached
  have hle := UInt32.le_iff_toNat_le.mp hlower
  refine ⟨hle.trans hvalid, ?_⟩
  refine Nat.lt_of_mul_lt_mul_right (a := 2 ^ (280 - packed.toNat / 2 ^ 24)) ?_
  calc _ = hashNumber hash *
        ((2 ^ 24 + lower.toNat % 2 ^ 24) * 2 ^ (280 - packed.toNat / 2 ^ 24)) := by ring
    _ ≤ hashNumber hash *
        ((2 ^ 24 + packed.toNat % 2 ^ 24) * 2 ^ (280 - lower.toNat / 2 ^ 24)) :=
      Nat.mul_le_mul_left _ (scaled_mono hle hvalid)
    _ = hashNumber hash * (2 ^ 24 + packed.toNat % 2 ^ 24) *
        2 ^ (280 - lower.toNat / 2 ^ 24) := by ring
    _ < 2 ^ (280 - packed.toNat / 2 ^ 24) * 2 ^ (280 - lower.toNat / 2 ^ 24) :=
      Nat.mul_lt_mul_of_pos_right hbelow (by positivity)
    _ = _ := Nat.mul_comm _ _

end MoMiner.Beamhash3
