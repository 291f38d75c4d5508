import Mathlib.Algebra.BigOperators.Fin
import Mathlib.Algebra.Order.Ring.Abs
import Mathlib.Data.List.Induction
import Mathlib.Data.Nat.Digits.Defs
import Mathlib.Data.Nat.ModEq
import Mathlib.Data.UInt
import Mathlib.Tactic.Linarith
import Mathlib.Tactic.Ring
import MoMiner.Octopus.Polynomial

/-!
# Polynomial evaluation is exact

The digits of a field value fit a byte, and so do their pairwise sums; hence the sums of 1024
products fit 32 bits, the weighted total fits 64, and it is the polynomial up to multiples of the
prime. Each normalization then finds its residue.

Main result: `matrix_evaluation`.
-/

namespace MoMiner.Octopus

/-! ## Digits fit a byte -/

theorem toInt_toInt32 {x : UInt32} (h : x.toNat < 2 ^ 31) : x.toInt32.toInt = x.toNat := by
  rw [← Int32.toInt_toBitVec, UInt32.toBitVec_toInt32, BitVec.toInt_eq_toNat_of_lt]
  · rfl
  · simp only [UInt32.toNat_toBitVec]
    omega

theorem toNat_toUInt32 {x : Int32} (h : 0 ≤ x.toInt) : (x.toUInt32.toNat : ℤ) = x.toInt := by
  rw [Int32.toNat_toUInt32_of_le (Int32.le_iff_toInt_le.mpr h), Int32.toNatClampNeg]
  exact Int.toNat_of_nonneg h

theorem toNat_toUInt64 {x : Int64} (h : 0 ≤ x.toInt) : (x.toUInt64.toNat : ℤ) = x.toInt := by
  rw [Int64.toNat_toUInt64_of_le (Int64.le_iff_toInt_le.mpr h), Int64.toNatClampNeg]
  exact Int.toNat_of_nonneg h

theorem toInt_splitDigit (r : UInt32) : (splitDigit r).toInt =
    if r.toNat % 128 < 64 then (r.toNat % 128 : ℤ) else r.toNat % 128 - 128 := by
  have hmask : (r &&& 127).toNat = r.toNat % 128 := by
    rw [UInt32.toNat_and]
    exact Nat.and_two_pow_sub_one_eq_mod _ 7
  have hdigit : (r &&& 127).toInt32.toInt = (r.toNat % 128 : ℤ) := by
    rw [toInt_toInt32 (by omega), hmask]
    rfl
  simp only [splitDigit, ge_iff_le, Int32.le_iff_toInt_le, hdigit]
  rw [show (64 : Int32).toInt = 64 from rfl]
  split_ifs with h h' h'
  · omega
  · rw [Int32.toInt_sub, hdigit, show (128 : Int32).toInt = 128 from rfl]
    exact Int.bmod_eq_of_le_mul_two (by omega) (by omega)
  · exact hdigit
  · omega

theorem splitRest_spec {r : UInt32} (h : r.toNat < 2 ^ 21) :
    (splitDigit r).toInt + 128 * (splitRest r).toNat = r.toNat := by
  have hdigit := toInt_splitDigit r
  have hsub : (r.toInt32 - splitDigit r).toInt = r.toNat - (splitDigit r).toInt := by
    rw [Int32.toInt_sub, toInt_toInt32 (by omega)]
    split_ifs at hdigit <;> exact Int.bmod_eq_of_le_mul_two (by omega) (by omega)
  have hdiv : ((r.toInt32 - splitDigit r) / 128).toInt =
      (r.toNat - (splitDigit r).toInt) / 128 := by
    rw [Int32.toInt_div_of_ne_right _ _ (by decide), hsub, show (128 : Int32).toInt = 128 from rfl,
      Int.tdiv_eq_ediv_of_nonneg]
    split_ifs at hdigit <;> omega
  have hrest := toNat_toUInt32 (x := (r.toInt32 - splitDigit r) / 128)
    (by rw [hdiv]; split_ifs at hdigit <;> omega)
  rw [← splitRest, hdiv] at hrest
  rw [hrest]
  split_ifs at hdigit <;> omega

theorem splitDigit_bounds (r : UInt32) :
    -64 ≤ (splitDigit r).toInt ∧ (splitDigit r).toInt ≤ 63 := by
  rw [toInt_splitDigit]
  split_ifs <;> omega

/-- A digit fits a signed byte. -/
theorem toInt_splitDigit_toInt8 (r : UInt32) :
    (splitDigit r).toInt8.toInt = (splitDigit r).toInt := by
  have hbounds := splitDigit_bounds r
  rw [Int32.toInt_toInt8]
  exact Int.bmod_eq_of_le_mul_two (by omega) (by omega)

/-- The sum of two digits fits a signed byte. -/
theorem toInt_digit_sum {x y : Int8} (hx : -64 ≤ x.toInt ∧ x.toInt ≤ 63)
    (hy : -64 ≤ y.toInt ∧ y.toInt ≤ 63) :
    (x.toInt32 + y.toInt32).toInt8.toInt = x.toInt + y.toInt := by
  have hsum : (x.toInt32 + y.toInt32).toInt = x.toInt + y.toInt := by
    rw [Int32.toInt_add, Int8.toInt_toInt32, Int8.toInt_toInt32]
    exact Int.bmod_eq_of_le_mul_two (by omega) (by omega)
  rw [Int32.toInt_toInt8, hsum]
  exact Int.bmod_eq_of_le_mul_two (by omega) (by omega)

/-- The planes of a number: its digits in base 128, and their exact sums. -/
structure Splits (value : ℕ) (d : Vector Int8 6) : Prop where
  digits : (d.get 0).toInt + 128 * (d.get 1).toInt + 128 ^ 2 * (d.get 2).toInt = value
  sum₀₁ : (d.get 3).toInt = (d.get 0).toInt + (d.get 1).toInt
  sum₀₂ : (d.get 4).toInt = (d.get 0).toInt + (d.get 2).toInt
  sum₁₂ : (d.get 5).toInt = (d.get 1).toInt + (d.get 2).toInt

/-- Every field value is split without loss: its third digit stays below 64. -/
theorem nativeSplitField_splits {v : UInt32} (h : v.toNat < modulus) :
    Splits v.toNat (nativeSplitField v) := by
  have h₀ := splitDigit_bounds v
  have h₁ := splitDigit_bounds (splitRest v)
  have h₂ := splitDigit_bounds (splitRest (splitRest v))
  rw [← toInt_splitDigit_toInt8] at h₀ h₁ h₂
  rw [modulus] at h
  refine ⟨?_, toInt_digit_sum h₀ h₁, toInt_digit_sum h₀ h₂, toInt_digit_sum h₁ h₂⟩
  change (splitDigit v).toInt8.toInt + 128 * (splitDigit (splitRest v)).toInt8.toInt +
    128 ^ 2 * (splitDigit (splitRest (splitRest v))).toInt8.toInt = v.toNat
  have hfirst := splitRest_spec (r := v) (by omega)
  rw [← toInt_splitDigit_toInt8] at hfirst
  have hsecond := splitRest_spec (r := splitRest v) (by omega)
  have hthird := toInt_splitDigit (splitRest (splitRest v))
  rw [← toInt_splitDigit_toInt8] at hsecond hthird
  rw [if_pos (by omega)] at hthird
  omega

/-! ## The sums are exact -/

/-- A product of two signed bytes. -/
theorem byte_product_bounds (x y : Int8) :
    -2 ^ 14 ≤ x.toInt * y.toInt ∧ x.toInt * y.toInt ≤ 2 ^ 14 := by
  have hx := x.le_toInt
  have hx' := x.toInt_lt
  have hy := y.le_toInt
  have hy' := y.toInt_lt
  constructor <;> nlinarith

/-- The exact dot product of a plane. -/
def exactDot (product : Fin 6) (pairs : List (Vector Int8 6 × Vector Int8 6)) : ℤ :=
  (pairs.map fun p => (p.1.get product).toInt * (p.2.get product).toInt).sum

theorem exactDot_bounds (product : Fin 6) (pairs : List (Vector Int8 6 × Vector Int8 6)) :
    -(2 ^ 14 * pairs.length) ≤ exactDot product pairs ∧
      exactDot product pairs ≤ 2 ^ 14 * pairs.length := by
  induction pairs with
  | nil => exact ⟨le_rfl, le_rfl⟩
  | cons p pairs ih =>
    have hproduct := byte_product_bounds (p.1.get product) (p.2.get product)
    simp only [exactDot, List.map_cons, List.sum_cons, List.length_cons] at ih ⊢
    push_cast
    constructor <;> linarith [ih.1, ih.2]

theorem exactDot_append (product : Fin 6) (pairs : List (Vector Int8 6 × Vector Int8 6))
    (p : Vector Int8 6 × Vector Int8 6) : exactDot product (pairs ++ [p]) =
      exactDot product pairs + (p.1.get product).toInt * (p.2.get product).toInt := by
  rw [exactDot, List.map_append, List.sum_append, List.map_singleton, List.sum_singleton, exactDot]

/-- The run lemma of the accumulation: no partial sum leaves 32 bits. -/
theorem toInt_foldl_dotStep (product : Fin 6) (pairs : List (Vector Int8 6 × Vector Int8 6))
    (hlength : pairs.length ≤ polynomialSize) :
    (pairs.foldl (dotStep product) 0).toInt = exactDot product pairs := by
  induction pairs using List.reverseRecOn with
  | nil => rfl
  | append_singleton pairs p ih =>
    rw [List.length_append, List.length_singleton] at hlength
    have hbounds := exactDot_bounds product pairs
    have hproduct := byte_product_bounds (p.1.get product) (p.2.get product)
    have hmul : ((p.1.get product).toInt * (p.2.get product).toInt).bmod (2 ^ 32) =
        (p.1.get product).toInt * (p.2.get product).toInt :=
      Int.bmod_eq_of_le_mul_two (by omega) (by omega)
    rw [List.foldl_append, List.foldl_cons, List.foldl_nil, dotStep, Int32.toInt_add,
      ih (by omega), Int32.toInt_mul, Int8.toInt_toInt32, Int8.toInt_toInt32, hmul, exactDot_append]
    rw [polynomialSize] at hlength
    exact Int.bmod_eq_of_le_mul_two (by omega) (by omega)

/-- The exact weighted sum of some planes. -/
def exactTotal (planes : List (Fin 6)) (pairs : List (Vector Int8 6 × Vector Int8 6)) : ℤ :=
  (planes.map fun product => exactDot product pairs * (nativeWeight product).toInt).sum

theorem nativeWeight_bounds (product : Fin 6) :
    -2 ^ 29 ≤ (nativeWeight product).toInt ∧ (nativeWeight product).toInt ≤ 2 ^ 29 := by
  revert product
  decide

theorem weighted_bounds (product : Fin 6) {pairs : List (Vector Int8 6 × Vector Int8 6)}
    (hlength : pairs.length ≤ polynomialSize) :
    -2 ^ 53 ≤ exactDot product pairs * (nativeWeight product).toInt ∧
      exactDot product pairs * (nativeWeight product).toInt ≤ 2 ^ 53 := by
  have hbounds := exactDot_bounds product pairs
  have hweight := abs_le.mpr (nativeWeight_bounds product)
  rw [polynomialSize] at hlength
  have hdot : |exactDot product pairs| ≤ 2 ^ 24 := abs_le.mpr (by omega)
  apply abs_le.mp
  rw [abs_mul]
  calc |exactDot product pairs| * |(nativeWeight product).toInt|
      ≤ 2 ^ 24 * 2 ^ 29 := mul_le_mul hdot hweight (abs_nonneg _) (by decide)
    _ = 2 ^ 53 := by decide

theorem exactTotal_bounds (planes : List (Fin 6)) {pairs : List (Vector Int8 6 × Vector Int8 6)}
    (hlength : pairs.length ≤ polynomialSize) :
    -(2 ^ 53 * planes.length) ≤ exactTotal planes pairs ∧
      exactTotal planes pairs ≤ 2 ^ 53 * planes.length := by
  induction planes with
  | nil => exact ⟨le_rfl, le_rfl⟩
  | cons product planes ih =>
    have hproduct := weighted_bounds product hlength
    simp only [exactTotal, List.map_cons, List.sum_cons, List.length_cons] at ih ⊢
    omega

theorem exactTotal_append (planes : List (Fin 6)) (product : Fin 6)
    (pairs : List (Vector Int8 6 × Vector Int8 6)) : exactTotal (planes ++ [product]) pairs =
      exactTotal planes pairs + exactDot product pairs * (nativeWeight product).toInt := by
  rw [exactTotal, List.map_append, List.sum_append, List.map_singleton, List.sum_singleton,
    exactTotal]

/-- The run lemma of the recombination: no partial total leaves 64 bits. -/
theorem toInt_weightedTotal {planes : List (Fin 6)} (hplanes : planes.length ≤ 6)
    {a b : List (Vector Int8 6)} (hlength : (a.zip b).length ≤ polynomialSize) :
    (weightedTotal planes a b).toInt = exactTotal planes (a.zip b) := by
  induction planes using List.reverseRecOn with
  | nil => rfl
  | append_singleton planes product ih =>
    rw [List.length_append, List.length_singleton] at hplanes
    have hbounds := exactTotal_bounds planes hlength
    have hproduct := weighted_bounds product hlength
    have hmul : ((dotProduct product a b).toInt64 * nativeWeight product).toInt =
        exactDot product (a.zip b) * (nativeWeight product).toInt := by
      rw [Int64.toInt_mul, Int32.toInt_toInt64, dotProduct, toInt_foldl_dotStep product _ hlength]
      exact Int.bmod_eq_of_le_mul_two (by omega) (by omega)
    rw [weightedTotal, List.foldl_append, ← weightedTotal, List.foldl_cons, List.foldl_nil,
      Int64.toInt_add, ih (by omega), hmul, exactTotal_append]
    exact Int.bmod_eq_of_le_mul_two (by omega) (by omega)

/-! ## The recombination -/

/-- The six weighted products of two numbers' planes make up the product. -/
theorem recombine {u v : ℕ} {d e : Vector Int8 6} (hd : Splits u d) (he : Splits v e) :
    exactTotal (List.finRange 6) [(d, e)] = u * v := by
  have hweights : (nativeWeight 0).toInt = 1 - 128 - 128 ^ 2 ∧
      (nativeWeight 1).toInt = -128 + 128 ^ 2 - 128 ^ 3 ∧
      (nativeWeight 2).toInt = -128 ^ 2 - 128 ^ 3 + 128 ^ 4 ∧ (nativeWeight 3).toInt = 128 ∧
      (nativeWeight 4).toInt = 128 ^ 2 ∧ (nativeWeight 5).toInt = 128 ^ 3 := by
    decide
  obtain ⟨h₀, h₁, h₂, h₃, h₄, h₅⟩ := hweights
  simp only [exactTotal, exactDot, show List.finRange 6 = [0, 1, 2, 3, 4, 5] from rfl,
    List.map_cons, List.map_nil, List.sum_cons, List.sum_nil, h₀, h₁, h₂, h₃, h₄, h₅]
  rw [← hd.digits, ← he.digits, hd.sum₀₁, hd.sum₀₂, hd.sum₁₂, he.sum₀₁, he.sum₀₂, he.sum₁₂]
  ring

theorem exactDot_cons (product : Fin 6) (p : Vector Int8 6 × Vector Int8 6)
    (pairs : List (Vector Int8 6 × Vector Int8 6)) : exactDot product (p :: pairs) =
      exactDot product [p] + exactDot product pairs := by
  simp [exactDot]

theorem exactTotal_cons (planes : List (Fin 6)) (p : Vector Int8 6 × Vector Int8 6)
    (pairs : List (Vector Int8 6 × Vector Int8 6)) :
    exactTotal planes (p :: pairs) = exactTotal planes [p] + exactTotal planes pairs := by
  simp only [exactTotal, exactDot_cons _ p pairs, add_mul, List.sum_map_add]

/-- The exact total is the sum of the products of the numbers that were split. -/
theorem exactTotal_eq {a b : List UInt32} (ha : ∀ v ∈ a, v.toNat < modulus)
    (hb : ∀ v ∈ b, v.toNat < modulus) :
    exactTotal (List.finRange 6) ((a.map nativeSplitField).zip (b.map nativeSplitField)) =
      ((List.zipWith (fun u v => u.toNat * v.toNat) a b).sum : ℕ) := by
  induction a generalizing b with
  | nil => rfl
  | cons u a ih =>
    cases b with
    | nil => rfl
    | cons v b =>
      rw [List.forall_mem_cons] at ha hb
      simp only [List.map_cons, List.zip_cons_cons, List.zipWith_cons_cons, List.sum_cons]
      rw [exactTotal_cons, ih ha.2 hb.2,
        recombine (nativeSplitField_splits ha.1) (nativeSplitField_splits hb.1)]
      push_cast
      rfl

/-! ## The powers of the point -/

theorem length_powers (x : UInt32) (count : ℕ) (power : UInt64) :
    (powers x count power).length = count := by
  induction count generalizing power with
  | zero => rfl
  | succ count ih => rw [powers, List.length_cons, ih]

/-- The next power of the loop is the product in the field. -/
theorem nextPower_spec {x : UInt32} {power : UInt64} (hx : x.toNat < modulus)
    (hpower : power.toNat < modulus) :
    (power * x.toUInt64 % 1032193).toNat = power.toNat * x.toNat % modulus := by
  have hle : power.toNat * x.toNat ≤ modulus * modulus :=
    Nat.mul_le_mul hpower.le hx.le
  rw [UInt64.toNat_mod, UInt64.toNat_mul, UInt32.toNat_toUInt64,
    Nat.mod_eq_of_lt (hle.trans_lt (by decide))]
  rfl

theorem mem_powers_lt {x : UInt32} (hx : x.toNat < modulus) {count : ℕ} {power : UInt64}
    (hpower : power.toNat < modulus) : ∀ v ∈ powers x count power, v.toNat < modulus := by
  induction count generalizing power with
  | zero => exact fun _ h => absurd h List.not_mem_nil
  | succ count ih =>
    rw [powers, List.forall_mem_cons]
    refine ⟨?_, ih ?_⟩
    · rw [UInt64.toNat_toUInt32]
      exact (Nat.mod_le _ _).trans_lt hpower
    · rw [nextPower_spec hx hpower]
      exact Nat.mod_lt _ (by decide)

/-- The products of the coefficients and the powers add up to the polynomial. -/
theorem sum_powers_modEq {x : UInt32} (hx : x.toNat < modulus) {coefficients : List UInt32}
    {count : ℕ} (hcount : coefficients.length ≤ count) {power : UInt64}
    (hpower : power.toNat < modulus) :
    (List.zipWith (fun u v => u.toNat * v.toNat) coefficients (powers x count power)).sum ≡
      power.toNat * Nat.ofDigits x.toNat (coefficients.map UInt32.toNat) [MOD modulus] := by
  induction coefficients generalizing count power with
  | nil => simp [Nat.ModEq]
  | cons c coefficients ih =>
    obtain ⟨count, rfl⟩ : ∃ n, count = n + 1 := Nat.exists_eq_add_of_lt (by
      rw [List.length_cons] at hcount
      omega : 0 < count) |>.imp fun n h => by omega
    have hnext := nextPower_spec hx hpower
    have hlt : (power * x.toUInt64 % 1032193).toNat < modulus := by
      rw [hnext]
      exact Nat.mod_lt _ (by decide)
    have hlow : power.toUInt32.toNat = power.toNat := by
      rw [UInt64.toNat_toUInt32]
      exact Nat.mod_eq_of_lt (hpower.trans (by decide))
    have hrest := ih (Nat.le_of_succ_le_succ hcount) hlt
    rw [hnext] at hrest
    rw [powers, List.zipWith_cons_cons, List.sum_cons, hlow, List.map_cons, Nat.ofDigits_cons]
    calc c.toNat * power.toNat +
          (List.zipWith (fun u v => u.toNat * v.toNat) coefficients (powers x count _)).sum
        ≡ c.toNat * power.toNat + power.toNat * x.toNat *
          Nat.ofDigits x.toNat (coefficients.map UInt32.toNat) [MOD modulus] :=
        (hrest.trans ((Nat.mod_modEq _ _).mul_right _)).add_left _
      _ = power.toNat * (c.toNat + x.toNat *
          Nat.ofDigits x.toNat (coefficients.map UInt32.toNat)) := by ring

theorem sum_products_le {a b : List UInt32} (ha : ∀ v ∈ a, v.toNat < modulus)
    (hb : ∀ v ∈ b, v.toNat < modulus) :
    (List.zipWith (fun u v => u.toNat * v.toNat) a b).sum ≤
      a.length * ((modulus - 1) * (modulus - 1)) := by
  induction a generalizing b with
  | nil => simp
  | cons u a ih =>
    cases b with
    | nil => simp
    | cons v b =>
      rw [List.forall_mem_cons] at ha hb
      have hproduct : u.toNat * v.toNat ≤ (modulus - 1) * (modulus - 1) :=
        Nat.mul_le_mul (Nat.le_sub_one_of_lt ha.1) (Nat.le_sub_one_of_lt hb.1)
      have hrest := ih ha.2 hb.2
      rw [List.zipWith_cons_cons, List.sum_cons, List.length_cons, Nat.add_mul, Nat.one_mul]
      omega

/-- What the matrix kernels have before they normalize: the polynomial up to multiples of the
prime, within the bound of a legal dot product. -/
theorem toInt_nativeTotal {x : UInt32} (hx : x.toNat < modulus) {coefficients : List UInt32}
    (hlength : coefficients.length = polynomialSize)
    (hcoefficients : ∀ v ∈ coefficients, v.toNat < modulus) :
    ∃ total : ℕ, (nativeTotal x coefficients).toInt = total ∧ total ≤ nativeMaxTotal ∧
      total % modulus = Nat.ofDigits x.toNat (coefficients.map UInt32.toNat) % modulus := by
  have hone : (1 : UInt64).toNat < modulus := by decide
  have hpowers : ∀ v ∈ powers x polynomialSize 1, v.toNat < modulus := mem_powers_lt hx hone
  refine ⟨(List.zipWith (fun u v => u.toNat * v.toNat) coefficients
    (powers x polynomialSize 1)).sum, ?_, ?_, ?_⟩
  · rw [nativeTotal, toInt_weightedTotal (by decide), exactTotal_eq hcoefficients hpowers]
    rw [List.length_zip, List.length_map, hlength]
    exact min_le_left _ _
  · have hle := sum_products_le hcoefficients hpowers
    rw [hlength] at hle
    rw [nativeMaxTotal, Nat.mul_assoc]
    exact hle
  · have hsum := sum_powers_modEq hx hlength.le hone
    rw [show (1 : UInt64).toNat = 1 from rfl, Nat.one_mul] at hsum
    exact hsum


/-! ## Normalization is exact -/

/-- A fold of a number. -/
def exactFold (v : ℕ) : ℕ :=
  v % 2 ^ 20 + v / 2 ^ 20 * nativeModFoldFactor

theorem toNat_fold64 (value : UInt64) : (fold64 value).toNat = exactFold value.toNat := by
  have hlt := value.toNat_lt
  have hmask : (value &&& (0xfffff : UInt64)).toNat = value.toNat % 2 ^ 20 := by
    rw [UInt64.toNat_and]
    exact Nat.and_two_pow_sub_one_eq_mod _ 20
  have hhigh : (value >>> 20).toNat = value.toNat / 2 ^ 20 := by
    rw [UInt64.toNat_shiftRight, show (20 : UInt64).toNat % 64 = 20 from rfl,
      Nat.shiftRight_eq_div_pow]
  have hshift : ((value >>> 20) <<< 14).toNat = value.toNat / 2 ^ 20 * 2 ^ 14 := by
    rw [UInt64.toNat_shiftLeft, hhigh, show (14 : UInt64).toNat % 64 = 14 from rfl,
      Nat.shiftLeft_eq, Nat.mod_eq_of_lt (by omega)]
  rw [fold64, UInt64.toNat_add, UInt64.toNat_sub, hmask, hshift, hhigh, exactFold,
    nativeModFoldFactor]
  omega

theorem toNat_fold32 (value : UInt32) : (fold32 value).toNat = exactFold value.toNat := by
  have hlt := value.toNat_lt
  have hmask : (value &&& (0xfffff : UInt32)).toNat = value.toNat % 2 ^ 20 := by
    rw [UInt32.toNat_and]
    exact Nat.and_two_pow_sub_one_eq_mod _ 20
  have hhigh : (value >>> 20).toNat = value.toNat / 2 ^ 20 := by
    rw [UInt32.toNat_shiftRight, show (20 : UInt32).toNat % 32 = 20 from rfl,
      Nat.shiftRight_eq_div_pow]
  have hshift : ((value >>> 20) <<< 14).toNat = value.toNat / 2 ^ 20 * 2 ^ 14 := by
    rw [UInt32.toNat_shiftLeft, hhigh, show (14 : UInt32).toNat % 32 = 14 from rfl,
      Nat.shiftLeft_eq, Nat.mod_eq_of_lt (by omega)]
  rw [fold32, UInt32.toNat_add, UInt32.toNat_sub, hmask, hshift, hhigh, exactFold,
    nativeModFoldFactor]
  omega

/-- A fold keeps the residue, since `2 ^ 20` is the fold factor modulo the prime. -/
theorem exactFold_mod (v : ℕ) : exactFold v % modulus = v % modulus := by
  rw [exactFold, nativeModFoldFactor, modulus]
  omega

theorem exactFold_le {v max : ℕ} (h : v ≤ max) : exactFold v ≤ nativeMaxAfterFold max := by
  have hmask : max &&& nativeModMask = max % 2 ^ 20 := Nat.and_two_pow_sub_one_eq_mod _ 20
  simp only [nativeMaxAfterFold, hmask, Nat.shiftRight_eq_div_pow, exactFold, nativeModFoldFactor]
  rw [nativeModMask]
  split_ifs <;> omega

/-- The bounds that the source asserts for three and for five folds. -/
theorem nativeMaxAfterFold_bounds :
    nativeMaxAfterFold (nativeMaxAfterFold (nativeMaxAfterFold nativeMaxTotal)) < 2 ^ 32 ∧
      nativeMaxAfterFold (nativeMaxAfterFold (nativeMaxAfterFold (nativeMaxAfterFold
        (nativeMaxAfterFold nativeMaxTotal)))) < 2 * modulus := by
  decide

theorem nativeReduce_spec {total : Int64} {t : ℕ} (htotal : total.toInt = t)
    (hmax : t ≤ nativeMaxTotal) : (nativeReduce total).toUInt32.toNat = t % modulus := by
  have hstart : total.toUInt64.toNat = t := by
    have h := toNat_toUInt64 (x := total) (by omega)
    omega
  have hthree := exactFold_le (exactFold_le (exactFold_le hmax))
  have hfive := exactFold_le (exactFold_le hthree)
  have hbounds := nativeMaxAfterFold_bounds
  have hnarrow : (fold64 (fold64 (fold64 total.toUInt64))).toUInt32.toNat =
      exactFold (exactFold (exactFold t)) := by
    rw [UInt64.toNat_toUInt32, toNat_fold64, toNat_fold64, toNat_fold64, hstart]
    exact Nat.mod_eq_of_lt (hthree.trans_lt hbounds.1)
  have hreduced : (fold32 (fold32 (fold64 (fold64 (fold64 total.toUInt64))).toUInt32)).toNat =
      exactFold (exactFold (exactFold (exactFold (exactFold t)))) := by
    rw [toNat_fold32, toNat_fold32, hnarrow]
  have hresidue : exactFold (exactFold (exactFold (exactFold (exactFold t)))) % modulus =
      t % modulus := by
    simp only [exactFold_mod]
  have hlt := hfive.trans_lt hbounds.2
  rw [← hresidue, ← hreduced]
  rw [← hreduced] at hlt
  rw [nativeReduce, UInt32.toUInt32_toInt32]
  simp only [ge_iff_le, UInt32.le_iff_toNat_le, show (1032193 : UInt32).toNat = modulus from rfl]
  generalize fold32 (fold32 (fold64 (fold64 (fold64 total.toUInt64))).toUInt32) = reduced at hlt ⊢
  split_ifs with h
  · rw [UInt32.toNat_sub_of_le _ _ h, show (1032193 : UInt32).toNat = modulus from rfl,
      Nat.mod_eq_sub_mod h, Nat.mod_eq_of_lt (by omega)]
  · rw [Nat.mod_eq_of_lt (by omega)]

theorem signedRemainder_spec {total : Int64} {t : ℕ} (htotal : total.toInt = t) :
    (signedRemainder total).toUInt32.toNat = t % modulus := by
  have hmod : (total % 1032193).toInt = (t % modulus : ℕ) := by
    rw [Int64.toInt_mod, htotal]
    exact Int.tmod_eq_emod_of_nonneg (Int.natCast_nonneg t)
  have hlt : t % modulus < modulus := Nat.mod_lt _ (by decide)
  have hnonneg : ¬ total % 1032193 < 0 := by
    rw [Int64.lt_iff_toInt_lt, hmod]
    exact not_lt.mpr (Int.natCast_nonneg _)
  have hnarrow : (signedRemainder total).toInt = (t % modulus : ℕ) := by
    rw [signedRemainder]
    simp only [if_neg hnonneg]
    rw [Int64.toInt_toInt32, hmod]
    rw [modulus] at hlt ⊢
    exact Int.bmod_eq_of_le_mul_two (by omega) (by omega)
  have h := toNat_toUInt32 (x := signedRemainder total) (by omega)
  omega

/-! ## Horner's loop is exact -/

/-- The reciprocal reduction is exact on the products that the loop forms. -/
theorem modField_spec {value : UInt64} (h : value.toNat < 2 * modulus ^ 2 + modulus) :
    (modField value).toNat = value.toNat % modulus := by
  rw [modulus] at h
  have hhigh : (value >>> 32).toUInt32.toNat = value.toNat / 2 ^ 32 := by
    rw [UInt64.toNat_toUInt32, UInt64.toNat_shiftRight, show (32 : UInt64).toNat % 64 = 32 from rfl,
      Nat.shiftRight_eq_div_pow]
    omega
  have hlow : ((value.toUInt32.toUInt64 * 2130438) >>> 32).toUInt32.toNat =
      value.toNat % 2 ^ 32 * 2130438 / 2 ^ 32 := by
    rw [UInt64.toNat_toUInt32, UInt64.toNat_shiftRight, show (32 : UInt64).toNat % 64 = 32 from rfl,
      Nat.shiftRight_eq_div_pow, UInt64.toNat_mul, UInt32.toNat_toUInt64, UInt64.toNat_toUInt32,
      show (2130438 : UInt64).toNat = 2130438 from rfl,
      Nat.mod_eq_of_lt (b := 2 ^ 64) (by omega), Nat.mod_eq_of_lt (b := 2 ^ 32)]
    omega
  have hquotient : ((((value.toUInt32.toUInt64 * 2130438) >>> 32).toUInt32 +
      (value >>> 32).toUInt32 * 2130438) >>> 9).toNat =
      (value.toNat % 2 ^ 32 * 2130438 / 2 ^ 32 + value.toNat / 2 ^ 32 * 2130438) / 2 ^ 9 := by
    rw [UInt32.toNat_shiftRight, show (9 : UInt32).toNat % 32 = 9 from rfl,
      Nat.shiftRight_eq_div_pow, UInt32.toNat_add, UInt32.toNat_mul, hlow, hhigh,
      show (2130438 : UInt32).toNat = 2130438 from rfl]
    omega
  rw [modField]
  generalize (((value.toUInt32.toUInt64 * 2130438) >>> 32).toUInt32 +
    (value >>> 32).toUInt32 * 2130438) >>> 9 = quotient at hquotient ⊢
  have hbelow : quotient.toNat * 1032193 ≤ value.toNat := by omega
  have hnear : value.toNat - quotient.toNat * 1032193 < 2 * 1032193 := by omega
  have hremainder : (value - quotient.toUInt64 * 1032193).toUInt32.toNat =
      value.toNat - quotient.toNat * 1032193 := by
    rw [UInt64.toNat_toUInt32, UInt64.toNat_sub, UInt64.toNat_mul, UInt32.toNat_toUInt64,
      show (1032193 : UInt64).toNat = 1032193 from rfl]
    omega
  simp only [ge_iff_le, UInt32.le_iff_toNat_le, hremainder]
  rw [show (1032193 : UInt32).toNat = 1032193 from rfl, modulus]
  rw [← Nat.sub_mul_mod (Nat.mul_comm _ _ ▸ hbelow), Nat.mul_comm _ quotient.toNat]
  split_ifs with hcarry
  · rw [UInt32.toNat_sub, hremainder, show (1032193 : UInt32).toNat = 1032193 from rfl]
    omega
  · omega

theorem madField_spec {a b c : UInt32} (ha : a.toNat < modulus) (hb : b.toNat < modulus)
    (hc : c.toNat < modulus) :
    (madField a b c).toNat = (a.toNat * b.toNat + c.toNat) % modulus := by
  have hle : a.toNat * b.toNat ≤ modulus * modulus := Nat.mul_le_mul ha.le hb.le
  have hvalue : (a.toUInt64 * b.toUInt64 + c.toUInt64).toNat = a.toNat * b.toNat + c.toNat := by
    rw [UInt64.toNat_add, UInt64.toNat_mul, UInt32.toNat_toUInt64, UInt32.toNat_toUInt64,
      UInt32.toNat_toUInt64]
    rw [modulus] at hle hc
    omega
  rw [madField, modField_spec (by rw [hvalue]; rw [modulus] at *; omega), hvalue]

/-- Horner's loop computes the polynomial. -/
theorem horner_spec {x : UInt32} (hx : x.toNat < modulus) {coefficients : List UInt32}
    (hcoefficients : ∀ v ∈ coefficients, v.toNat < modulus) :
    (horner x coefficients).toNat =
      Nat.ofDigits x.toNat (coefficients.map UInt32.toNat) % modulus := by
  induction coefficients with
  | nil => rfl
  | cons c coefficients ih =>
    rw [List.forall_mem_cons] at hcoefficients
    have hrest := ih hcoefficients.2
    have hlt : (horner x coefficients).toNat < modulus := by
      rw [hrest]
      exact Nat.mod_lt _ (by decide)
    rw [horner, List.foldr_cons, ← horner, madField_spec hlt hx hcoefficients.1, hrest,
      List.map_cons, Nat.ofDigits_cons, Nat.mul_comm, Nat.add_comm]
    exact ((Nat.mod_modEq _ _).mul_left _).add_left _

/-! ## The main result -/

theorem ofDigits_ofFn (x : ℕ) {n : ℕ} (f : Fin n → ℕ) :
    Nat.ofDigits x (List.ofFn f) = ∑ k, f k * x ^ k.val := by
  induction n with
  | zero => rfl
  | succ n ih =>
    rw [List.ofFn_succ, Nat.ofDigits_cons, ih, Fin.sum_univ_succ, Finset.mul_sum]
    simp only [Fin.val_zero, pow_zero, mul_one, Fin.val_succ, pow_succ]
    congr 1
    apply Finset.sum_congr rfl
    intro k _
    ring

/-- The words of a polynomial. -/
def words (coefficients : Fin polynomialSize → Residue) : List UInt32 :=
  List.ofFn fun k => (coefficients k).value

/-- The value of a polynomial at a point, in the field. -/
def evaluate (coefficients : Fin polynomialSize → Residue) (x : Residue) : ℕ :=
  (∑ k, (coefficients k).value.toNat * x.value.toNat ^ k.val) % modulus

theorem evaluate_eq (coefficients : Fin polynomialSize → Residue) (x : Residue) :
    evaluate coefficients x =
      Nat.ofDigits x.value.toNat ((words coefficients).map UInt32.toNat) % modulus := by
  rw [evaluate, words, List.map_ofFn, ofDigits_ofFn]
  rfl

theorem words_lt (coefficients : Fin polynomialSize → Residue) :
    ∀ v ∈ words coefficients, v.toNat < modulus := by
  intro v hv
  obtain ⟨k, rfl⟩ := List.mem_ofFn.mp hv
  exact (coefficients k).lt

theorem length_words (coefficients : Fin polynomialSize → Residue) :
    (words coefficients).length = polynomialSize :=
  List.length_ofFn

/-- **The matrix kernels and Horner's loop evaluate the polynomial.** Both normalizations of the
weighted total and the loop give its value in the field. On the way every field value is split into
digits and sums of digits that fit a byte, and every partial sum of the accumulation in 32 bits and
of the recombination in 64 bits is exact; the reciprocal reduction is exact on all its uses. -/
theorem matrix_evaluation (coefficients : Fin polynomialSize → Residue) (x : Residue) :
    (signedRemainder (nativeTotal x.value (words coefficients))).toUInt32.toNat =
        evaluate coefficients x ∧
      (nativeReduce (nativeTotal x.value (words coefficients))).toUInt32.toNat =
        evaluate coefficients x ∧
      (horner x.value (words coefficients)).toNat = evaluate coefficients x ∧
      (∀ v : Residue, Splits v.value.toNat (nativeSplitField v.value)) ∧
      (∀ (product : Fin 6) (n : ℕ) (a b : List (Vector Int8 6)), a.length = polynomialSize →
        (dotProduct product (a.take n) b).toInt = exactDot product ((a.take n).zip b)) ∧
      (∀ (n : ℕ) (a b : List (Vector Int8 6)), a.length = polynomialSize →
        (weightedTotal ((List.finRange 6).take n) a b).toInt =
          exactTotal ((List.finRange 6).take n) (a.zip b)) ∧
      ∀ value : UInt64, value.toNat < 2 * modulus ^ 2 + modulus →
        (modField value).toNat = value.toNat % modulus := by
  obtain ⟨total, htotal, hmax, hresidue⟩ :=
    toInt_nativeTotal x.lt (length_words coefficients) (words_lt coefficients)
  rw [evaluate_eq, ← hresidue]
  refine ⟨signedRemainder_spec htotal, nativeReduce_spec htotal hmax, ?_,
    fun v => nativeSplitField_splits v.lt, ?_, ?_, fun value h => modField_spec h⟩
  · rw [horner_spec x.lt (words_lt coefficients), hresidue]
  · intro product n a b ha
    apply toInt_foldl_dotStep
    rw [List.length_zip, List.length_take]
    omega
  · intro n a b ha
    apply toInt_weightedTotal
    · rw [List.length_take]
      exact (min_le_right _ _).trans (by decide)
    · rw [List.length_zip]
      omega

theorem matrix_evaluation_largest :
    (2 * 1032193 ^ 2 + 1032193 - 1 : UInt64).toNat < 2 * modulus ^ 2 + modulus ∧
      (modField (2 * 1032193 ^ 2 + 1032193 - 1)).toNat =
        (2 * 1032193 ^ 2 + 1032193 - 1 : UInt64).toNat % modulus := by
  have hbound : (2 * 1032193 ^ 2 + 1032193 - 1 : UInt64).toNat < 2 * modulus ^ 2 + modulus := by
    decide
  obtain ⟨-, -, -, -, -, -, hexact⟩ := matrix_evaluation (fun _ => ⟨1, by decide⟩) ⟨1, by decide⟩
  exact ⟨hbound, hexact _ hbound⟩

end MoMiner.Octopus
