import MoMiner.Nexapow.Reduction
import MoMiner.Nexapow.Words

/-!
# Reference field arithmetic

The field arithmetic of the reference kernel. A column of a product is added up in two words of 64
bits, the upper of which counts the carries out of the lower; the reduction folds the upper limbs of
an array of 64-bit words three times and subtracts the prime at most once.

Main results: `npCombaMul_spec`, `npCombaSquare_eq` and `npFieldReduce_spec`.
-/

namespace MoMiner.Nexapow

open MoMiner.Limbs

local instance neZeroEightReference : NeZero 8 := ⟨by decide⟩

def kFieldPrime : U256 :=
  ⟨[0xfffffc2f, 0xfffffffe, 0xffffffff, 0xffffffff, 0xffffffff, 0xffffffff, 0xffffffff, 0xffffffff],
    rfl⟩

/-! ## Columns -/

/-- A sum of 128 bits. -/
structure Comba where
  low : UInt64
  high : UInt64

def npCombaAddProduct (acc : Comba) (a b : UInt32) : Comba :=
  let product := a.toUInt64 * b.toUInt64
  let low := acc.low + product
  { low, high := acc.high + if low < acc.low then 1 else 0 }

def npCombaCarry (acc : Comba) : UInt64 :=
  (acc.low >>> 32) ||| (acc.high <<< 32)

/-- Add the products of a column. -/
def combaColumn (acc : Comba) (pairs : List (UInt32 × UInt32)) : Comba :=
  pairs.foldl (fun acc p => npCombaAddProduct acc p.1 p.2) acc

def combaMulColumn (a b : U256) (carry : UInt64) (column : ℕ) : UInt64 × UInt32 :=
  let acc := combaColumn ⟨carry, 0⟩ ((columnPairs 8 column).map fun p => (a.get p.1, b.get p.2))
  (npCombaCarry acc, acc.low.toUInt32)

def npCombaMul (a b : U256) : Number 16 :=
  ⟨(scan (combaMulColumn a b) 0 (List.range 16)).2, by simp⟩

/-- In a square the products of different limbs are added twice. -/
def combaSquareColumn (a : U256) (carry : UInt64) (column : ℕ) : UInt64 × UInt32 :=
  let acc := combaColumn ⟨carry, 0⟩
    (((columnPairs 8 column).filter fun p => p.1 ≤ p.2).flatMap fun p =>
      if p.1 = p.2 then [(a.get p.1, a.get p.2)]
      else [(a.get p.1, a.get p.2), (a.get p.1, a.get p.2)])
  (npCombaCarry acc, acc.low.toUInt32)

def npCombaSquare (a : U256) : Number 16 :=
  ⟨(scan (combaSquareColumn a) 0 (List.range 16)).2, by simp⟩

/-! ## Reduction -/

/-- An array of 64-bit words, one for each limb. -/
abbrev Words := ℕ → UInt64

/-- Add the low limb, 977 times the high limb, and the high limb one place up. -/
def foldLimb (product : Number 16) (limbs : Words) (i : ℕ) : Words :=
  let high := (limbAt product (i + 8)).toUInt64
  let limbs := Function.update limbs i (limbs i + ((limbAt product i).toUInt64 + high * 977))
  Function.update limbs (i + 1) (limbs (i + 1) + high)

def normalizeLimb (limbs : Words) (i : ℕ) : Words :=
  let limbs := Function.update limbs (i + 1) (limbs (i + 1) + (limbs i >>> 32))
  Function.update limbs i (limbs i).toUInt32.toUInt64

def normalize (limbs : Words) : Words :=
  (List.range 9).foldl normalizeLimb limbs

/-- Fold the two words above 256 bits. -/
def foldWords (limbs : Words) : Words :=
  let high0 := limbs 8
  let high1 := limbs 9
  let limbs := Function.update (Function.update limbs 8 0) 9 0
  let limbs := Function.update limbs 0 (limbs 0 + high0 * 977)
  let limbs := Function.update limbs 1 (limbs 1 + (high0 + high1 * 977))
  let limbs := Function.update limbs 2 (limbs 2 + high1)
  normalize limbs

/-- The eight low words of an array. -/
def lowWords (limbs : Words) : U256 :=
  Number.ofFn fun i : Fin 8 => (limbs i.val).toUInt32

/-- One conditional subtraction. -/
def npReduceMod (value modulus : U256) : U256 :=
  if 0 ≤ npCmp value modulus then (npSubRaw value modulus).2 else value

def npFieldReduce (product : Number 16) : U256 :=
  let limbs := normalize ((List.range 8).foldl (foldLimb product) fun _ => 0)
  npReduceMod (lowWords (foldWords (foldWords limbs))) kFieldPrime

def npFieldMul (a b : U256) : U256 := npFieldReduce (npCombaMul a b)

def npFieldSquare (a : U256) : U256 := npFieldReduce (npCombaSquare a)

/-! ## Products -/

def Comba.toNat (acc : Comba) : ℕ := acc.low.toNat + 2 ^ 64 * acc.high.toNat

theorem npCombaAddProduct_spec {acc : Comba} (a b : UInt32) (hacc : acc.high.toNat + 1 < 2 ^ 32) :
    (npCombaAddProduct acc a b).toNat = acc.toNat + a.toNat * b.toNat ∧
      (npCombaAddProduct acc a b).high.toNat ≤ acc.high.toNat + 1 := by
  have hlt := acc.low.toNat_lt
  have hle : a.toNat * b.toNat ≤ (2 ^ 32 - 1) * (2 ^ 32 - 1) :=
    Nat.mul_le_mul (Nat.le_sub_one_of_lt a.toNat_lt) (Nat.le_sub_one_of_lt b.toNat_lt)
  have hproduct : (a.toUInt64 * b.toUInt64).toNat = a.toNat * b.toNat := by
    rw [UInt64.toNat_mul, UInt32.toNat_toUInt64, UInt32.toNat_toUInt64]
    exact Nat.mod_eq_of_lt (by omega)
  have hlow : (acc.low + a.toUInt64 * b.toUInt64).toNat =
      (acc.low.toNat + a.toNat * b.toNat) % 2 ^ 64 := by
    rw [UInt64.toNat_add, hproduct]
  rw [npCombaAddProduct, Comba.toNat, Comba.toNat]
  dsimp only
  split_ifs with hcarry <;> rw [UInt64.lt_iff_toNat_lt, hlow] at hcarry <;>
    rw [hlow, UInt64.toNat_add]
  · rw [UInt64.toNat_one]
    omega
  · rw [UInt64.toNat_zero]
    omega

theorem combaColumn_spec {acc : Comba} {pairs : List (UInt32 × UInt32)}
    (hacc : acc.high.toNat + pairs.length < 2 ^ 32) :
    (combaColumn acc pairs).toNat =
        acc.toNat + (pairs.map fun p => p.1.toNat * p.2.toNat).sum ∧
      (combaColumn acc pairs).high.toNat ≤ acc.high.toNat + pairs.length := by
  induction pairs generalizing acc with
  | nil => simp [combaColumn]
  | cons p pairs ih =>
    rw [List.length_cons] at hacc
    obtain ⟨hsum, hhigh⟩ := @npCombaAddProduct_spec acc p.1 p.2 (by omega)
    obtain ⟨hsum', hhigh'⟩ := @ih (npCombaAddProduct acc p.1 p.2) (by omega)
    rw [combaColumn, List.foldl_cons, List.map_cons, List.sum_cons, List.length_cons]
    rw [combaColumn] at hsum' hhigh'
    omega

/-- What goes to the next column. -/
theorem npCombaCarry_spec {acc : Comba} (hacc : acc.high.toNat < 2 ^ 32) :
    acc.low.toUInt32.toNat + 2 ^ 32 * (npCombaCarry acc).toNat = acc.toNat := by
  have hlt := acc.low.toNat_lt
  have hhigh : (acc.high <<< 32).toNat = 2 ^ 32 * acc.high.toNat := by
    rw [UInt64.toNat_shiftLeft, Nat.shiftLeft_eq]
    change acc.high.toNat * 2 ^ 32 % 2 ^ 64 = _
    omega
  have hlow : (acc.low >>> 32).toNat = acc.low.toNat / 2 ^ 32 := by
    rw [UInt64.toNat_shiftRight, Nat.shiftRight_eq_div_pow]
    rfl
  rw [npCombaCarry, UInt64.toNat_or, hlow, hhigh, Nat.or_comm,
    ← Nat.two_pow_add_eq_or_of_lt (by omega), UInt64.toNat_toUInt32, Comba.toNat]
  omega

/-- One column: the limb and the carry are the carry before and the products. -/
theorem column_spec {carry : UInt64} {pairs : List (UInt32 × UInt32)} (h : pairs.length < 2 ^ 32) :
    (combaColumn ⟨carry, 0⟩ pairs).low.toUInt32.toNat +
        2 ^ 32 * (npCombaCarry (combaColumn ⟨carry, 0⟩ pairs)).toNat =
      carry.toNat + (pairs.map fun p => p.1.toNat * p.2.toNat).sum := by
  have hzero : (⟨carry, 0⟩ : Comba).high.toNat = 0 := rfl
  have hstart : (⟨carry, 0⟩ : Comba).toNat = carry.toNat := by simp [Comba.toNat]
  have hbound : (⟨carry, 0⟩ : Comba).high.toNat + pairs.length < 2 ^ 32 := by rwa [hzero, zero_add]
  obtain ⟨hsum, hhigh⟩ := combaColumn_spec hbound
  rw [npCombaCarry_spec (hhigh.trans_lt hbound), hsum, hstart]

/-- The limbs of all columns, when nothing is left for a column above. -/
theorem value_columns_of_lt {step : UInt64 → ℕ → UInt64 × UInt32} {term : ℕ → ℕ} {n total : ℕ}
    (hstep : ∀ carry, ∀ column < n, (step carry column).2.toNat +
      2 ^ 32 * (step carry column).1.toNat = carry.toNat + term column)
    (htotal : weigh ((List.range n).map fun column => (term column : ℤ)) = total)
    (hlt : total < (2 ^ 32) ^ n) : value (scan step 0 (List.range n)).2 = total := by
  have hzero : ((0 : UInt64).toNat : ℤ) = 0 := rfl
  obtain ⟨-, hsum⟩ := value_scan step (fun carry => (carry.toNat : ℤ))
    (fun column => (term column : ℤ)) (fun _ => True) (l := List.range n) (s := 0) trivial
    fun carry column hcolumn _ => by
      refine ⟨trivial, ?_⟩
      have h := hstep carry column (List.mem_range.mp hcolumn)
      zify at h
      linear_combination h
  rw [htotal, hzero, add_zero, List.length_range] at hsum
  have hvalue : value (scan step 0 (List.range n)).2 +
      (2 ^ 32) ^ n * (scan step 0 (List.range n)).1.toNat = total := by
    exact_mod_cast hsum
  rcases Nat.eq_zero_or_pos (scan step 0 (List.range n)).1.toNat with hcarry | hcarry
  · rwa [hcarry, Nat.mul_zero, Nat.add_zero] at hvalue
  · have := Nat.le_mul_of_pos_right ((2 ^ 32) ^ n) hcarry
    omega

theorem product_lt (a b : U256) : a.toNat * b.toNat < (2 ^ 32) ^ 16 :=
  calc a.toNat * b.toNat < (2 ^ 32) ^ 8 * (2 ^ 32) ^ 8 := Nat.mul_lt_mul'' a.toNat_lt b.toNat_lt
    _ = (2 ^ 32) ^ 16 := by norm_num

theorem length_columnPairs_lt : ∀ column < 16, (columnPairs 8 column).length < 2 ^ 16 := by
  decide

/-- **The product is exact.** -/
theorem npCombaMul_spec (a b : U256) : (npCombaMul a b).toNat = a.toNat * b.toNat := by
  refine @value_columns_of_lt _ (columnSum a b) _ _ (fun carry column hcolumn => ?_) ?_
    (product_lt a b)
  · have hlength := length_columnPairs_lt column hcolumn
    refine (column_spec (by rw [List.length_map]; omega)).trans ?_
    rw [List.map_map, columnSum]
    rfl
  · exact_mod_cast weigh_columns a b (by norm_num)

theorem sum_flatMap {α : Type} (l : List α) (f : α → List (UInt32 × UInt32)) :
    ((l.flatMap f).map fun p => p.1.toNat * p.2.toNat).sum =
      (l.map fun p => ((f p).map fun p => p.1.toNat * p.2.toNat).sum).sum := by
  induction l with
  | nil => rfl
  | cons p l ih =>
    rw [List.flatMap_cons, List.map_append, List.sum_append, ih, List.map_cons, List.sum_cons]

theorem length_flatMap_le {α β : Type} {f : α → List β} (hf : ∀ a, (f a).length ≤ 2) (l : List α) :
    (l.flatMap f).length ≤ 2 * l.length := by
  induction l with
  | nil => exact Nat.le_refl 0
  | cons a l ih =>
    have ha := hf a
    rw [List.flatMap_cons, List.length_append, List.length_cons]
    omega

/-- **The square is the product with itself.** -/
theorem npCombaSquare_eq (a : U256) : npCombaSquare a = npCombaMul a a := by
  refine Number.eq_of_toNat_eq ?_
  rw [npCombaMul_spec]
  refine @value_columns_of_lt _ (columnSum a a) _ _ (fun carry column hcolumn => ?_) ?_
    (product_lt a a)
  · have hlength := length_columnPairs_lt column hcolumn
    have hfilter := ((columnPairs 8 column).length_filter_le fun p => p.1 ≤ p.2)
    refine (column_spec ?_).trans ?_
    · refine (length_flatMap_le (fun p => ?_) _).trans_lt ?_
      · split_ifs <;> simp
      · omega
    · rw [sum_flatMap, ← sum_squareAmount]
      refine congrArg (carry.toNat + List.sum ·) (List.map_congr_left fun p _ => ?_)
      rw [squareAmount]
      split_ifs with heq
      · simp [heq]
      · simp [two_mul]
  · exact_mod_cast weigh_columns a a (by norm_num)

/-! ## Arrays of words -/

def wordsValue (limbs : Words) : ℕ :=
  LimbArray.value (2 ^ 32) (fun i => (limbs i).toNat) 10

theorem wordsValue_update {limbs : Words} {k : ℕ} (hk : k < 10) (w : UInt64) :
    wordsValue (Function.update limbs k w) + (limbs k).toNat * (2 ^ 32) ^ k =
      wordsValue limbs + w.toNat * (2 ^ 32) ^ k :=
  LimbArray.value_update_words UInt64.toNat hk w

theorem wordsValue_add {limbs : Words} {k : ℕ} (hk : k < 10) {w : UInt64}
    (hfit : (limbs k).toNat + w.toNat < 2 ^ 64) :
    wordsValue (Function.update limbs k (limbs k + w)) =
      wordsValue limbs + w.toNat * (2 ^ 32) ^ k := by
  have hupdate := @wordsValue_update limbs _ hk (limbs k + w)
  rw [UInt64.toNat_add, Nat.mod_eq_of_lt hfit, Nat.add_mul] at hupdate
  omega

theorem bounded_update {limbs : Words} {bound k : ℕ} {w : UInt64}
    (h : ∀ j < 10, (limbs j).toNat < bound) (hw : w.toNat < bound) :
    ∀ j < 10, (Function.update limbs k w j).toNat < bound := by
  intro j hj
  by_cases hjk : j = k
  · rwa [hjk, Function.update_self]
  · rw [Function.update_of_ne hjk]
    exact h j hj

theorem toNat_add_of_fit {x y : UInt64} (h : x.toNat + y.toNat < 2 ^ 64) :
    (x + y).toNat = x.toNat + y.toNat := by
  rw [UInt64.toNat_add, Nat.mod_eq_of_lt h]

/-- The words below `i` are limbs, the word `i` has taken a carry. -/
structure Normalized (i : ℕ) (limbs : Words) : Prop where
  below : ∀ j < i, (limbs j).toNat < 2 ^ 32
  at_index : (limbs i).toNat < 2 ^ 63
  above : ∀ j < 10, i < j → (limbs j).toNat < 2 ^ 62

theorem normalizeLimb_spec {limbs : Words} {i : ℕ} (hi : i < 9) (hs : Normalized i limbs) :
    Normalized (i + 1) (normalizeLimb limbs i) ∧
      wordsValue (normalizeLimb limbs i) = wordsValue limbs := by
  have hat := hs.at_index
  have hnext := hs.above (i + 1) (by omega) (Nat.lt_succ_self i)
  have hcarry : (limbs i >>> 32).toNat = (limbs i).toNat / 2 ^ 32 := by
    rw [UInt64.toNat_shiftRight, Nat.shiftRight_eq_div_pow]
    rfl
  have hlow : (limbs i).toUInt32.toUInt64.toNat = (limbs i).toNat % 2 ^ 32 := by
    rw [UInt32.toNat_toUInt64, UInt64.toNat_toUInt32]
  have hne : i ≠ i + 1 := Nat.ne_of_lt (Nat.lt_succ_self i)
  rw [normalizeLimb, Function.update_of_ne hne]
  refine ⟨⟨fun j hj => ?_, ?_, fun j hj hij => ?_⟩, ?_⟩
  · by_cases hji : j = i
    · rw [hji, Function.update_self, hlow]
      exact Nat.mod_lt _ (by norm_num)
    · rw [Function.update_of_ne hji, Function.update_of_ne (by omega)]
      exact hs.below j (by omega)
  · rw [Function.update_of_ne hne.symm, Function.update_self, toNat_add_of_fit (by omega), hcarry]
    omega
  · rw [Function.update_of_ne (by omega), Function.update_of_ne (by omega)]
    exact hs.above j hj (by omega)
  · have hadd := @wordsValue_add limbs (i + 1) (by omega) (limbs i >>> 32) (by omega)
    have hset := @wordsValue_update (Function.update limbs (i + 1) (limbs (i + 1) + limbs i >>> 32))
      i (by omega) (limbs i).toUInt32.toUInt64
    rw [Function.update_of_ne hne, hadd, hlow, hcarry] at hset
    have hsplit : (limbs i).toNat * (2 ^ 32) ^ i = (limbs i).toNat / 2 ^ 32 * (2 ^ 32) ^ (i + 1) +
        (limbs i).toNat % 2 ^ 32 * (2 ^ 32) ^ i := by
      conv_lhs => rw [← Nat.div_add_mod' (limbs i).toNat (2 ^ 32)]
      ring
    omega

/-- **Normalizing keeps the number.** -/
theorem normalize_spec {limbs : Words} (hs : ∀ j < 10, (limbs j).toNat < 2 ^ 62) :
    (∀ j < 9, (normalize limbs j).toNat < 2 ^ 32) ∧
      wordsValue (normalize limbs) = wordsValue limbs := by
  have hloop : ∀ n ≤ 9, Normalized n ((List.range n).foldl normalizeLimb limbs) ∧
      wordsValue ((List.range n).foldl normalizeLimb limbs) = wordsValue limbs := by
    intro n hn
    induction n with
    | zero => exact ⟨⟨fun j hj => absurd hj (Nat.not_lt_zero j),
        (hs 0 (by norm_num)).trans (by norm_num), fun j hj _ => hs j hj⟩, rfl⟩
    | succ n ih =>
      obtain ⟨hnormal, hvalue⟩ := ih (by omega)
      rw [List.range_succ, List.foldl_append, List.foldl_cons, List.foldl_nil]
      obtain ⟨hnormal', hvalue'⟩ := normalizeLimb_spec (by omega) hnormal
      exact ⟨hnormal', hvalue'.trans hvalue⟩
  obtain ⟨hnormal, hvalue⟩ := hloop 9 le_rfl
  exact ⟨hnormal.below, hvalue⟩

/-! ## Folds -/

theorem wordsValue_eq (limbs : Words) :
    wordsValue limbs = LimbArray.value (2 ^ 32) (fun i => (limbs i).toNat) 8 +
      2 ^ 256 * ((limbs 8).toNat + 2 ^ 32 * (limbs 9).toNat) := by
  rw [wordsValue, LimbArray.value_succ, LimbArray.value_succ]
  ring

/-- The words of the first fold after `i` limbs. -/
structure Folding (product : Number 16) (i : ℕ) (limbs : Words) : Prop where
  bounded : ∀ j, (limbs j).toNat < 2 ^ 42
  at_index : (limbs i).toNat < 2 ^ 32
  above : ∀ j, i < j → limbs j = 0
  value : wordsValue limbs =
    LimbArray.value (2 ^ 32) (fun j => (limbAt product j).toNat) i +
      foldFactor * LimbArray.value (2 ^ 32) (fun j => (limbAt product (j + 8)).toNat) i

theorem foldLimb_spec {product : Number 16} {limbs : Words} {i : ℕ} (hi : i < 8)
    (h : Folding product i limbs) : Folding product (i + 1) (foldLimb product limbs i) := by
  have hlow := (limbAt product i).toNat_lt
  have hhigh := (limbAt product (i + 8)).toNat_lt
  have hat := h.at_index
  have hnext : (limbs (i + 1)).toNat = 0 := by rw [h.above _ (Nat.lt_succ_self i), UInt64.toNat_zero]
  have hterm : ((limbAt product i).toUInt64 + (limbAt product (i + 8)).toUInt64 * 977).toNat =
      (limbAt product i).toNat + (limbAt product (i + 8)).toNat * 977 := by
    have hmul : ((limbAt product (i + 8)).toUInt64 * 977).toNat =
        (limbAt product (i + 8)).toNat * 977 := by
      rw [UInt64.toNat_mul, UInt32.toNat_toUInt64]
      exact Nat.mod_eq_of_lt (by change _ * 977 < _; omega)
    rw [UInt64.toNat_add, hmul, UInt32.toNat_toUInt64]
    omega
  have hhighWord : (limbAt product (i + 8)).toUInt64.toNat = (limbAt product (i + 8)).toNat :=
    UInt32.toNat_toUInt64 _
  have hne : i + 1 ≠ i := Nat.succ_ne_self i
  have hfirst := @wordsValue_add limbs i (by omega)
    ((limbAt product i).toUInt64 + (limbAt product (i + 8)).toUInt64 * 977) (by omega)
  have hsecond := @wordsValue_add (Function.update limbs i
      (limbs i + ((limbAt product i).toUInt64 + (limbAt product (i + 8)).toUInt64 * 977)))
    (i + 1) (by omega) (limbAt product (i + 8)).toUInt64 (by
      rw [Function.update_of_ne hne]
      omega)
  have hsum := h.value
  rw [foldLimb]
  refine ⟨fun j => ?_, ?_, fun j hj => ?_, ?_⟩
  · by_cases hj : j = i + 1
    · rw [hj, Function.update_self, Function.update_of_ne hne, toNat_add_of_fit (by omega)]
      omega
    · rw [Function.update_of_ne hj]
      by_cases hji : j = i
      · rw [hji, Function.update_self, toNat_add_of_fit (by omega)]
        omega
      · rw [Function.update_of_ne hji]
        exact h.bounded j
  · rw [Function.update_self, Function.update_of_ne hne, toNat_add_of_fit (by omega)]
    omega
  · rw [Function.update_of_ne (by omega), Function.update_of_ne (by omega)]
    exact h.above j (by omega)
  · rw [hsecond, hfirst, hterm, hhighWord, hsum, LimbArray.value_succ, LimbArray.value_succ,
      foldFactor]
    ring

/-- **The first fold.** -/
theorem fold_limbs (product : Number 16) :
    Folding product 8 ((List.range 8).foldl (foldLimb product) fun _ => 0) := by
  have hloop : ∀ n ≤ 8, Folding product n ((List.range n).foldl (foldLimb product) fun _ => 0) := by
    intro n hn
    induction n with
    | zero =>
      refine ⟨fun j => ?_, ?_, fun j _ => rfl, ?_⟩
      · simp
      · simp
      · simp [wordsValue, LimbArray.value]
    | succ n ih =>
      rw [List.range_succ, List.foldl_append]
      exact foldLimb_spec (by omega) (ih (by omega))
  exact hloop 8 le_rfl

/-- **A later fold**, of what is above 256 bits. -/
theorem foldWords_spec {limbs : Words} (hlow : ∀ j < 10, (limbs j).toNat < 2 ^ 32) :
    (∀ j < 9, (foldWords limbs j).toNat < 2 ^ 32) ∧
      wordsValue (foldWords limbs) =
        wordsValue limbs % 2 ^ 256 + wordsValue limbs / 2 ^ 256 * foldFactor := by
  have h0 := hlow 0 (by norm_num)
  have h1 := hlow 1 (by norm_num)
  have h2 := hlow 2 (by norm_num)
  have h8 := hlow 8 (by norm_num)
  have h9 := hlow 9 (by norm_num)
  obtain ⟨cleared, hcleared⟩ : ∃ cleared,
    cleared = Function.update (Function.update limbs 8 0) 9 0 := ⟨_, rfl⟩
  have hkeep (j : ℕ) (h8 : j ≠ 8) (h9 : j ≠ 9) : cleared j = limbs j := by
    rw [hcleared, Function.update_of_ne h9, Function.update_of_ne h8]
  have hclearedValue : wordsValue cleared =
      LimbArray.value (2 ^ 32) (fun i => (limbs i).toNat) 8 := by
    have hfirst := @wordsValue_update limbs 8 (by norm_num) 0
    have hsecond := @wordsValue_update (Function.update limbs 8 0) 9 (by norm_num) 0
    have hsplit := wordsValue_eq limbs
    rw [Function.update_of_ne (by norm_num)] at hsecond
    rw [UInt64.toNat_zero, Nat.zero_mul, Nat.add_zero] at hfirst hsecond
    rw [hcleared]
    omega
  have hmul {w : UInt64} (hw : w.toNat < 2 ^ 32) : (w * 977).toNat = w.toNat * 977 := by
    rw [UInt64.toNat_mul]
    exact Nat.mod_eq_of_lt (by change _ * 977 < _; omega)
  have hmul8 := hmul h8
  have hmul9 := hmul h9
  have hmid : (limbs 8 + limbs 9 * 977).toNat = (limbs 8).toNat + (limbs 9).toNat * 977 := by
    rw [toNat_add_of_fit (by omega), hmul9]
  obtain ⟨first, hfirst⟩ : ∃ first,
    first = Function.update cleared 0 (cleared 0 + limbs 8 * 977) := ⟨_, rfl⟩
  obtain ⟨second, hsecond⟩ : ∃ second,
    second = Function.update first 1 (first 1 + (limbs 8 + limbs 9 * 977)) := ⟨_, rfl⟩
  have hfirst1 : first 1 = limbs 1 := by
    rw [hfirst, Function.update_of_ne (by norm_num), hkeep 1 (by norm_num) (by norm_num)]
  have hsecond2 : second 2 = limbs 2 := by
    rw [hsecond, Function.update_of_ne (by norm_num), hfirst, Function.update_of_ne (by norm_num),
      hkeep 2 (by norm_num) (by norm_num)]
  have hcleared0 : cleared 0 = limbs 0 := hkeep 0 (by norm_num) (by norm_num)
  have hfold : foldWords limbs = normalize (Function.update second 2 (second 2 + limbs 9)) := by
    rw [foldWords, hsecond, hfirst, hcleared]
  have hvalue : wordsValue (Function.update second 2 (second 2 + limbs 9)) =
      LimbArray.value (2 ^ 32) (fun i => (limbs i).toNat) 8 +
        ((limbs 8).toNat + 2 ^ 32 * (limbs 9).toNat) * foldFactor := by
    rw [wordsValue_add (by norm_num) (by rw [hsecond2]; omega), hsecond,
      wordsValue_add (by norm_num) (by rw [hfirst1]; omega), hfirst,
      wordsValue_add (by norm_num) (by rw [hcleared0]; omega), hclearedValue, hmul8, hmid,
      foldFactor]
    ring
  have hbounded : ∀ j < 10, (Function.update second 2 (second 2 + limbs 9) j).toNat < 2 ^ 62 := by
    refine bounded_update ?_ (by rw [hsecond2, toNat_add_of_fit (by omega)]; omega)
    rw [hsecond]
    refine bounded_update ?_ (by rw [hfirst1, toNat_add_of_fit (by omega)]; omega)
    rw [hfirst]
    refine bounded_update ?_ (by rw [hcleared0, toNat_add_of_fit (by omega)]; omega)
    rw [hcleared]
    refine bounded_update (bounded_update (fun j hj => ?_) (by simp)) (by simp)
    exact (hlow j hj).trans (by norm_num)
  obtain ⟨hnormal, hsame⟩ := normalize_spec hbounded
  have hsmall := @LimbArray.value_lt (2 ^ 32) (fun i => (limbs i).toNat) 8
    fun i hi => hlow i (by omega)
  have hsplit := wordsValue_eq limbs
  rw [hfold]
  refine ⟨hnormal, ?_⟩
  rw [hsame, hvalue, hsplit]
  have hpow : (2 ^ 32) ^ 8 = 2 ^ 256 := by norm_num
  rw [hpow] at hsmall
  rw [Nat.add_mul_mod_self_left, Nat.mod_eq_of_lt hsmall, Nat.add_mul_div_left _ _ (by norm_num),
    Nat.div_eq_of_lt hsmall, Nat.zero_add]

/-! ## The canonical residue -/

theorem lowWords_toNat {limbs : Words} (hlow : ∀ j < 8, (limbs j).toNat < 2 ^ 32) :
    (lowWords limbs).toNat = LimbArray.value (2 ^ 32) (fun i => (limbs i).toNat) 8 := by
  rw [lowWords, Number.toNat_ofFn fun i => (limbs i).toUInt32]
  refine Finset.sum_congr rfl fun i hi => ?_
  have h := hlow i (Finset.mem_range.mp hi)
  rw [UInt64.toNat_toUInt32, Nat.mod_eq_of_lt h, Nat.mul_comm]

theorem npReduceMod_spec {value modulus : U256} (h : value.toNat < 2 * modulus.toNat) :
    (npReduceMod value modulus).toNat = value.toNat % modulus.toNat := by
  rw [npReduceMod]
  split_ifs with hcmp <;> rw [npCmp_nonneg] at hcmp
  · rw [(npSubRaw_of_le hcmp).2, Nat.mod_eq_sub_mod hcmp, Nat.mod_eq_of_lt (by omega)]
  · rw [Nat.mod_eq_of_lt (by omega)]

theorem kFieldPrime_toNat : kFieldPrime.toNat = fieldPrime := by decide +kernel

/-- A fold of words keeps the residue. -/
theorem foldWords_modEq {limbs : Words} (hlow : ∀ j < 10, (limbs j).toNat < 2 ^ 32) :
    wordsValue (foldWords limbs) ≡ wordsValue limbs [MOD fieldPrime] := by
  rw [(foldWords_spec hlow).2]
  have h := fold_modEq (wordsValue limbs % 2 ^ 256) (wordsValue limbs / 2 ^ 256)
  rwa [Nat.mod_add_div] at h

/-- The words are limbs when the number is small enough. -/
theorem words_lt {limbs : Words} (hlow : ∀ j < 9, (limbs j).toNat < 2 ^ 32)
    (hvalue : wordsValue limbs < 2 ^ 320) : ∀ j < 10, (limbs j).toNat < 2 ^ 32 := by
  intro j hj
  rcases Nat.lt_succ_iff_lt_or_eq.mp hj with hj | rfl
  · exact hlow j hj
  · have hsplit := wordsValue_eq limbs
    omega

/-- **Reduction.** Every number of 512 bits is reduced to its canonical residue. -/
theorem npFieldReduce_spec (product : Number 16) :
    (npFieldReduce product).toNat = product.toNat % fieldPrime := by
  have hfold := fold_limbs product
  obtain ⟨words, hwords⟩ : ∃ words,
    words = normalize ((List.range 8).foldl (foldLimb product) fun _ => 0) := ⟨_, rfl⟩
  obtain ⟨low, hlow⟩ : ∃ low,
    low = LimbArray.value (2 ^ 32) (fun j => (limbAt product j).toNat) 8 := ⟨_, rfl⟩
  obtain ⟨high, hhigh⟩ : ∃ high,
    high = LimbArray.value (2 ^ 32) (fun j => (limbAt product (j + 8)).toNat) 8 := ⟨_, rfl⟩
  have hlowLt : low < 2 ^ 256 := by
    rw [hlow]
    exact LimbArray.value_lt fun i _ => (limbAt product i).toNat_lt
  have hhighLt : high < 2 ^ 256 := by
    rw [hhigh]
    exact LimbArray.value_lt fun i _ => (limbAt product (i + 8)).toNat_lt
  have hproduct : product.toNat = low + 2 ^ 256 * high := by
    rw [toNat_eq_value, hlow, hhigh]
    simp only [LimbArray.value, Finset.sum_range_succ, Finset.sum_range_zero]
    ring
  obtain ⟨hnormal, hvalue⟩ := normalize_spec fun j _ => (hfold.bounded j).trans (by norm_num)
  rw [hfold.value, ← hlow, ← hhigh, ← hwords] at hvalue
  rw [← hwords] at hnormal
  have hfactor : foldFactor = 4294968273 := rfl
  -- Three folds leave a number of 256 bits.
  have hwordsLt := words_lt hnormal (by rw [hvalue, hfactor]; omega)
  obtain ⟨hnormal', hvalue'⟩ := foldWords_spec hwordsLt
  have hwordsLt' := words_lt hnormal' (by rw [hvalue', hvalue, hfactor]; omega)
  obtain ⟨hnormal'', hvalue''⟩ := foldWords_spec hwordsLt'
  have hlast : wordsValue (foldWords (foldWords words)) < 2 ^ 256 := by
    rw [hvalue'', hvalue', hvalue, hfactor]
    omega
  have hresult : (lowWords (foldWords (foldWords words))).toNat =
      wordsValue (foldWords (foldWords words)) := by
    have hsplit := wordsValue_eq (foldWords (foldWords words))
    rw [lowWords_toNat fun j hj => hnormal'' j (by omega)]
    omega
  have hmod : wordsValue (foldWords (foldWords words)) ≡ product.toNat [MOD fieldPrime] := by
    calc wordsValue (foldWords (foldWords words)) ≡ wordsValue (foldWords words) [MOD fieldPrime] :=
          foldWords_modEq hwordsLt'
      _ ≡ wordsValue words [MOD fieldPrime] := foldWords_modEq hwordsLt
      _ = low + high * foldFactor := by rw [hvalue, Nat.mul_comm]
      _ ≡ low + 2 ^ 256 * high [MOD fieldPrime] := fold_modEq low high
      _ = product.toNat := hproduct.symm
  have hprime : 2 ^ 256 < 2 * fieldPrime := by decide
  rw [npFieldReduce, ← hwords, npReduceMod_spec (by rw [hresult, kFieldPrime_toNat]; omega),
    hresult, kFieldPrime_toNat]
  exact hmod

theorem npFieldMul_spec (a b : U256) :
    (npFieldMul a b).toNat = a.toNat * b.toNat % fieldPrime := by
  rw [npFieldMul, npFieldReduce_spec, npCombaMul_spec]

theorem npFieldSquare_eq (a : U256) : npFieldSquare a = npFieldMul a a := by
  rw [npFieldSquare, npFieldMul, npCombaSquare_eq]

end MoMiner.Nexapow
