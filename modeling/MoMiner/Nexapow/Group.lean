import MoMiner.Nexapow.Inverse
import MoMiner.Nexapow.Montgomery

/-!
# Folding by the complement of the group order

The pipeline multiplies modulo the group order another way: the limbs above 256 bits are replaced by
their product with the complement of the order, four times, and the order is subtracted at most once.

Main results: `groupMul_spec` and `modular_arithmetic_exact`.
-/

namespace MoMiner.Nexapow

open MoMiner.Limbs

/-- What `2 ^ 256` is above the group order. -/
def complement : List UInt32 := [0x2fc9bebf, 0x402da173, 0x50b75fc4, 0x45512319, 1]

/-- One column of a fold. In place, a column reads its word before it writes it. -/
def foldColumn (highLimbs : ℕ) (low high : ℕ → UInt32) (carry : UInt64) (column : ℕ) :
    UInt64 × UInt32 :=
  let lower := if column < 8 then carry + (low column).toUInt64 else carry
  let acc : Comba := { low := lower, high := if column < 8 ∧ lower < carry then 1 else 0 }
  let acc := combaColumn acc (((List.range highLimbs).filter fun limb =>
    limb ≤ column ∧ column - limb < 5).map fun limb => (high limb, complement.getD (column - limb) 0))
  (npCombaCarry acc, acc.low.toUInt32)

def groupFoldComplement (highLimbs outputLimbs : ℕ) (low high : ℕ → UInt32) : Number outputLimbs :=
  ⟨(scan (foldColumn highLimbs low high) 0 (List.range outputLimbs)).2, by simp⟩

def groupMul (a b : U256) : U256 :=
  let product := limbAt (npCombaMul a b)
  let work := limbAt (groupFoldComplement 8 13 product fun i => product (8 + i))
  let work := limbAt (groupFoldComplement 5 9 work fun i => work (8 + i))
  let work := limbAt (groupFoldComplement 1 9 work fun _ => work 8)
  let work := limbAt (groupFoldComplement 1 9 work fun _ => work 8)
  let result : U256 := Number.ofFn fun i => work i.val
  let reduced := npSubRaw result kGroupOrder
  if reduced.1 = 0 then reduced.2 else result

/-! ## A fold -/

def complementValue : ℕ := LimbArray.value (2 ^ 32) (fun k => (complement.getD k 0).toNat) 5

theorem complementValue_constants : complementValue + groupOrder = 2 ^ 256 ∧
    complementValue = 432420386565659656852420866394968145599 := by
  decide +kernel

theorem complementValue_eq : complementValue + groupOrder = 2 ^ 256 := complementValue_constants.1

/-- What a column adds. -/
def foldTerm (highLimbs : ℕ) (low high : ℕ → UInt32) (column : ℕ) : ℕ :=
  (if column < 8 then (low column).toNat else 0) +
    (((List.range highLimbs).filter fun limb => limb ≤ column ∧ column - limb < 5).map fun limb =>
      (high limb).toNat * (complement.getD (column - limb) 0).toNat).sum

variable {highLimbs outputLimbs : ℕ} {low high : ℕ → UInt32}

theorem foldColumn_spec (hlimbs : highLimbs ≤ 8) (carry : UInt64) (column : ℕ) :
    (foldColumn highLimbs low high carry column).2.toNat +
        2 ^ 32 * (foldColumn highLimbs low high carry column).1.toNat =
      carry.toNat + foldTerm highLimbs low high column := by
  obtain ⟨acc, hacc⟩ : ∃ acc : Comba, acc =
    { low := if column < 8 then carry + (low column).toUInt64 else carry
      high := if column < 8 ∧ (if column < 8 then carry + (low column).toUInt64 else carry) < carry
        then 1 else 0 } := ⟨_, rfl⟩
  obtain ⟨pairs, hpairs⟩ : ∃ pairs, pairs = ((List.range highLimbs).filter fun limb =>
    limb ≤ column ∧ column - limb < 5).map fun limb =>
      (high limb, complement.getD (column - limb) 0) := ⟨_, rfl⟩
  have hstart : acc.toNat = carry.toNat + (if column < 8 then (low column).toNat else 0) ∧
      acc.high.toNat ≤ 1 := by
    have hcarry := carry.toNat_lt
    have hlow := (low column).toNat_lt
    have hsum : (carry + (low column).toUInt64).toNat =
        (carry.toNat + (low column).toNat) % 2 ^ 64 := by
      rw [UInt64.toNat_add, UInt32.toNat_toUInt64]
    rw [hacc, Comba.toNat]
    by_cases hcolumn : column < 8
    · simp only [hcolumn, if_true, true_and]
      split_ifs with hlt <;> rw [UInt64.lt_iff_toNat_lt, hsum] at hlt <;> rw [hsum]
      · rw [UInt64.toNat_one]
        omega
      · rw [UInt64.toNat_zero]
        omega
    · simp [hcolumn]
  have hlength : pairs.length ≤ 8 := by
    rw [hpairs, List.length_map]
    refine (List.length_filter_le _ _).trans ?_
    rwa [List.length_range]
  obtain ⟨hsum, hhigh⟩ := @combaColumn_spec acc pairs (by omega)
  have hterm : (pairs.map fun p => p.1.toNat * p.2.toNat) =
      ((List.range highLimbs).filter fun limb => limb ≤ column ∧ column - limb < 5).map fun limb =>
        (high limb).toNat * (complement.getD (column - limb) 0).toNat := by
    rw [hpairs, List.map_map]
    rfl
  have hcolumn : foldColumn highLimbs low high carry column =
      (npCombaCarry (combaColumn acc pairs), (combaColumn acc pairs).low.toUInt32) := by
    rw [foldColumn, hacc, hpairs]
  rw [hcolumn, npCombaCarry_spec (by omega), hsum, hstart.1, hterm, foldTerm, Nat.add_assoc]

theorem sum_filter_range (p : ℕ → Bool) (f : ℕ → ℕ) (n : ℕ) :
    (((List.range n).filter p).map f).sum = ∑ i ∈ Finset.range n, if p i then f i else 0 := by
  induction n with
  | zero => rfl
  | succ n ih =>
    rw [List.range_succ, List.filter_append, List.map_append, List.sum_append, ih,
      Finset.sum_range_succ]
    by_cases hp : p n <;> simp [hp]

/-- **The columns of a product** of arrays of different lengths. -/
theorem sum_columns {x y : ℕ → ℕ} {n m o : ℕ} (h : n + m ≤ o + 1) :
    ∑ column ∈ Finset.range o, (2 ^ 32) ^ column *
        (((List.range n).filter fun i => i ≤ column ∧ column - i < m).map fun i =>
          x i * y (column - i)).sum =
      LimbArray.value (2 ^ 32) x n * LimbArray.value (2 ^ 32) y m := by
  have hrow : ∀ i ∈ Finset.range n,
      (∑ column ∈ Finset.range o, (2 ^ 32) ^ column *
        if i ≤ column ∧ column - i < m then x i * y (column - i) else 0) =
      x i * (2 ^ 32) ^ i * LimbArray.value (2 ^ 32) y m := by
    intro i hi
    rw [Finset.mem_range] at hi
    have hcolumns : (Finset.range o).filter (fun column => i ≤ column ∧ column - i < m) =
        Finset.Ico i (i + m) := by
      ext column
      simp only [Finset.mem_filter, Finset.mem_range, Finset.mem_Ico]
      omega
    simp only [mul_ite, mul_zero]
    rw [← Finset.sum_filter, hcolumns, Finset.sum_Ico_eq_sum_range, Nat.add_sub_cancel_left,
      LimbArray.value, Finset.mul_sum]
    refine Finset.sum_congr rfl fun k _ => ?_
    rw [Nat.add_sub_cancel_left, pow_add]
    ring
  simp only [sum_filter_range, decide_eq_true_eq, Finset.mul_sum]
  rw [Finset.sum_comm, LimbArray.value, Finset.sum_mul]
  exact Finset.sum_congr rfl hrow

/-- **A fold** whose limbs hold its result. -/
theorem groupFoldComplement_spec (hlimbs : highLimbs ≤ 8) (hcolumns : highLimbs + 5 ≤ outputLimbs + 1)
    {lowValue highValue : ℕ}
    (hlow : LimbArray.value (2 ^ 32) (fun i => (low i).toNat) 8 = lowValue)
    (hhigh : LimbArray.value (2 ^ 32) (fun i => (high i).toNat) highLimbs = highValue)
    (houtput : 8 ≤ outputLimbs)
    (hlt : lowValue + highValue * complementValue < (2 ^ 32) ^ outputLimbs) :
    (groupFoldComplement highLimbs outputLimbs low high).toNat =
      lowValue + highValue * complementValue := by
  refine @value_columns_of_lt _ (foldTerm highLimbs low high) _ _
    (fun carry column _ => foldColumn_spec hlimbs carry column) ?_ hlt
  have hlowSum : ∑ column ∈ Finset.range outputLimbs, (2 ^ 32) ^ column *
      (if column < 8 then (low column).toNat else 0) = lowValue := by
    rw [← hlow, LimbArray.value]
    have hsubset : Finset.range 8 ⊆ Finset.range outputLimbs :=
      Finset.range_subset_range.mpr houtput
    rw [← Finset.sum_subset hsubset]
    · refine Finset.sum_congr rfl fun i hi => ?_
      rw [if_pos (Finset.mem_range.mp hi), Nat.mul_comm]
    · intro i _ hi
      rw [Finset.mem_range] at hi
      rw [if_neg hi, Nat.mul_zero]
  have hhighSum := sum_columns (x := fun i => (high i).toNat)
    (y := fun k => (complement.getD k 0).toNat) hcolumns
  rw [hhigh] at hhighSum
  have htotal : ∑ column ∈ Finset.range outputLimbs,
      (2 ^ 32) ^ column * foldTerm highLimbs low high column =
        lowValue + highValue * complementValue := by
    rw [complementValue, ← hhighSum, ← hlowSum, ← Finset.sum_add_distrib]
    exact Finset.sum_congr rfl fun column _ => Nat.mul_add ..
  rw [weigh_map_range]
  exact_mod_cast htotal

/-! ## The product -/

theorem complementValue_nat : complementValue = 432420386565659656852420866394968145599 :=
  complementValue_constants.2

/-- What a fold leaves of a number. -/
def folded (v : ℕ) : ℕ := v % 2 ^ 256 + v / 2 ^ 256 * complementValue

theorem folded_modEq (v : ℕ) : folded v ≡ v [MOD groupOrder] := by
  have hpow : 2 ^ 256 = groupOrder + complementValue := by
    rw [← complementValue_eq, Nat.add_comm]
  have hsplit : v = folded v + groupOrder * (v / 2 ^ 256) := by
    have h := Nat.mod_add_div v (2 ^ 256)
    have hmul : 2 ^ 256 * (v / 2 ^ 256) =
        groupOrder * (v / 2 ^ 256) + complementValue * (v / 2 ^ 256) := by
      conv_lhs => rw [hpow]
      rw [Nat.add_mul, ← hpow]
    rw [folded, Nat.mul_comm (v / 2 ^ 256)]
    omega
  conv_rhs => rw [hsplit]
  exact (Nat.add_mul_mod_self_left ..).symm

/-- A number of more than eight limbs, as what is below and above 256 bits. -/
theorem low_high {k : ℕ} (work : Number (8 + k)) :
    LimbArray.value (2 ^ 32) (fun i => (limbAt work i).toNat) 8 = work.toNat % 2 ^ 256 ∧
      LimbArray.value (2 ^ 32) (fun i => (limbAt work (8 + i)).toNat) k = work.toNat / 2 ^ 256 := by
  have hlow := LimbArray.value_lt (B := 2 ^ 32) (n := 8) fun i _ => (limbAt work i).toNat_lt
  have hpow : (2 ^ 32) ^ 8 = 2 ^ 256 := by norm_num
  rw [hpow] at hlow
  rw [toNat_eq_value work, LimbArray.value_add, hpow, Nat.add_mul_mod_self_left,
    Nat.mod_eq_of_lt hlow, Nat.add_mul_div_left _ _ (by norm_num), Nat.div_eq_of_lt hlow,
    Nat.zero_add]
  exact ⟨rfl, rfl⟩

theorem fold_spec {k outputLimbs : ℕ} (work : Number (8 + k)) {high : ℕ → UInt32}
    (hhigh : ∀ i < k, high i = limbAt work (8 + i)) (hk : k ≤ 8) (hcolumns : k + 5 ≤ outputLimbs + 1)
    (houtput : 8 ≤ outputLimbs) (hlt : folded work.toNat < (2 ^ 32) ^ outputLimbs) :
    (groupFoldComplement k outputLimbs (limbAt work) high).toNat = folded work.toNat := by
  obtain ⟨hlow, hhigh'⟩ := low_high work
  refine groupFoldComplement_spec hk hcolumns hlow ?_ houtput hlt
  rw [← hhigh']
  exact LimbArray.value_congr fun i hi => by rw [hhigh i hi]

/-- **The product modulo the group order, by folds.** -/
theorem groupMul_spec (a b : U256) : (groupMul a b).toNat = a.toNat * b.toNat % groupOrder := by
  obtain ⟨product, hproduct⟩ : ∃ product : Number (8 + 8), product = npCombaMul a b := ⟨_, rfl⟩
  have hvalue : product.toNat = a.toNat * b.toNat := by rw [hproduct, npCombaMul_spec]
  have hlt : product.toNat < 2 ^ 512 := by
    rw [hvalue]
    exact (product_lt a b).trans_eq (pow_mul 2 32 16).symm
  have hfold (v : ℕ) : folded v =
      v % 2 ^ 256 + v / 2 ^ 256 * 432420386565659656852420866394968145599 := by
    rw [folded, complementValue_nat]
  obtain ⟨first, hfirst⟩ : ∃ first : Number (8 + 5), first =
    groupFoldComplement 8 13 (limbAt product) fun i => limbAt product (8 + i) := ⟨_, rfl⟩
  have hfirstValue : first.toNat = folded product.toNat := by
    rw [hfirst]
    refine fold_spec product (fun i _ => rfl) le_rfl (by norm_num) (by norm_num) ?_
    rw [hfold]
    norm_num
    omega
  obtain ⟨second, hsecond⟩ : ∃ second : Number (8 + 1), second =
    groupFoldComplement 5 9 (limbAt first) fun i => limbAt first (8 + i) := ⟨_, rfl⟩
  have hsecondValue : second.toNat = folded (folded product.toNat) := by
    rw [hsecond, ← hfirstValue]
    refine fold_spec first (fun i _ => rfl) (by norm_num) (by norm_num) (by norm_num) ?_
    rw [hfirstValue, hfold, hfold]
    norm_num
    omega
  obtain ⟨third, hthird⟩ : ∃ third : Number (8 + 1), third =
    groupFoldComplement 1 9 (limbAt second) fun _ => limbAt second 8 := ⟨_, rfl⟩
  have hone (work : Number (8 + 1)) : ∀ i < 1, limbAt work 8 = limbAt work (8 + i) := by
    intro i hi
    rw [Nat.lt_one_iff.mp hi]
  have hthirdValue : third.toNat = folded (folded (folded product.toNat)) := by
    rw [hthird, ← hsecondValue]
    refine fold_spec second (hone second) (by norm_num) (by norm_num) (by norm_num) ?_
    rw [hsecondValue, hfold, hfold, hfold]
    norm_num
    omega
  obtain ⟨fourth, hfourth⟩ : ∃ fourth : Number (8 + 1), fourth =
    groupFoldComplement 1 9 (limbAt third) fun _ => limbAt third 8 := ⟨_, rfl⟩
  have hfourthValue : fourth.toNat = folded (folded (folded (folded product.toNat))) := by
    rw [hfourth, ← hthirdValue]
    refine fold_spec third (hone third) (by norm_num) (by norm_num) (by norm_num) ?_
    rw [hthirdValue, hfold, hfold, hfold, hfold]
    norm_num
    omega
  have hlast : fourth.toNat < 2 ^ 256 := by
    rw [hfourthValue, hfold, hfold, hfold, hfold]
    omega
  have hmod : fourth.toNat ≡ a.toNat * b.toNat [MOD groupOrder] := by
    rw [hfourthValue, ← hvalue]
    exact (folded_modEq _).trans ((folded_modEq _).trans ((folded_modEq _).trans (folded_modEq _)))
  obtain ⟨result, hresult⟩ : ∃ result : U256,
    result = Number.ofFn fun i : Fin 8 => limbAt fourth i.val := ⟨_, rfl⟩
  have hresultValue : result.toNat = fourth.toNat := by
    have h := (low_high fourth).1
    rw [Nat.mod_eq_of_lt hlast] at h
    rw [hresult, Number.toNat_ofFn (limbAt fourth), ← h]
    exact Finset.sum_congr rfl fun i _ => Nat.mul_comm ..
  have hgroup : kGroupOrder.toNat = groupOrder := rfl
  have horder := groupOrder_bounds.1
  have hmul : groupMul a b =
      if (npSubRaw result kGroupOrder).1 = 0 then (npSubRaw result kGroupOrder).2 else result := by
    rw [groupMul, hresult, hfourth, hthird, hsecond, hfirst, hproduct]
  obtain ⟨hborrow, hsum⟩ := npSubRaw_spec result kGroupOrder
  have hsmall := U256.toNat_lt (npSubRaw result kGroupOrder).2
  rw [hgroup] at hsum
  rw [hmul, ← hmod]
  split_ifs with hzero
  · rw [hzero, UInt32.toNat_zero, Nat.mul_zero, Nat.add_zero] at hsum
    have hge : groupOrder ≤ fourth.toNat := by omega
    rw [Nat.mod_eq_sub_mod hge, Nat.mod_eq_of_lt (by omega)]
    omega
  · have hpos : (npSubRaw result kGroupOrder).1.toNat = 1 := by
      have hne : (npSubRaw result kGroupOrder).1.toNat ≠ 0 :=
        fun h => hzero (UInt32.toNat_inj.mp h)
      omega
    rw [hpos] at hsum
    rw [hresultValue, Nat.mod_eq_of_lt (by omega)]

/-- **The reference arithmetic is exact.** -/
theorem modular_arithmetic_exact :
    (∀ a b : U256, (npCombaMul a b).toNat = a.toNat * b.toNat ∧
      (npCombaSquare a).toNat = a.toNat * a.toNat) ∧
    (∀ product : Number 16, (npFieldReduce product).toNat = product.toNat % fieldPrime) ∧
    (∀ a b : U256, (npFieldMul a b).toNat = a.toNat * b.toNat % fieldPrime) ∧
    (∀ a b : U256, a.toNat < groupOrder → b.toNat < groupOrder →
      (npMulMod a b kGroupOrder).toNat = a.toNat * b.toNat % groupOrder ∧
        (groupMul a b).toNat = a.toNat * b.toNat % groupOrder) ∧
    ∀ v : U256, v.toNat ≠ 0 → v.toNat < fieldPrime →
      (npFieldInverse v).toNat * v.toNat % fieldPrime = 1 := by
  refine ⟨fun a b => ⟨npCombaMul_spec a b, ?_⟩, npFieldReduce_spec, npFieldMul_spec,
    fun a b _ hb => ⟨npMulMod_spec a kGroupOrder hb, groupMul_spec a b⟩,
    fun v hv hlt => npFieldInverse_mul hv hlt⟩
  rw [npCombaSquare_eq, npCombaMul_spec]

/-- The arithmetic at one. -/
theorem modular_arithmetic_exact_one :
    (npMulMod npOne npOne kGroupOrder).toNat = 1 * 1 % groupOrder ∧
      (groupMul npOne npOne).toNat = 1 * 1 % groupOrder ∧
      (npFieldInverse npOne).toNat * 1 % fieldPrime = 1 := by
  have hlt : npOne.toNat < groupOrder := by
    rw [npOne_toNat]
    exact lt_trans (by norm_num) groupOrder_bounds.1
  obtain ⟨-, -, -, hgroup, hinverse⟩ := modular_arithmetic_exact
  obtain ⟨hmul, hfold⟩ := hgroup npOne npOne hlt hlt
  have hone := hinverse npOne (by decide) (npOne_toNat ▸ fieldPrime_prime.one_lt)
  rw [npOne_toNat] at hmul hfold hone
  exact ⟨hmul, hfold, hone⟩

end MoMiner.Nexapow
