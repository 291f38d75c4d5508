import MoMiner.Nexapow.Reference

/-!
# Products modulo the group order

The reference kernel multiplies modulo the group order by Montgomery's method, on an array of words:
each limb of the first operand adds a row, a multiple of the order clears the lowest limb, and the
array moves down by one place.

Main result: `npMulMod_spec`.
-/

namespace MoMiner.Nexapow

open MoMiner.Limbs

def kGroupOrder : U256 :=
  ⟨[0xd0364141, 0xbfd25e8c, 0xaf48a03b, 0xbaaedce6, 0xfffffffe, 0xffffffff, 0xffffffff, 0xffffffff],
    rfl⟩

def kGroupR2 : U256 :=
  ⟨[0x67d7d140, 0x896cf214, 0x0e7cf878, 0x741496c2, 0x5bcd07c6, 0xe697f5e4, 0x81c69bc5, 0x9d671cd5],
    rfl⟩

/-- The order of the group, as a number. -/
def groupOrder : ℕ := kGroupOrder.toNat

/-- Add the product with a limb to a word, with the carry. -/
def mulAddLimb (m : UInt32) (b : U256) (s : Words × UInt64) (j : ℕ) : Words × UInt64 :=
  let sum := s.1 j + m.toUInt64 * (limbAt b j).toUInt64 + s.2
  (Function.update s.1 j sum.toUInt32.toUInt64, sum >>> 32)

/-- Add a multiple of a number to the words. -/
def mulAddRow (m : UInt32) (b : U256) (t : Words) : Words :=
  let s := (List.range 8).foldl (mulAddLimb m b) (t, 0)
  let sum := s.1 8 + s.2
  let t := Function.update s.1 8 sum.toUInt32.toUInt64
  Function.update t 9 (t 9 + (sum >>> 32))

def shiftDown (t : Words) : Words :=
  let t := (List.range 9).foldl (fun t j => Function.update t j (t (j + 1))) t
  Function.update t 9 0

def n0Inverse : UInt32 := 0x5588b13f

def montgomeryRow (a b : U256) (t : Words) (i : ℕ) : Words :=
  let t := mulAddRow (limbAt a i) b t
  let multiplier := (t 0).toUInt32 * n0Inverse
  shiftDown (mulAddRow multiplier kGroupOrder t)

def npGroupMontgomeryMul (a b : U256) : U256 :=
  let t := (List.range 8).foldl (montgomeryRow a b) fun _ => 0
  let result := lowWords t
  if t 8 ≠ 0 ∨ 0 ≤ npCmp result kGroupOrder then (npSubRaw result kGroupOrder).2 else result

/-- The modulus is always the group order. -/
def npMulMod (a b _modulus : U256) : U256 :=
  npGroupMontgomeryMul (npGroupMontgomeryMul a b) kGroupR2

/-! ## A row -/

/-- The words below the top one are limbs. -/
def Limbed (t : Words) : Prop := ∀ j < 9, (t j).toNat < 2 ^ 32

/-- A row after `j` places: the carry stands at the next one. -/
structure RowAt (m : UInt32) (b : U256) (t : Words) (j : ℕ) (s : Words × UInt64) : Prop where
  limbs : ∀ k < 9, (s.1 k).toNat < 2 ^ 32
  carry : s.2.toNat < 2 ^ 32
  rest : ∀ k, j ≤ k → s.1 k = t k
  value : wordsValue s.1 + s.2.toNat * (2 ^ 32) ^ j =
    wordsValue t + m.toNat * LimbArray.value (2 ^ 32) (fun i => (limbAt b i).toNat) j

variable {m : UInt32} {a b : U256} {t : Words} {s : Words × UInt64}

theorem toNat_shift_32 (w : UInt64) : (w >>> 32).toNat = w.toNat / 2 ^ 32 := by
  rw [UInt64.toNat_shiftRight, Nat.shiftRight_eq_div_pow]
  rfl

theorem toNat_low_32 (w : UInt64) : w.toUInt32.toUInt64.toNat = w.toNat % 2 ^ 32 := by
  rw [UInt32.toNat_toUInt64, UInt64.toNat_toUInt32]

theorem mulAddLimb_spec {j : ℕ} (hj : j < 8) (h : RowAt m b t j s) :
    RowAt m b t (j + 1) (mulAddLimb m b s j) := by
  have hword := h.limbs j (by omega)
  have hcarry := h.carry
  have hm := m.toNat_lt
  have hb := (limbAt b j).toNat_lt
  have hle : m.toNat * (limbAt b j).toNat ≤ (2 ^ 32 - 1) * (2 ^ 32 - 1) :=
    Nat.mul_le_mul (Nat.le_sub_one_of_lt hm) (Nat.le_sub_one_of_lt hb)
  have hproduct : (m.toUInt64 * (limbAt b j).toUInt64).toNat = m.toNat * (limbAt b j).toNat := by
    rw [UInt64.toNat_mul, UInt32.toNat_toUInt64, UInt32.toNat_toUInt64]
    exact Nat.mod_eq_of_lt (by omega)
  obtain ⟨sum, hsum⟩ : ∃ sum, sum = s.1 j + m.toUInt64 * (limbAt b j).toUInt64 + s.2 := ⟨_, rfl⟩
  have htotal : sum.toNat = (s.1 j).toNat + m.toNat * (limbAt b j).toNat + s.2.toNat := by
    rw [hsum, toNat_add_of_fit, toNat_add_of_fit (by omega), hproduct]
    rw [toNat_add_of_fit (by omega), hproduct]
    omega
  have hupdate := @wordsValue_update s.1 j (by omega) sum.toUInt32.toUInt64
  have hvalue := h.value
  rw [toNat_low_32] at hupdate
  rw [mulAddLimb, ← hsum]
  refine ⟨?_, ?_, ?_, ?_⟩ <;> dsimp only
  · intro k hk
    by_cases hkj : k = j
    · rw [hkj, Function.update_self, toNat_low_32]
      exact Nat.mod_lt _ (by norm_num)
    · rw [Function.update_of_ne hkj]
      exact h.limbs k hk
  · rw [toNat_shift_32]
    omega
  · intro k hk
    rw [Function.update_of_ne (by omega)]
    exact h.rest k (by omega)
  · rw [toNat_shift_32, LimbArray.value_succ, Nat.mul_add, ← Nat.add_assoc, ← hvalue,
      pow_succ (2 ^ 32) j]
    have hsplit := Nat.div_add_mod sum.toNat (2 ^ 32)
    zify at hupdate hsplit htotal ⊢
    linear_combination hupdate + ((2 : ℤ) ^ 32) ^ j * hsplit + ((2 : ℤ) ^ 32) ^ j * htotal

/-- **A row.** -/
theorem mulAddRow_spec (m : UInt32) (b : U256) (ht : Limbed t) (hfit : (t 9).toNat + 1 < 2 ^ 64) :
    Limbed (mulAddRow m b t) ∧
      wordsValue (mulAddRow m b t) = wordsValue t + m.toNat * b.toNat := by
  have hloop : ∀ n ≤ 8, RowAt m b t n ((List.range n).foldl (mulAddLimb m b) (t, 0)) := by
    intro n hn
    induction n with
    | zero => exact ⟨ht, by simp, fun k _ => rfl, by simp⟩
    | succ n ih =>
      rw [List.range_succ, List.foldl_append]
      exact mulAddLimb_spec (by omega) (ih (by omega))
  have hrow := hloop 8 le_rfl
  obtain ⟨s, hs⟩ : ∃ s, s = (List.range 8).foldl (mulAddLimb m b) (t, 0) := ⟨_, rfl⟩
  rw [← hs] at hrow
  have hword := hrow.limbs 8 (by norm_num)
  have hcarry := hrow.carry
  have hrest := hrow.rest 9 (by norm_num)
  have hvalue := hrow.value
  rw [← toNat_eq_value] at hvalue
  obtain ⟨sum, hsum⟩ : ∃ sum, sum = s.1 8 + s.2 := ⟨_, rfl⟩
  have htotal : sum.toNat = (s.1 8).toNat + s.2.toNat := by rw [hsum, toNat_add_of_fit (by omega)]
  have hne : (9 : ℕ) ≠ 8 := by norm_num
  have hfirst := @wordsValue_update s.1 8 (by norm_num) sum.toUInt32.toUInt64
  have hsecond := @wordsValue_add (Function.update s.1 8 sum.toUInt32.toUInt64) 9 (by norm_num)
    (sum >>> 32) (by
      rw [Function.update_of_ne hne, hrest, toNat_shift_32]
      omega)
  rw [toNat_low_32] at hfirst
  rw [toNat_shift_32] at hsecond
  rw [mulAddRow, ← hs, ← hsum]
  refine ⟨fun j hj => ?_, ?_⟩
  · rw [Function.update_of_ne (by omega)]
    by_cases hj8 : j = 8
    · rw [hj8, Function.update_self, toNat_low_32]
      exact Nat.mod_lt _ (by norm_num)
    · rw [Function.update_of_ne hj8]
      exact hrow.limbs j hj
  · rw [hsecond]
    have hsplit := Nat.div_add_mod sum.toNat (2 ^ 32)
    zify at hfirst hvalue hsplit htotal ⊢
    linear_combination hfirst + hvalue + ((2 : ℤ) ^ 32) ^ 8 * hsplit + ((2 : ℤ) ^ 32) ^ 8 * htotal

/-! ## A step of the reduction -/

theorem shiftDown_apply (t : Words) :
    (∀ j < 9, shiftDown t j = t (j + 1)) ∧ shiftDown t 9 = 0 := by
  have hloop : ∀ n ≤ 9,
      (∀ j < n, (List.range n).foldl (fun t j => Function.update t j (t (j + 1))) t j = t (j + 1)) ∧
        ∀ j, n ≤ j → (List.range n).foldl (fun t j => Function.update t j (t (j + 1))) t j = t j := by
    intro n hn
    induction n with
    | zero => exact ⟨fun j hj => absurd hj (Nat.not_lt_zero j), fun j _ => rfl⟩
    | succ n ih =>
      obtain ⟨hbelow, habove⟩ := ih (by omega)
      rw [List.range_succ, List.foldl_append, List.foldl_cons, List.foldl_nil]
      refine ⟨fun j hj => ?_, fun j hj => ?_⟩
      · by_cases hjn : j = n
        · rw [hjn, Function.update_self]
          exact habove (n + 1) (by omega)
        · rw [Function.update_of_ne hjn]
          exact hbelow j (by omega)
      · rw [Function.update_of_ne (by omega)]
        exact habove j (by omega)
  refine ⟨fun j hj => ?_, by rw [shiftDown, Function.update_self]⟩
  rw [shiftDown, Function.update_of_ne (by omega)]
  exact (hloop 9 le_rfl).1 j hj

theorem wordsValue_shiftDown (t : Words) :
    wordsValue t = (t 0).toNat + 2 ^ 32 * wordsValue (shiftDown t) := by
  have htop : wordsValue (shiftDown t) =
      LimbArray.value (2 ^ 32) (fun i => (shiftDown t i).toNat) 9 := by
    rw [wordsValue, LimbArray.value_succ, (shiftDown_apply t).2, UInt64.toNat_zero, Nat.zero_mul,
      Nat.add_zero]
  rw [htop, wordsValue, LimbArray.value_succ']
  exact congrArg (fun v => (t 0).toNat + 2 ^ 32 * v)
    (LimbArray.value_congr fun i hi => by rw [(shiftDown_apply t).1 i hi])

/-- What is computed of the constants. -/
theorem groupOrder_constants : (2 ^ 255 < groupOrder ∧ groupOrder < 2 ^ 256) ∧
    (1 + n0Inverse.toNat * groupOrder) % 2 ^ 32 = 0 ∧ kGroupR2.toNat = 2 ^ 512 % groupOrder ∧
      Nat.Coprime groupOrder (2 ^ 256) := by
  decide +kernel

theorem groupOrder_bounds : 2 ^ 255 < groupOrder ∧ groupOrder < 2 ^ 256 := groupOrder_constants.1

/-- The constant is the negated inverse of the lowest limb of the order. -/
theorem n0Inverse_spec : (1 + n0Inverse.toNat * groupOrder) % 2 ^ 32 = 0 :=
  groupOrder_constants.2.1

/-- The multiplier clears the lowest limb. -/
theorem clear_lowest (v : ℕ) :
    (v + v % 2 ^ 32 * n0Inverse.toNat % 2 ^ 32 * groupOrder) % 2 ^ 32 = 0 := by
  have hconstant : 1 + n0Inverse.toNat * groupOrder ≡ 0 [MOD 2 ^ 32] := n0Inverse_spec
  calc v + v % 2 ^ 32 * n0Inverse.toNat % 2 ^ 32 * groupOrder
      ≡ v + v * n0Inverse.toNat * groupOrder [MOD 2 ^ 32] :=
        ((((Nat.mod_modEq v _).mul_right _).symm.trans
          (Nat.mod_modEq _ _).symm).symm.mul_right _).add_left _
    _ = v * (1 + n0Inverse.toNat * groupOrder) := by ring
    _ ≡ v * 0 [MOD 2 ^ 32] := hconstant.mul_left v

/-- The words after `i` limbs of the first operand. -/
structure MontgomeryAt (a b : U256) (i : ℕ) (t : Words) : Prop where
  limbed : Limbed t
  lt : wordsValue t < b.toNat + groupOrder
  value : ∃ q, (2 ^ 32) ^ i * wordsValue t =
    LimbArray.value (2 ^ 32) (fun j => (limbAt a j).toNat) i * b.toNat + q * groupOrder

theorem montgomeryRow_spec {i : ℕ} (hb : b.toNat < groupOrder) (h : MontgomeryAt a b i t) :
    MontgomeryAt a b (i + 1) (montgomeryRow a b t i) := by
  have hlimb := (limbAt a i).toNat_lt
  have hlt := h.lt
  have horder := groupOrder_bounds.2
  obtain ⟨q, hq⟩ := h.value
  have hsplit := wordsValue_eq t
  obtain ⟨hlimbed, hvalue⟩ := mulAddRow_spec (limbAt a i) b h.limbed (by omega)
  obtain ⟨first, hfirst⟩ : ∃ first, first = mulAddRow (limbAt a i) b t := ⟨_, rfl⟩
  rw [← hfirst] at hlimbed hvalue
  have hle : (limbAt a i).toNat * b.toNat ≤ (2 ^ 32 - 1) * b.toNat :=
    Nat.mul_le_mul_right _ (Nat.le_sub_one_of_lt hlimb)
  have hsplit' := wordsValue_eq first
  obtain ⟨m, hm⟩ : ∃ m, m = (first 0).toUInt32 * n0Inverse := ⟨_, rfl⟩
  obtain ⟨hlimbed', hvalue'⟩ := mulAddRow_spec m kGroupOrder hlimbed (by omega)
  obtain ⟨second, hsecond⟩ : ∃ second, second = mulAddRow m kGroupOrder first := ⟨_, rfl⟩
  rw [← hsecond] at hlimbed' hvalue'
  have hgroup : kGroupOrder.toNat = groupOrder := rfl
  rw [hgroup] at hvalue'
  have hmlt := m.toNat_lt
  have hmle : m.toNat * groupOrder ≤ (2 ^ 32 - 1) * groupOrder :=
    Nat.mul_le_mul_right _ (Nat.le_sub_one_of_lt hmlt)
  have hsplit'' := wordsValue_eq second
  have hshift := wordsValue_shiftDown second
  have hshiftFirst := wordsValue_shiftDown first
  have hword := hlimbed 0 (by norm_num)
  -- The multiple of the order makes the lowest word zero.
  have hmnat : m.toNat = wordsValue first % 2 ^ 32 * n0Inverse.toNat % 2 ^ 32 := by
    have hlow : wordsValue first % 2 ^ 32 = (first 0).toNat := by omega
    rw [hm, UInt32.toNat_mul, UInt64.toNat_toUInt32, hlow, Nat.mod_eq_of_lt hword]
  have hclear := clear_lowest (wordsValue first)
  rw [← hmnat, ← hvalue'] at hclear
  have hword' := hlimbed' 0 (by norm_num)
  have hzero : (second 0).toNat = 0 := by omega
  rw [hzero, Nat.zero_add] at hshift
  have hrow : montgomeryRow a b t i = shiftDown second := by
    rw [montgomeryRow, hsecond, hm, hfirst]
  rw [hrow]
  refine ⟨fun j hj => ?_, ?_, q + m.toNat * (2 ^ 32) ^ i, ?_⟩
  · rw [(shiftDown_apply second).1 j hj]
    rcases Nat.lt_succ_iff_lt_or_eq.mp hj with hj | rfl
    · exact hlimbed' (j + 1) (by omega)
    · change (second 9).toNat < 2 ^ 32
      omega
  · omega
  · rw [pow_succ, mul_assoc, ← hshift, hvalue', hvalue, LimbArray.value_succ]
    zify at hq ⊢
    linear_combination hq

/-! ## The product -/

theorem montgomery_rows (hb : b.toNat < groupOrder) :
    MontgomeryAt a b 8 ((List.range 8).foldl (montgomeryRow a b) fun _ => 0) := by
  have hloop : ∀ n, MontgomeryAt a b n ((List.range n).foldl (montgomeryRow a b) fun _ => 0) := by
    intro n
    induction n with
    | zero =>
      have hzero : wordsValue (fun _ => 0) = 0 := by simp [wordsValue, LimbArray.value]
      have horder := groupOrder_bounds.1
      refine ⟨fun j _ => by simp, ?_, 0, ?_⟩
      · change wordsValue (fun _ => 0) < _
        omega
      · change _ * wordsValue (fun _ => 0) = _
        rw [hzero, LimbArray.value_zero]
        ring
    | succ n ih =>
      rw [List.range_succ, List.foldl_append]
      exact montgomeryRow_spec hb ih
  exact hloop 8

theorem npGroupMontgomeryMul_spec (hb : b.toNat < groupOrder) :
    (npGroupMontgomeryMul a b).toNat < groupOrder ∧
      2 ^ 256 * (npGroupMontgomeryMul a b).toNat ≡ a.toNat * b.toNat [MOD groupOrder] := by
  obtain ⟨hlimbed, hlt, q, hq⟩ := montgomery_rows (a := a) hb
  obtain ⟨t, ht⟩ : ∃ t, t = (List.range 8).foldl (montgomeryRow a b) fun _ => 0 := ⟨_, rfl⟩
  rw [← ht] at hlimbed hlt hq
  rw [← toNat_eq_value] at hq
  have hpow : (2 ^ 32) ^ 8 = 2 ^ 256 := by norm_num
  rw [hpow] at hq
  obtain ⟨hlow, hhigh⟩ := groupOrder_bounds
  have hsplit := wordsValue_eq t
  rw [← lowWords_toNat fun j hj => hlimbed j (by omega)] at hsplit
  have hgroup : kGroupOrder.toNat = groupOrder := rfl
  have hvalue : wordsValue t = (lowWords t).toNat + 2 ^ 256 * (t 8).toNat := by omega
  have hmod : 2 ^ 256 * wordsValue t ≡ a.toNat * b.toNat [MOD groupOrder] := by
    rw [hq]
    exact Nat.add_mul_mod_self_right ..
  have hresult : npGroupMontgomeryMul a b =
      if t 8 ≠ 0 ∨ 0 ≤ npCmp (lowWords t) kGroupOrder then (npSubRaw (lowWords t) kGroupOrder).2
      else lowWords t := by
    rw [npGroupMontgomeryMul, ht]
  rw [hresult]
  split_ifs with hsub
  · have hge : groupOrder ≤ wordsValue t := by
      rcases hsub with htop | hcmp
      · have hpos : 0 < (t 8).toNat :=
          Nat.pos_of_ne_zero fun hzero => htop (UInt64.toNat_inj.mp hzero)
        omega
      · rw [npCmp_nonneg, hgroup] at hcmp
        omega
    rw [npSubRaw_of_overflow (t 8).toNat hvalue (by rwa [hgroup]) (by rw [hgroup]; omega), hgroup]
    refine ⟨by omega, hmod.symm.trans ?_ |>.symm⟩
    rw [Nat.mul_sub]
    exact ((Nat.modEq_iff_dvd' (by omega)).mpr (by
      have hdiff : 2 ^ 256 * wordsValue t -
          (2 ^ 256 * wordsValue t - 2 ^ 256 * groupOrder) = 2 ^ 256 * groupOrder := by omega
      rw [hdiff]
      exact Nat.dvd_mul_left ..)).symm
  · rw [not_or, not_not, npCmp_nonneg, hgroup] at hsub
    obtain ⟨htop, hcmp⟩ := hsub
    rw [htop, UInt64.toNat_zero, Nat.mul_zero, Nat.add_zero] at hvalue
    rw [← hvalue]
    exact ⟨by omega, hmod⟩

theorem kGroupR2_spec : kGroupR2.toNat = 2 ^ 512 % groupOrder := groupOrder_constants.2.2.1

/-- **The product modulo the group order.** -/
theorem npMulMod_spec (a modulus : U256) (hb : b.toNat < groupOrder) :
    (npMulMod a b modulus).toNat = a.toNat * b.toNat % groupOrder := by
  have horder := groupOrder_bounds.1
  obtain ⟨-, hfirst⟩ := npGroupMontgomeryMul_spec (a := a) hb
  obtain ⟨hlt, hsecond⟩ := npGroupMontgomeryMul_spec (a := npGroupMontgomeryMul a b)
    (b := kGroupR2) (by rw [kGroupR2_spec]; exact Nat.mod_lt _ (by omega))
  have hcoprime : Nat.Coprime groupOrder (2 ^ 256) := groupOrder_constants.2.2.2
  have hmod : npGroupMontgomeryMul (npGroupMontgomeryMul a b) kGroupR2 |>.toNat ≡
      a.toNat * b.toNat [MOD groupOrder] := by
    refine Nat.ModEq.cancel_left_of_coprime hcoprime ?_
    calc 2 ^ 256 * (npGroupMontgomeryMul (npGroupMontgomeryMul a b) kGroupR2).toNat
        ≡ (npGroupMontgomeryMul a b).toNat * kGroupR2.toNat [MOD groupOrder] := hsecond
      _ ≡ (npGroupMontgomeryMul a b).toNat * 2 ^ 512 [MOD groupOrder] := by
          rw [kGroupR2_spec]
          exact (Nat.mod_modEq _ _).mul_left _
      _ = 2 ^ 256 * (2 ^ 256 * (npGroupMontgomeryMul a b).toNat) := by
          rw [← mul_assoc, ← pow_add, mul_comm]
      _ ≡ 2 ^ 256 * (a.toNat * b.toNat) [MOD groupOrder] := hfirst.mul_left _
  rw [npMulMod, ← hmod, Nat.mod_eq_of_lt hlt]

end MoMiner.Nexapow
