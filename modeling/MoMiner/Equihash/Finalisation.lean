import MoMiner.Equihash.Hash
import MoMiner.Lib.Bytes

/-!
# The last block of a leaf's hash

The hash of a leaf ends with a block of sixteen bytes: the last twelve of the header and the hash
index. It is computed in three ways:

- `b2Compress` on the block, with zeros after it;
- `hashWordsFromTail`, whose rounds know that all but two words are zero;
- `hashWordsFromTailPair` on halves of words, where a PTX device mixes with carry chains and funnel
  shifts (`pairMixPtx`).

Main result: `finalisations_agree`.
-/

namespace MoMiner.Equihash

open MoMiner.Bytes

/-! ## The padded block -/

/-- The last block, filled up with zeros. -/
def finalBlock (tail : Vector UInt8 12) (index : BitVec 32) : List UInt8 :=
  tail.toList ++ leBytes 4 index.toNat ++ List.replicate 112 0

theorem testBit_loadLe (bytes : List UInt8) (p n j : ℕ) :
    (loadLe bytes p n).testBit j =
      (decide (j < 8 * n) && (bytes.getD (p + j / 8) 0).toNat.testBit (j % 8)) := by
  induction n with
  | zero => simp [loadLe]
  | succ n ih =>
    have hstep : loadLe bytes p (n + 1) =
        loadLe bytes p n ||| (bytes.getD (p + n) 0).toNat <<< (8 * n) := by
      simp [loadLe, List.range_succ]
    rw [hstep, Nat.testBit_or, Nat.testBit_shiftLeft, ih]
    rcases Nat.lt_or_ge j (8 * n) with hlow | hlow
    · simp [hlow, Nat.not_le.mpr hlow, show j < 8 * (n + 1) by omega]
    · rw [decide_eq_false (Nat.not_lt.mpr hlow)]
      rcases Nat.lt_or_ge j (8 * (n + 1)) with hj | hj
      · simp [hj, hlow, show j / 8 = n by omega, show j % 8 = j - 8 * n by omega]
      · have hbyte : (bytes.getD (p + n) 0).toNat.testBit (j - 8 * n) = false :=
          Nat.testBit_lt_two_pow ((UInt8.toNat_lt _).trans_le
            (Nat.pow_le_pow_right (by decide) (show 8 ≤ j - 8 * n by omega)))
        rw [hbyte, decide_eq_false (Nat.not_lt.mpr hj), Bool.and_false, Bool.false_and,
          Bool.or_self]

theorem testBit_getD_leBytes (w v i : ℕ) {b : ℕ} (hb : b < 8) :
    ((leBytes w v).getD i 0).toNat.testBit b = (decide (i < w) && v.testBit (8 * i + b)) := by
  induction w generalizing v i with
  | zero => simp [leBytes]
  | succ w ih =>
    cases i with
    | zero =>
      rw [leBytes, List.getD_cons_zero, UInt8.toNat_ofNat', Nat.testBit_mod_two_pow]
      simp [hb]
    | succ i =>
      rw [leBytes, List.getD_cons_succ, ih, show 256 = 2 ^ 8 from rfl, Nat.testBit_div_two_pow,
        show 8 * i + b + 8 = 8 * (i + 1) + b by ring]
      simp

theorem getD_finalBlock (tail : Vector UInt8 12) (index : BitVec 32) (q : ℕ) :
    (finalBlock tail index).getD q 0 =
      if q < 12 then tail.toList.getD q 0
      else if q < 16 then (leBytes 4 index.toNat).getD (q - 12) 0
      else 0 := by
  rw [finalBlock]
  split_ifs with h h'
  · rw [List.append_assoc, List.getD_append _ _ _ _ (by simpa using h)]
  · rw [List.append_assoc, List.getD_append_right _ _ _ _ (by simpa using h),
      List.getD_append _ _ _ _ (by simp; omega)]
    simp
  · rw [List.getD_append_right _ _ _ _ (by simp; omega), List.getD_eq_getElem?_getD,
      List.getElem?_replicate]
    split_ifs <;> rfl

/-- **The block has two words.** -/
theorem load64Le_finalBlock (tail : Vector UInt8 12) (index : BitVec 32) (i : Fin 16) :
    load64Le (finalBlock tail index) (8 * i) =
      b2TailWord 0 (load64Le tail.toList 0)
        ((load32Le tail.toList 8).setWidth 64 ||| (index.setWidth 64 <<< 32)) i := by
  refine BitVec.eq_of_getLsbD_eq fun j hj => ?_
  have hword : (load64Le (finalBlock tail index) (8 * i)).getLsbD j =
      ((finalBlock tail index).getD (8 * i + j / 8) 0).toNat.testBit (j % 8) := by
    rw [load64Le, BitVec.getLsbD_ofNat, testBit_loadLe]
    simp [hj]
  rw [hword, getD_finalBlock, b2TailWord]
  by_cases hfirst : i = 0
  · subst hfirst
    rw [if_pos rfl, if_pos (show 8 * (0 : Fin 16).val + j / 8 < 12 by simp; omega), load64Le,
      BitVec.getLsbD_ofNat, testBit_loadLe]
    simp [hj]
  rw [if_neg hfirst]
  have hpos : i.val ≠ 0 := fun h => hfirst (Fin.ext h)
  by_cases hsecond : i = 1
  · subst hsecond
    rw [if_pos rfl, BitVec.getLsbD_or, BitVec.getLsbD_setWidth, BitVec.getLsbD_shiftLeft,
      BitVec.getLsbD_setWidth, load32Le, BitVec.getLsbD_ofNat, testBit_loadLe]
    have hval : (1 : Fin 16).val = 1 := rfl
    rw [hval]
    -- The low half of the word comes from the header, the high half is the index.
    by_cases hlow : j < 32
    · simp [hj, hlow, show 8 + j / 8 < 12 by omega]
    · rw [if_neg (by omega), if_pos (by omega), testBit_getD_leBytes _ _ _ (Nat.mod_lt _ (by decide))]
      simp [hj, hlow, show 8 + j / 8 - 12 < 4 by omega, BitVec.testBit_toNat,
        show 8 * (8 + j / 8 - 12) + j % 8 = j - 32 by omega, show j - 32 < 64 by omega]
  · have hother : i.val ≠ 1 := fun h => hsecond (Fin.ext h)
    rw [if_neg hsecond, if_neg (by omega), if_neg (by omega)]
    simp

/-! ## Mixing with carry chains -/

/-- `add.cc` on the low words and `addc` on the high words. -/
def addCarry (a b : Blake2bPair) : Blake2bPair :=
  let sum := a.lo.toNat + b.lo.toNat
  ⟨BitVec.ofNat 32 sum, a.hi + b.hi + BitVec.ofNat 32 (sum / 2 ^ 32)⟩

/-- `shf.r.wrap`: the low word of two joined words, shifted to the right. -/
def shfR (low high : BitVec 32) (n : ℕ) : BitVec 32 :=
  (b2Join ⟨low, high⟩ >>> n).setWidth 32

/-- `shf.l.wrap`: the high word of two joined words, shifted to the left. -/
def shfL (low high : BitVec 32) (n : ℕ) : BitVec 32 :=
  (b2Join ⟨low, high⟩ <<< n >>> 32).setWidth 32

/-- The mixing step as a PTX device computes it. -/
def pairMixPtx (q : Quad Blake2bPair) (x y : Blake2bPair) : Quad Blake2bPair :=
  let a := addCarry (addCarry q.a q.b) x
  let t0 := q.d.lo ^^^ a.lo
  let t1 := q.d.hi ^^^ a.hi
  let d : Blake2bPair := ⟨t1, t0⟩
  let c := addCarry q.c d
  let t0 := q.b.lo ^^^ c.lo
  let t1 := q.b.hi ^^^ c.hi
  let b : Blake2bPair := ⟨shfR t0 t1 24, shfR t1 t0 24⟩
  let a := addCarry (addCarry a b) y
  let t0 := d.lo ^^^ a.lo
  let t1 := d.hi ^^^ a.hi
  let d : Blake2bPair := ⟨shfR t0 t1 16, shfR t1 t0 16⟩
  let c := addCarry c d
  let t0 := b.lo ^^^ c.lo
  let t1 := b.hi ^^^ c.hi
  let b : Blake2bPair := ⟨shfL t1 t0 1, shfL t0 t1 1⟩
  ⟨a, b, c, d⟩

theorem addCarry_eq (a b : Blake2bPair) : addCarry a b = pairAdd a b := by
  have hlo : BitVec.ofNat 32 (a.lo.toNat + b.lo.toNat) = a.lo + b.lo :=
    BitVec.eq_of_toNat_eq (by simp)
  have hcarry : BitVec.ofNat 32 ((a.lo.toNat + b.lo.toNat) / 2 ^ 32) =
      carry32 (a.lo + b.lo) b.lo := by
    refine BitVec.eq_of_toNat_eq ?_
    have := a.lo.isLt
    have := b.lo.isLt
    rw [toNat_carry32, BitVec.toNat_ofNat, BitVec.toNat_add]
    split_ifs <;> omega
  rw [addCarry, pairAdd, hlo, hcarry]

theorem shfR_eq (low high : BitVec 32) {n : ℕ} (hn : n < 32) :
    shfR low high n = (low >>> n) ||| (high <<< (32 - n)) := by
  refine BitVec.eq_of_getLsbD_eq fun i hi => ?_
  simp only [shfR, BitVec.getLsbD_setWidth, BitVec.getLsbD_ushiftRight, getLsbD_b2Join,
    BitVec.getLsbD_or, BitVec.getLsbD_shiftLeft]
  by_cases h : n + i < 32
  · simp [h, hi, show i < 32 - n by omega]
  · simp [h, hi, show n + i < 64 by omega, show ¬ i < 32 - n by omega,
      BitVec.getLsbD_of_ge low (n + i) (by omega), show n + i - 32 = i - (32 - n) by omega]

theorem shfL_eq (low high : BitVec 32) {n : ℕ} (hn : n < 32) :
    shfL low high n = (high <<< n) ||| (low >>> (32 - n)) := by
  refine BitVec.eq_of_getLsbD_eq fun i hi => ?_
  simp only [shfL, BitVec.getLsbD_setWidth, BitVec.getLsbD_ushiftRight, getLsbD_b2Join,
    BitVec.getLsbD_or, BitVec.getLsbD_shiftLeft]
  by_cases h : i < n
  · simp [h, hi, show 32 + i < 64 by omega, show ¬ 32 + i < n by omega,
      show 32 - n + i < 32 by omega, show 32 + i - n = 32 - n + i by omega]
  · simp [h, hi, show 32 + i < 64 by omega, show ¬ 32 + i < n by omega,
      show ¬ 32 + i - n < 32 by omega, show 32 + i - n - 32 = i - n by omega,
      BitVec.getLsbD_of_ge low (32 - n + i) (by omega), show 32 + i - n < 64 by omega]

theorem pairMixPtx_eq (q : Quad Blake2bPair) (x y : Blake2bPair) :
    pairMixPtx q x y = pairMix q x y := by
  simp only [pairMixPtx, pairMix, addCarry_eq, pairAdd2_eq, pairRotr, pairRotl1, pairXor,
    shfR_eq _ _ (show 24 < 32 by decide), shfR_eq _ _ (show 16 < 32 by decide),
    shfL_eq _ _ (show 1 < 32 by decide)]

/-! ## Agreement -/

/-- **The finalisations agree.** For every midstate, the last twelve bytes of a header and a hash
index, the three hashes have the same words. -/
theorem finalisations_agree (midstate : Vector (BitVec 64) 8) (tail : Vector UInt8 12)
    (index : BitVec 32) :
    hashWordsFromTail midstate (load64Le tail.toList 0) (load32Le tail.toList 8) index =
        b2Compress midstate (finalBlock tail index) 144 true ∧
      hashWordsFromTailPair midstate (load64Le tail.toList 0) (load32Le tail.toList 8) index =
        b2Compress midstate (finalBlock tail index) 144 true ∧
      pairMixPtx = pairMix := by
  have hcompress :
      hashWordsFromTail midstate (load64Le tail.toList 0) (load32Le tail.toList 8) index =
        b2Compress midstate (finalBlock tail index) 144 true := by
    have hwords : (fun i : Fin 16 => load64Le (finalBlock tail index) (8 * i)) =
        b2TailWord 0 (load64Le tail.toList 0)
          ((load32Le tail.toList 8).setWidth 64 ||| (index.setWidth 64 <<< 32)) :=
      funext (load64Le_finalBlock tail index)
    simp only [hashWordsFromTail, b2Compress, hwords, BitVec.xor_assoc]
  refine ⟨hcompress, ?_, ?_⟩
  · rw [hashWordsFromTailPair_eq, hcompress]
  · funext q x y
    exact pairMixPtx_eq q x y

end MoMiner.Equihash
