import MoMiner.Lib.BitWriter

/-!
# Compressed proofs

The leaf indices of a proof are sent as a bit string. ZelHash writes them through a 32-bit
accumulator, in fields of 26 bits and big-endian; BeamHash sets the bits of 25-bit fields one by one,
little-endian.

The written strings are the numbers with the indices as digits. Main result: `compress_lossless`.
-/

namespace MoMiner

open MoMiner.Bytes MoMiner.BitWriter

/-! ## ZelHash -/

namespace ZelHash

def bitLen : ℕ := 26

def inWidth : ℕ := (bitLen + 7) >>> 3

/-- The indices, each on four bytes. -/
def expandIndices (idx : List UInt32) : List UInt8 :=
  idx.flatMap fun x : UInt32 => [(x >>> 24).toUInt8, (x >>> 16).toUInt8, (x >>> 8).toUInt8, x.toUInt8]

/-- The four bytes at a place. -/
def wordAt (input : List UInt8) (i : ℕ) : UInt32 :=
  ((input.getD i 0).toUInt32 <<< 24) ||| ((input.getD (i + 1) 0).toUInt32 <<< 16) |||
    ((input.getD (i + 2) 0).toUInt32 <<< 8) ||| (input.getD (i + 3) 0).toUInt32

/-- One byte of the input: the first of an index brings the index to the accumulator. -/
def compressByte (input : List UInt8) (outLen : ℕ) (w : Writer) (i : ℕ) : Writer :=
  if i % inWidth = 0 then
    (w.push bitLen (wordAt input i &&& ((1 <<< UInt32.ofNat bitLen) - 1))).drain outLen
  else w

def compressIndices (idx : List UInt32) : List UInt8 :=
  let input := expandIndices idx
  let outLen := idx.length * bitLen / 8
  ((List.range input.length).foldl (compressByte input outLen) Writer.start).out

theorem expandIndices_cons (x : UInt32) (idx : List UInt32) :
    expandIndices (x :: idx) =
      (x >>> 24).toUInt8 :: (x >>> 16).toUInt8 :: (x >>> 8).toUInt8 :: x.toUInt8 ::
        expandIndices idx := rfl

theorem length_expandIndices (idx : List UInt32) : (expandIndices idx).length = 4 * idx.length := by
  induction idx with
  | nil => rfl
  | cons x idx ih =>
    simp only [expandIndices_cons, List.length_cons, ih]
    omega

/-- The bytes of a word make up the word. -/
theorem join_bytes (x : UInt32) :
    ((x >>> 24).toUInt8.toUInt32 <<< 24) ||| ((x >>> 16).toUInt8.toUInt32 <<< 16) |||
      ((x >>> 8).toUInt8.toUInt32 <<< 8) ||| x.toUInt8.toUInt32 = x := by
  refine UInt32.toNat_inj.mp (Nat.eq_of_testBit_eq fun i => ?_)
  simp only [UInt32.toNat_or, UInt32.toNat_shiftLeft, UInt8.toNat_toUInt32, UInt32.toNat_toUInt8,
    UInt32.toNat_shiftRight, Nat.testBit_or, Nat.testBit_mod_two_pow, Nat.testBit_shiftLeft,
    Nat.testBit_shiftRight]
  -- The amounts of the shifts are closed terms.
  change (decide (i < 32) && (decide (24 ≤ i) && (decide (i - 24 < 8) &&
        x.toNat.testBit (24 + (i - 24)))) ||
      decide (i < 32) && (decide (16 ≤ i) && (decide (i - 16 < 8) &&
        x.toNat.testBit (16 + (i - 16)))) ||
      decide (i < 32) && (decide (8 ≤ i) && (decide (i - 8 < 8) &&
        x.toNat.testBit (8 + (i - 8)))) ||
      decide (i < 8) && x.toNat.testBit i) = x.toNat.testBit i
  have hbyte : i < 8 ∨ (8 ≤ i ∧ i < 16) ∨ (16 ≤ i ∧ i < 24) ∨ (24 ≤ i ∧ i < 32) ∨ 32 ≤ i := by
    omega
  rcases hbyte with h | ⟨hlo, hhi⟩ | ⟨hlo, hhi⟩ | ⟨hlo, hhi⟩ | h
  · simp [h, show ¬ 8 ≤ i by omega, show ¬ 16 ≤ i by omega, show ¬ 24 ≤ i by omega]
  · simp [hlo, show ¬ i < 8 by omega, show i < 32 by omega, show i - 8 < 8 by omega,
      show ¬ 16 ≤ i by omega, show ¬ 24 ≤ i by omega]
  · simp [hlo, show ¬ i < 8 by omega, show i < 32 by omega, show ¬ i - 8 < 8 by omega,
      show i - 16 < 8 by omega, show ¬ 24 ≤ i by omega]
  · simp [hlo, hhi, show ¬ i < 8 by omega, show ¬ i - 8 < 8 by omega,
      show ¬ i - 16 < 8 by omega, show i - 24 < 8 by omega]
  · have hx : x.toNat.testBit i = false :=
      Nat.testBit_lt_two_pow (x.toNat_lt.trans_le (Nat.pow_le_pow_right (by decide) h))
    simp [hx, show ¬ i < 32 by omega]

/-- **An index is read back from its bytes.** -/
theorem wordAt_expandIndices {idx : List UInt32} {k : ℕ} (hk : k < idx.length) :
    wordAt (expandIndices idx) (4 * k) = idx[k] := by
  induction idx generalizing k with
  | nil => exact absurd hk (Nat.not_lt_zero k)
  | cons x idx ih =>
    cases k with
    | zero => exact join_bytes x
    | succ k => exact ih (Nat.lt_of_succ_lt_succ hk)

/-- The whole input, index by index. -/
theorem foldl_compressByte (idx : List UInt32) (outLen : ℕ) {k : ℕ} (hk : k ≤ idx.length) :
    (List.range (4 * k)).foldl (compressByte (expandIndices idx) outLen) Writer.start =
      (idx.take k).foldl (fun w x =>
        (w.push bitLen (x &&& ((1 <<< UInt32.ofNat bitLen) - 1))).drain outLen) Writer.start := by
  induction k with
  | zero => rfl
  | succ k ih =>
    have hrange : List.range (4 * (k + 1)) =
        List.range (4 * k) ++ [4 * k, 4 * k + 1, 4 * k + 2, 4 * k + 3] := by
      simp [Nat.mul_succ, List.range_succ]
    have hskip : ∀ w, ∀ r ∈ [1, 2, 3],
        compressByte (expandIndices idx) outLen w (4 * k + r) = w := by
      intro w r hr
      have hmod : (4 * k + r) % inWidth ≠ 0 := by
        have hwidth : inWidth = 4 := rfl
        rw [hwidth]
        fin_cases hr <;> omega
      exact if_neg hmod
    have hfirst : (4 * k) % inWidth = 0 := Nat.mul_mod_right 4 k
    rw [hrange, List.foldl_append, ih (by omega), List.take_succ_eq_append_getElem (by omega),
      List.foldl_append]
    simp only [List.foldl_cons, List.foldl_nil]
    rw [hskip _ 3 (by simp), hskip _ 2 (by simp), hskip _ 1 (by simp), compressByte,
      if_pos hfirst, wordAt_expandIndices (by omega)]

theorem compressIndices_eq_out (idx : List UInt32) :
    compressIndices idx = (idx.foldl (fun w x =>
      (w.push bitLen (x &&& ((1 <<< UInt32.ofNat bitLen) - 1))).drain (idx.length * bitLen / 8))
      Writer.start).out := by
  have hfold := foldl_compressByte idx (idx.length * bitLen / 8) le_rfl
  rw [List.take_length] at hfold
  rw [compressIndices, length_expandIndices, hfold]

/-- The indices as digits of a number, the first one on top. -/
def concatenation (idx : List UInt32) : ℕ :=
  Nat.ofDigits (2 ^ bitLen) (idx.map UInt32.toNat).reverse

theorem concatenation_snoc (idx : List UInt32) (x : UInt32) :
    concatenation (idx ++ [x]) = concatenation idx * 2 ^ bitLen + x.toNat := by
  rw [concatenation, concatenation, List.map_append, List.reverse_append, List.map_singleton,
    List.reverse_singleton, List.singleton_append, Nat.ofDigits_cons]
  ring

theorem and_mask {x : UInt32} (hx : x.toNat < 2 ^ bitLen) :
    x &&& ((1 <<< UInt32.ofNat bitLen) - 1) = x := by
  refine UInt32.toNat_inj.mp ?_
  have hmask : ((1 <<< UInt32.ofNat bitLen) - 1 : UInt32).toNat = 2 ^ bitLen - 1 := rfl
  rw [UInt32.toNat_and, hmask, Nat.and_two_pow_sub_one_eq_mod, Nat.mod_eq_of_lt hx]

/-- **The accumulator loses nothing.** Before each index less than a byte is pending, by the
residues of the bit counts at most six bits, which is all that the accumulator has room for. -/
theorem holds_foldl {idx : List UInt32} (hlt : ∀ x ∈ idx, x.toNat < 2 ^ bitLen) {outLen : ℕ}
    (hout : idx.length * bitLen / 8 ≤ outLen) :
    let w := idx.foldl (fun w x =>
      (w.push bitLen (x &&& ((1 <<< UInt32.ofNat bitLen) - 1))).drain outLen) Writer.start
    w.Holds (idx.length * bitLen) (concatenation idx) ∧ w.bits < 8 := by
  have hbitLen : bitLen = 26 := rfl
  induction idx using List.reverseRecOn with
  | nil => exact ⟨⟨rfl, rfl⟩, (by decide : 0 < 8)⟩
  | append_singleton idx x ih =>
    obtain ⟨hlt, hx⟩ := List.forall_mem_append.mp hlt
    have hx := hx x (List.mem_singleton_self x)
    simp only [List.length_append, List.length_singleton, List.foldl_append, List.foldl_cons,
      List.foldl_nil] at hout ⊢
    rw [Nat.add_one_mul] at hout ⊢
    obtain ⟨hw, hbits⟩ := ih hlt (by omega)
    generalize idx.foldl _ Writer.start = w at hw hbits ⊢
    have hlength : 8 * w.out.length + w.bits = idx.length * 26 := hw.length
    have hpush := @Writer.Holds.push w _ _ bitLen x hw (by decide) (by omega) hx
    rw [and_mask hx, concatenation_snoc]
    obtain ⟨hdrain, hend⟩ := @Writer.Holds.drain _ _ _ outLen hpush (by
      change w.bits + bitLen ≤ 32
      omega)
    have hlength' := hdrain.length
    exact ⟨hdrain, by omega⟩

/-- Nothing is written after the end of the output. -/
theorem length_compressIndices_le (idx : List UInt32) :
    (compressIndices idx).length ≤ idx.length * bitLen / 8 := by
  rw [compressIndices_eq_out]
  generalize idx.length * bitLen / 8 = outLen
  have hstart : Writer.start.out.length ≤ outLen := Nat.zero_le _
  generalize Writer.start = w at hstart
  induction idx generalizing w with
  | nil => exact hstart
  | cons x idx ih =>
    rw [List.foldl_cons]
    exact ih _ (Writer.length_drain_le hstart)

/-- **The string is the concatenation of the indices.** -/
theorem compressIndices_eq {idx : List UInt32} (hlen : 4 ∣ idx.length)
    (hlt : ∀ x ∈ idx, x.toNat < 2 ^ bitLen) :
    compressIndices idx = beBytes (idx.length * bitLen / 8) (concatenation idx) := by
  have hbitLen : bitLen = 26 := rfl
  obtain ⟨hw, hbits⟩ := holds_foldl hlt le_rfl
  rw [compressIndices_eq_out]
  generalize idx.foldl _ Writer.start = w at hw hbits ⊢
  have hlength : 8 * w.out.length + w.bits = idx.length * 26 := hw.length
  have hvalue := hw.value
  obtain ⟨n, hn⟩ := hlen
  have hzero : w.bits = 0 := by omega
  have hout : w.out.length = idx.length * bitLen / 8 := by
    rw [hbitLen]
    omega
  rw [hzero, pow_zero, Nat.mod_one, Nat.mul_one, Nat.add_zero] at hvalue
  rw [← hvalue, ← hout, beBytes_ofBE]

theorem compressIndices_inj {idx idx' : List UInt32} (hlen : 4 ∣ idx.length)
    (hlen' : idx'.length = idx.length) (hlt : ∀ x ∈ idx, x.toNat < 2 ^ bitLen)
    (hlt' : ∀ x ∈ idx', x.toNat < 2 ^ bitLen) (h : compressIndices idx = compressIndices idx') :
    idx = idx' := by
  have hbitLen : bitLen = 26 := rfl
  have hsmall : ∀ l : List UInt32, (∀ x ∈ l, x.toNat < 2 ^ bitLen) → l.length = idx.length →
      concatenation l < 256 ^ (idx.length * bitLen / 8) := by
    intro l hl hlength
    have hpow : 256 ^ (idx.length * bitLen / 8) = (2 ^ bitLen) ^ idx.length := by
      rw [show 256 = 2 ^ 8 from rfl, ← pow_mul, ← pow_mul, hbitLen]
      congr 1
      omega
    have hdigits := Nat.ofDigits_lt_base_pow_length (b := 2 ^ bitLen) (by decide)
      (l := (l.map UInt32.toNat).reverse) (by simpa using hl)
    rwa [List.length_reverse, List.length_map, hlength, ← hpow] at hdigits
  rw [compressIndices_eq hlen hlt, compressIndices_eq (hlen' ▸ hlen) hlt', hlen'] at h
  have hvalue := congrArg ofBE h
  rw [ofBE_beBytes, ofBE_beBytes, Nat.mod_eq_of_lt (hsmall idx hlt rfl),
    Nat.mod_eq_of_lt (hsmall idx' hlt' hlen')] at hvalue
  have hdigits := Nat.ofDigits_inj_of_len_eq (by decide) (by simp [hlen']) (by simpa using hlt)
    (by simpa using hlt') hvalue
  exact List.map_injective_iff.mpr (fun _ _ => UInt32.toNat_inj.mp) (List.reverse_injective hdigits)

end ZelHash

/-! ## BeamHash -/

namespace BeamHash3

def indexBits : ℕ := 25

/-- The bits of a number of indices, set in a cleared solution. -/
def packFields {n : ℕ} (idx : Fin n → UInt32) : List UInt8 :=
  Fin.foldl n (fun out f =>
    setBits out (f * indexBits) (idx f &&& ((1 <<< UInt32.ofNat indexBits) - 1)) indexBits)
    (List.replicate 100 0)

def compressIndices (idx : Fin 32 → UInt32) : List UInt8 := packFields idx

/-- The indices as digits of a number, the first one at the bottom. -/
def bitStream {n : ℕ} (idx : Fin n → UInt32) : ℕ :=
  Nat.ofDigits (2 ^ indexBits) (List.ofFn fun f => (idx f).toNat)

variable {n : ℕ}

theorem bitStream_succ (idx : Fin (n + 1) → UInt32) :
    bitStream idx = bitStream (fun f : Fin n => idx f.castSucc) +
      (idx (Fin.last n)).toNat * 2 ^ (n * indexBits) := by
  rw [bitStream, List.ofFn_succ_last, Nat.ofDigits_append, List.length_ofFn,
    Nat.ofDigits_singleton, ← pow_mul, Nat.mul_comm indexBits, Nat.mul_comm (2 ^ _)]
  rfl

theorem bitStream_lt {idx : Fin n → UInt32} (hlt : ∀ f, (idx f).toNat < 2 ^ indexBits) :
    bitStream idx < 2 ^ (n * indexBits) := by
  have hdigits := Nat.ofDigits_lt_base_pow_length (b := 2 ^ indexBits) (by decide)
    (List.forall_mem_ofFn_iff.mpr hlt)
  rwa [List.length_ofFn, ← pow_mul, Nat.mul_comm indexBits] at hdigits

theorem bitStream_inj {idx idx' : Fin n → UInt32} (hlt : ∀ f, (idx f).toNat < 2 ^ indexBits)
    (hlt' : ∀ f, (idx' f).toNat < 2 ^ indexBits) (h : bitStream idx = bitStream idx') :
    idx = idx' := by
  have hdigits := Nat.ofDigits_inj_of_len_eq (by decide) (by rw [List.length_ofFn, List.length_ofFn])
    (List.forall_mem_ofFn_iff.mpr hlt) (List.forall_mem_ofFn_iff.mpr hlt') h
  funext f
  exact UInt32.toNat_inj.mp (congrFun (List.ofFn_injective hdigits) f)

/-- Each index is set above those before it. -/
theorem ofLE_packFields {idx : Fin n → UInt32} (hn : n ≤ 32)
    (hlt : ∀ f, (idx f).toNat < 2 ^ indexBits) :
    ofLE (packFields idx) = bitStream idx ∧ (packFields idx).length = 100 := by
  have hindexBits : indexBits = 25 := rfl
  induction n with
  | zero => exact ⟨ofLE_cleared 100, List.length_replicate⟩
  | succ n ih =>
    obtain ⟨hvalue, hlength⟩ := @ih (fun f => idx f.castSucc) (by omega) fun f => hlt _
    have hstep : packFields idx = setBits (packFields fun f : Fin n => idx f.castSucc)
        (n * indexBits) (idx (Fin.last n) &&& ((1 <<< UInt32.ofNat indexBits) - 1)) indexBits := by
      rw [packFields, Fin.foldl_succ_last]
      rfl
    have hmask : (idx (Fin.last n) &&& ((1 <<< UInt32.ofNat indexBits) - 1)).toNat =
        (idx (Fin.last n)).toNat := by
      have hones : ((1 <<< UInt32.ofNat indexBits) - 1 : UInt32).toNat = 2 ^ indexBits - 1 := rfl
      rw [UInt32.toNat_and, hones, Nat.and_two_pow_sub_one_eq_mod, Nat.mod_eq_of_lt (hlt _)]
    have hbound : ofLE (packFields fun f : Fin n => idx f.castSucc) < 2 ^ (n * indexBits) := by
      rw [hvalue]
      exact bitStream_lt fun f => hlt _
    obtain ⟨hset, hset'⟩ := ofLE_setBits (idx (Fin.last n) &&& ((1 <<< UInt32.ofNat indexBits) - 1))
      hbound (show indexBits ≤ 32 by decide) (by rw [hlength, hindexBits]; omega)
    rw [hstep, bitStream_succ, hset, hset', hmask, hvalue, Nat.mod_eq_of_lt (hlt _)]
    exact ⟨rfl, hlength⟩

/-- **The string is the stream of the indices.** -/
theorem compressIndices_eq {idx : Fin 32 → UInt32} (hlt : ∀ f, (idx f).toNat < 2 ^ indexBits) :
    compressIndices idx = leBytes 100 (bitStream idx) := by
  obtain ⟨hvalue, hlength⟩ := ofLE_packFields (Nat.le_refl 32) hlt
  have hbytes := leBytes_ofLE (packFields idx)
  rw [hlength, hvalue] at hbytes
  exact hbytes.symm

theorem compressIndices_inj {idx idx' : Fin 32 → UInt32}
    (hlt : ∀ f, (idx f).toNat < 2 ^ indexBits) (hlt' : ∀ f, (idx' f).toNat < 2 ^ indexBits)
    (h : compressIndices idx = compressIndices idx') : idx = idx' := by
  have hvalue := congrArg ofLE h
  rw [compressIndices, compressIndices, (ofLE_packFields (Nat.le_refl 32) hlt).1,
    (ofLE_packFields (Nat.le_refl 32) hlt').1] at hvalue
  exact bitStream_inj hlt hlt' hvalue

end BeamHash3

/-! ## Lossless compression -/

/-- **Compression is lossless.** ZelHash writes the concatenation of its indices, as many bytes as
they need and for no indices more, and BeamHash the stream of its indices; so different indices have
different strings. -/
theorem compress_lossless :
    (∀ idx : List UInt32, (ZelHash.compressIndices idx).length ≤ idx.length * 26 / 8) ∧
    (∀ idx : List UInt32, 4 ∣ idx.length → (∀ x ∈ idx, x.toNat < 2 ^ 26) →
      ZelHash.compressIndices idx =
        beBytes (idx.length * 26 / 8) (Nat.ofDigits (2 ^ 26) (idx.map UInt32.toNat).reverse)) ∧
    (∀ idx idx' : List UInt32, 4 ∣ idx.length → idx'.length = idx.length →
      (∀ x ∈ idx, x.toNat < 2 ^ 26) → (∀ x ∈ idx', x.toNat < 2 ^ 26) →
      ZelHash.compressIndices idx = ZelHash.compressIndices idx' → idx = idx') ∧
    (∀ idx : Fin 32 → UInt32, (∀ f, (idx f).toNat < 2 ^ 25) →
      BeamHash3.compressIndices idx =
        leBytes 100 (Nat.ofDigits (2 ^ 25) (List.ofFn fun f => (idx f).toNat))) ∧
    (∀ idx idx' : Fin 32 → UInt32, (∀ f, (idx f).toNat < 2 ^ 25) →
      (∀ f, (idx' f).toNat < 2 ^ 25) →
      BeamHash3.compressIndices idx = BeamHash3.compressIndices idx' → idx = idx') :=
  ⟨ZelHash.length_compressIndices_le, fun _ => ZelHash.compressIndices_eq,
    fun _ _ => ZelHash.compressIndices_inj, fun _ => BeamHash3.compressIndices_eq,
    fun _ _ => BeamHash3.compressIndices_inj⟩

end MoMiner
