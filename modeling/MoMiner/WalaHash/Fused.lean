import Mathlib.Algebra.BigOperators.Intervals
import Mathlib.Algebra.BigOperators.Ring.Finset
import MoMiner.WalaHash.Hash

/-!
# The hash and the fused kernels

**The hash** (`walaHash`). The product of the matrix with the nibbles of the SHA3 hash is folded to
a nibble a row, and two rows go into a byte of the hash.

**The fused kernels** do all stages for a nonce, with dot products of four bytes; the CUDA kernel
has the fixed hashes on words.

Main result: `fusedHash_eq`.
-/

namespace MoMiner.WalaHash

open Pearl (Cv Block CvBytes ivWords le32 cvOfBytes cvToBytes wordsFromLe firstWords)

/-! ## The matrix stage -/

/-- A matrix of 64 rows and 64 columns. -/
structure NibbleMatrix where
  entry : ℕ → ℕ → UInt8
  entry_lt : ∀ r k, (entry r k).toNat < 16

/-- A nibble of the hash, the high one of a byte first. -/
def hashNibble (pow : ℕ → UInt8) (k : ℕ) : UInt8 :=
  if k % 2 = 1 then pow (k / 2) &&& 15 else pow (k / 2) >>> 4

theorem hashNibble_lt (pow : ℕ → UInt8) (k : ℕ) : (hashNibble pow k).toNat < 16 := by
  have hlt := (pow (k / 2)).toNat_lt
  rw [hashNibble]
  split
  · rw [UInt8.toNat_and]
    exact lt_of_le_of_lt Nat.and_le_right (by decide)
  · rw [UInt8.toNat_shiftRight, Nat.shiftRight_eq_div_pow]
    simp
    omega

/-- A row of the product. -/
def product (m : NibbleMatrix) (pow : ℕ → UInt8) (r : ℕ) : ℤ :=
  ∑ k ∈ Finset.range 64, ((m.entry r k).toNat : ℤ) * (hashNibble pow k).toNat

/-- No row comes near the bounds of 32 bits. -/
theorem product_bounds (m : NibbleMatrix) (pow : ℕ → UInt8) (r : ℕ) :
    0 ≤ product m pow r ∧ product m pow r ≤ 64 * 225 := by
  refine ⟨Finset.sum_nonneg fun k _ => by positivity, ?_⟩
  refine (Finset.sum_le_card_nsmul _ _ 225 fun k _ => ?_).trans (by simp)
  have hm := m.entry_lt r k
  have hv := hashNibble_lt pow k
  have hle : (m.entry r k).toNat * (hashNibble pow k).toNat ≤ 15 * 15 :=
    Nat.mul_le_mul (by omega) (by omega)
  exact_mod_cast hle

/-- The fold of a row into a nibble. -/
def nibble (acc : ℤ) : UInt8 :=
  UInt8.ofNat ((acc % 16).toNat ^^^ (acc / 16 % 16).toNat ^^^ (acc / 256 % 16).toNat)

/-- Two rows make a byte. -/
def foldPair (a b : ℤ) : UInt8 := (nibble a <<< 4) ||| nibble b

def mixedByte (m : NibbleMatrix) (pow : ℕ → UInt8) (i : ℕ) : UInt8 :=
  pow i ^^^ foldPair (product m pow (2 * i)) (product m pow (2 * i + 1))

/-- The byte of a hash at an index below 32. -/
def byteAt (hash : CvBytes) (i : ℕ) : UInt8 := if h : i < 32 then hash[i] else 0

/-! ## The hash of a nonce -/

section Hash

variable (compress : Cv → Block → UInt64 → UInt32 → UInt32 → Block) (sha3 : CvBytes → CvBytes)

def powHash (header : Header) (nonce : UInt64) : CvBytes :=
  sha3 (blake3Dev compress (preimage header nonce))

def mixedBytes (m : NibbleMatrix) (pow : CvBytes) : CvBytes :=
  .ofFn fun i => mixedByte m (byteAt pow) i

def walaHash (m : NibbleMatrix) (header : Header) (nonce : UInt64) : CvBytes :=
  blake3Dev compress (mixedBytes m (powHash compress sha3 header nonce)).toList

/-- SHA3 on words. -/
def sha3Words (io : Cv) : Cv := cvOfBytes (sha3 (cvToBytes io))

/-- The hash before the matrix stage, on words, from the cached first block. -/
def powWords (cv : Cv) (header : Header) (nonce : UInt64) : Cv :=
  sha3Words sha3 (b3_80FromCv compress cv header nonce)

/-- **The staged prehash.** -/
theorem powWords_eq (header : Header) (nonce : UInt64) :
    cvToBytes (powWords compress sha3 (b3FirstBlockCv compress header) header nonce) =
      powHash compress sha3 header nonce := by
  rw [powWords, sha3Words, cvToBytes_cvOfBytes, b3_80FromCv_eq, powHash]

/-- The last hash on words. -/
def finalWords (mixed : CvBytes) : CvBytes := cvToBytes (b3_32 compress (cvOfBytes mixed))

theorem finalWords_eq (mixed : CvBytes) :
    finalWords compress mixed = blake3Dev compress mixed.toList := by
  rw [finalWords, b3_32_eq, cvToBytes_cvOfBytes]

/-! ## The fused kernels -/

/-- The bytes of the matrix, row by row. -/
def rowMajor (m : NibbleMatrix) (cell : ℕ) : UInt8 := m.entry (cell / 64) (cell % 64)

def wordAt (mem : ℕ → UInt8) (word : ℕ) : UInt32 :=
  le32 (mem (4 * word)) (mem (4 * word + 1)) (mem (4 * word + 2)) (mem (4 * word + 3))

def byteOfWord (w : UInt32) (i : ℕ) : UInt8 := (w >>> UInt32.ofNat (8 * i)).toUInt8

/-- DP4A and the portable sum of four products; neither comes near the bounds of 32 bits. -/
def dot4 (a b : UInt32) (c : ℤ) : ℤ :=
  c + ((byteOfWord a 0).toNat * (byteOfWord b 0).toNat : ℤ) +
    ((byteOfWord a 1).toNat * (byteOfWord b 1).toNat : ℤ) +
    ((byteOfWord a 2).toNat * (byteOfWord b 2).toNat : ℤ) +
    ((byteOfWord a 3).toNat * (byteOfWord b 3).toNat : ℤ)

/-- Four nibbles of the hash. -/
def vecWord (pow : ℕ → UInt8) (k : ℕ) : UInt32 :=
  let j := 4 * k
  le32 (pow (j / 2) >>> 4) (pow (j / 2) &&& 15) (pow ((j + 2) / 2) >>> 4) (pow ((j + 2) / 2) &&& 15)

def fusedRow (matrix pow : ℕ → UInt8) (row : ℕ) : ℤ :=
  (List.range 16).foldl (fun acc k => dot4 (wordAt matrix (row * 16 + k)) (vecWord pow k) acc) 0

/-- The loop takes four rows at a time, for two bytes. -/
def fusedMixed (matrix pow : ℕ → UInt8) (byte : ℕ) : UInt8 :=
  let i := byte / 2 * 4
  if byte % 2 = 0 then pow byte ^^^ foldPair (fusedRow matrix pow i) (fusedRow matrix pow (i + 1))
  else pow byte ^^^ foldPair (fusedRow matrix pow (i + 2)) (fusedRow matrix pow (i + 3))

/-- `prehash_cv` is computed on the host, from the header. -/
def fusedHash (fixedHashes : Bool) (matrix : ℕ → UInt8) (header : Header) (nonce : UInt64) :
    CvBytes :=
  if fixedHashes then
    let pow := cvToBytes (powWords compress sha3 (b3FirstBlockCv compress header) header nonce)
    finalWords compress (.ofFn fun i => fusedMixed matrix (byteAt pow) i)
  else
    let pow := powHash compress sha3 header nonce
    blake3Dev compress (Vector.ofFn fun i : Fin 32 => fusedMixed matrix (byteAt pow) i).toList

theorem byteOfWord_le32 (b0 b1 b2 b3 : UInt8) {i : ℕ} (hi : i < 4) :
    byteOfWord (le32 b0 b1 b2 b3) i =
      if i = 0 then b0 else if i = 1 then b1 else if i = 2 then b2 else b3 :=
  byte_le32 b0 b1 b2 b3 hi

theorem byteOfWord_wordAt (mem : ℕ → UInt8) (word : ℕ) {i : ℕ} (hi : i < 4) :
    byteOfWord (wordAt mem word) i = mem (4 * word + i) := by
  rw [wordAt, byteOfWord_le32 _ _ _ _ hi]
  interval_cases i <;> rfl

theorem byteOfWord_vecWord (pow : ℕ → UInt8) (k : ℕ) {i : ℕ} (hi : i < 4) :
    byteOfWord (vecWord pow k) i = hashNibble pow (4 * k + i) := by
  rw [vecWord, byteOfWord_le32 _ _ _ _ hi]
  have hmod : (4 * k + i) % 2 = i % 2 := by omega
  have hdiv : (4 * k + i) / 2 = (4 * k) / 2 + i / 2 := by omega
  have h2 : (4 * k + 2) / 2 = (4 * k) / 2 + 1 := by omega
  rw [hashNibble, hmod, hdiv, h2]
  interval_cases i <;> rfl

/-- **The dot products add up to a row of the product.** -/
theorem fusedRow_eq {m : NibbleMatrix} {matrix : ℕ → UInt8}
    (hmatrix : ∀ cell < 4096, matrix cell = rowMajor m cell) (pow : ℕ → UInt8) {row : ℕ}
    (hrow : row < 64) : fusedRow matrix pow row = product m pow row := by
  have h : ∀ t ≤ 16, (List.range t).foldl (fun acc k =>
      dot4 (wordAt matrix (row * 16 + k)) (vecWord pow k) acc) 0 =
        ∑ k ∈ Finset.range (4 * t), ((m.entry row k).toNat : ℤ) * (hashNibble pow k).toNat := by
    intro t ht
    induction t with
    | zero => rfl
    | succ t ih =>
      have hcell (i : ℕ) (hi : i < 4) : byteOfWord (wordAt matrix (row * 16 + t)) i =
          m.entry row (4 * t + i) := by
        rw [byteOfWord_wordAt _ _ hi, hmatrix _ (by omega), rowMajor]
        congr 1 <;> omega
      rw [List.range_succ, List.foldl_append, List.foldl_cons, List.foldl_nil, ih (by omega),
        Nat.mul_succ 4 t, Finset.sum_range_succ, Finset.sum_range_succ, Finset.sum_range_succ,
        Finset.sum_range_succ, dot4]
      simp only [hcell _ (show 0 < 4 by decide), hcell _ (show 1 < 4 by decide),
        hcell _ (show 2 < 4 by decide), hcell _ (show 3 < 4 by decide),
        byteOfWord_vecWord _ _ (show 0 < 4 by decide), byteOfWord_vecWord _ _ (show 1 < 4 by decide),
        byteOfWord_vecWord _ _ (show 2 < 4 by decide), byteOfWord_vecWord _ _ (show 3 < 4 by decide)]
      rfl
  exact h 16 le_rfl

theorem fusedMixed_eq {m : NibbleMatrix} {matrix : ℕ → UInt8}
    (hmatrix : ∀ cell < 4096, matrix cell = rowMajor m cell) (pow : ℕ → UInt8) {byte : ℕ}
    (hbyte : byte < 32) : fusedMixed matrix pow byte = mixedByte m pow byte := by
  simp only [fusedMixed, mixedByte]
  split
  · rw [fusedRow_eq hmatrix pow (by omega), fusedRow_eq hmatrix pow (by omega),
      show byte / 2 * 4 = 2 * byte by omega]
  · rw [fusedRow_eq hmatrix pow (by omega), fusedRow_eq hmatrix pow (by omega),
      show byte / 2 * 4 + 2 = 2 * byte by omega, show byte / 2 * 4 + 3 = 2 * byte + 1 by omega]

/-- **The fused kernels compute the hash.** -/
theorem fusedHash_eq (fixedHashes : Bool) {m : NibbleMatrix} {matrix : ℕ → UInt8}
    (hmatrix : ∀ cell < 4096, matrix cell = rowMajor m cell) (header : Header) (nonce : UInt64) :
    fusedHash compress sha3 fixedHashes matrix header nonce =
      walaHash compress sha3 m header nonce := by
  have hmixed (pow : CvBytes) : (Vector.ofFn fun i : Fin 32 => fusedMixed matrix (byteAt pow) i) =
      mixedBytes m pow :=
    congrArg Vector.ofFn (funext fun i => fusedMixed_eq hmatrix _ i.isLt)
  cases fixedHashes with
  | true => simp only [fusedHash, if_true, powWords_eq, hmixed, finalWords_eq, walaHash]
  | false => simp only [fusedHash, hmixed, walaHash, Bool.false_eq_true, if_false]

end Hash

end MoMiner.WalaHash
