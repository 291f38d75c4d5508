import MoMiner.Autolykos2.Prehash
import MoMiner.Autolykos2.Remainder
import MoMiner.Lib.Limbs

/-!
# Rows of the table and the index hash

A row is a digest in eight words, its top byte cleared. The words are stored most significant first;
here a row is a number with its least significant limb first, and `limb` counts as the source does.
The index hash takes the bytes of one row from the table, or from the digest when there is no table.

Main results: `toNat_sumRows` and `autolykosIndexHashDev_eq`.
-/

namespace MoMiner.Autolykos2

/-! ## Words and bytes -/

theorem toNat_or32_of_dvd {s : ℕ} {x y : UInt32} (hx : 2 ^ s ∣ x.toNat) (hy : y.toNat < 2 ^ s) :
    (x ||| y).toNat = x.toNat + y.toNat :=
  toNat_or_of_dvd hx hy

def load32BeDev (b0 b1 b2 b3 : UInt8) : UInt32 :=
  (b0.toUInt32 <<< 24) ||| (b1.toUInt32 <<< 16) ||| (b2.toUInt32 <<< 8) ||| b3.toUInt32

theorem toNat_load32BeDev (b0 b1 b2 b3 : UInt8) :
    (load32BeDev b0 b1 b2 b3).toNat =
      b0.toNat * 2 ^ 24 + b1.toNat * 2 ^ 16 + b2.toNat * 2 ^ 8 + b3.toNat := by
  have h0 := b0.toNat_lt
  have h1 := b1.toNat_lt
  have h2 := b2.toNat_lt
  have h3 := b3.toNat_lt
  have hs0 : (b0.toUInt32 <<< 24).toNat = b0.toNat * 2 ^ 24 := by
    rw [UInt32.toNat_shiftLeft, UInt8.toNat_toUInt32, Nat.shiftLeft_eq]
    exact Nat.mod_eq_of_lt (by simp; omega)
  have hs1 : (b1.toUInt32 <<< 16).toNat = b1.toNat * 2 ^ 16 := by
    rw [UInt32.toNat_shiftLeft, UInt8.toNat_toUInt32, Nat.shiftLeft_eq]
    exact Nat.mod_eq_of_lt (by simp; omega)
  have hs2 : (b2.toUInt32 <<< 8).toNat = b2.toNat * 2 ^ 8 := by
    rw [UInt32.toNat_shiftLeft, UInt8.toNat_toUInt32, Nat.shiftLeft_eq]
    exact Nat.mod_eq_of_lt (by simp; omega)
  have h01 : ((b0.toUInt32 <<< 24) ||| (b1.toUInt32 <<< 16)).toNat =
      b0.toNat * 2 ^ 24 + b1.toNat * 2 ^ 16 := by
    rw [toNat_or32_of_dvd (s := 24) (by rw [hs0]; exact Dvd.intro_left _ rfl)
      (by rw [hs1]; omega), hs0, hs1]
  have h012 : ((b0.toUInt32 <<< 24) ||| (b1.toUInt32 <<< 16) ||| (b2.toUInt32 <<< 8)).toNat =
      b0.toNat * 2 ^ 24 + b1.toNat * 2 ^ 16 + b2.toNat * 2 ^ 8 := by
    rw [toNat_or32_of_dvd (s := 16) (by rw [h01]; omega) (by rw [hs2]; omega), h01, hs2]
  rw [load32BeDev, toNat_or32_of_dvd (s := 8) (by rw [h012]; omega)
    (by rw [UInt8.toNat_toUInt32]; omega), h012, UInt8.toNat_toUInt32]

/-- `load64_be_dev` at a byte of a digest. -/
def load64BeDev (b : Fin 8 → UInt8) : UInt64 :=
  ((load32BeDev (b 0) (b 1) (b 2) (b 3)).toUInt64 <<< 32) |||
    (load32BeDev (b 4) (b 5) (b 6) (b 7)).toUInt64

def wordByteBeDev (word : UInt32) (byteIndex : ℕ) : UInt8 :=
  (word >>> UInt32.ofNat ((3 - byteIndex) * 8)).toUInt8

theorem toNat_wordByteBeDev (word : UInt32) (byteIndex : ℕ) :
    (wordByteBeDev word byteIndex).toNat = word.toNat / 2 ^ ((3 - byteIndex) * 8) % 2 ^ 8 := by
  have hshift : (UInt32.ofNat ((3 - byteIndex) * 8)).toNat % 32 = (3 - byteIndex) * 8 := by
    rw [UInt32.toNat_ofNat']
    omega
  rw [wordByteBeDev, UInt32.toNat_toUInt8, UInt32.toNat_shiftRight, hshift,
    Nat.shiftRight_eq_div_pow]

/-! ## Rows -/

/-- Eight limbs, the least significant first. -/
abbrev Row := Limbs.Number 8

/-- A limb by its index in the source, the most significant first. -/
def Row.limb (a : Row) (i : Fin 8) : UInt32 := a.get i.rev

def digestWord (digest : Digest) (i : Fin 8) : UInt32 :=
  load32BeDev digest[4 * i.val] digest[4 * i.val + 1] digest[4 * i.val + 2] digest[4 * i.val + 3]

def digestToLimbsDev (digest : Digest) : Row :=
  .ofFn fun j =>
    if j.rev = 0 then digestWord digest j.rev &&& 0x00FFFFFF else digestWord digest j.rev

theorem limb_digestToLimbsDev (digest : Digest) (i : Fin 8) :
    Row.limb (digestToLimbsDev digest) i =
      if i = 0 then digestWord digest i &&& 0x00FFFFFF else digestWord digest i := by
  rw [Row.limb, digestToLimbsDev, Limbs.Number.get_ofFn, Fin.rev_rev]

/-- **The bytes of a row** are those of its digest, after the first one. -/
theorem wordByteBeDev_limb (digest : Digest) {pos : ℕ} (hpos : 0 < pos) (hlt : pos < 32) :
    wordByteBeDev (Row.limb (digestToLimbsDev digest) ⟨pos / 4, by omega⟩) (pos % 4) =
      digest[pos] := by
  have hmask (w : UInt32) : (w &&& 0x00FFFFFF).toNat = w.toNat % 2 ^ 24 := by
    rw [UInt32.toNat_and]
    exact Nat.and_two_pow_sub_one_eq_mod _ 24
  have hbyte : ∀ b0 b1 b2 b3 : UInt8, ∀ b < 4,
      (wordByteBeDev (load32BeDev b0 b1 b2 b3) b).toNat =
        (if b = 0 then b0 else if b = 1 then b1 else if b = 2 then b2 else b3).toNat := by
    intro b0 b1 b2 b3 b hb
    have h0 := b0.toNat_lt
    have h1 := b1.toNat_lt
    have h2 := b2.toNat_lt
    have h3 := b3.toNat_lt
    rw [toNat_wordByteBeDev, toNat_load32BeDev]
    interval_cases b <;> simp <;> omega
  have hmasked : ∀ w : UInt32, ∀ b < 4, 0 < b →
      wordByteBeDev (w &&& 0x00FFFFFF) b = wordByteBeDev w b := by
    intro w b hb h0
    refine UInt8.toNat_inj.mp ?_
    rw [toNat_wordByteBeDev, toNat_wordByteBeDev, hmask]
    interval_cases b <;> omega
  have hword : wordByteBeDev (digestWord digest ⟨pos / 4, by omega⟩) (pos % 4) = digest[pos] := by
    refine UInt8.toNat_inj.mp ?_
    rw [digestWord, hbyte _ _ _ _ _ (Nat.mod_lt _ (by decide))]
    congr 1
    have hcases : pos % 4 = 0 ∨ pos % 4 = 1 ∨ pos % 4 = 2 ∨ pos % 4 = 3 := by omega
    have hdiv := Nat.div_add_mod pos 4
    rcases hcases with h | h | h | h <;> simp only [h] <;> simp <;> congr 1 <;> omega
  rw [limb_digestToLimbsDev]
  split
  · rename_i hzero
    have hq : pos / 4 = 0 := by simpa using congrArg Fin.val hzero
    rw [hmasked _ _ (Nat.mod_lt _ (by decide)) (by omega), hword]
  · exact hword

/-- A built table: its rows below `n` are those of the height. -/
structure Table (portable : Bool) (height : BitVec 32) (n : UInt32) where
  row : ℕ → Row
  row_eq : ∀ i < n.toNat, row i =
    digestToLimbsDev (autolykosPrehashDigestFastDev portable (BitVec.ofNat 32 i) height)

/-- The row of an index, for a height. -/
def tableRow (height : BitVec 32) (index : ℕ) : Row :=
  digestToLimbsDev (autolykosPrehashDigestDev false (BitVec.ofNat 32 index) height)

/-- The builds have one digest. -/
theorem autolykosPrehashDigestDev_build (portable : Bool) (index height : BitVec 32) :
    autolykosPrehashDigestDev portable index height =
      autolykosPrehashDigestDev false index height := by
  have hswap : bswap64Dev portable = bswap64Dev false := by
    funext value
    refine BitVec.eq_of_toNat_eq ?_
    rw [toNat_bswap64Dev, toNat_bswap64Dev]
  have hcompress : blake2bCompressDev portable = blake2bCompressDev false := by
    funext h m t last
    simp only [blake2bCompressDev, blake2bRounds_eq, blake2bIv_eq]
  have hblock : prehashBlock portable = prehashBlock false := by
    funext s
    rw [prehashBlock, prehashBlock, hswap, hcompress]
  have hstart : prehashStart portable index height = prehashStart false index height := by
    simp only [prehashStart, hswap, blake2b256InitDev, blake2bIv_eq]
  simp only [autolykosPrehashDigestDev, hblock, hstart, hswap, hcompress]

theorem Table.row_eq_tableRow {portable : Bool} {height : BitVec 32} {n : UInt32}
    (table : Table portable height n) {i : ℕ} (hi : i < n.toNat) :
    table.row i = tableRow height i := by
  rw [table.row_eq i hi, autolykosPrehashDigestFastDev_eq, autolykosPrehashDigestDev_build,
    tableRow]

/-! ## Sums of rows -/

def addLimbsStep (carry : UInt64) (p : UInt32 × UInt32) : UInt64 × UInt32 :=
  let v := p.1.toUInt64 + p.2.toUInt64 + carry
  (v >>> 32, v.toUInt32)

/-- The last carry is dropped. -/
def addLimbsDev (sum add : Row) : Row :=
  ⟨(Limbs.scan addLimbsStep 0 (sum.limbs.zip add.limbs)).2, by
    rw [Limbs.length_scan, List.length_zip, sum.length_eq, add.length_eq, Nat.min_self]⟩

theorem addLimbsStep_spec (carry : UInt64) (p : UInt32 × UInt32) (h : carry.toNat ≤ 1) :
    (addLimbsStep carry p).1.toNat ≤ 1 ∧
      ((addLimbsStep carry p).2.toNat : ℤ) + 2 ^ 32 * ((addLimbsStep carry p).1.toNat : ℤ) =
        ((p.1.toNat : ℤ) + p.2.toNat) + carry.toNat := by
  have h1 := p.1.toNat_lt
  have h2 := p.2.toNat_lt
  have hv : (p.1.toUInt64 + p.2.toUInt64 + carry).toNat =
      p.1.toNat + p.2.toNat + carry.toNat := by
    rw [UInt64.toNat_add, UInt64.toNat_add, UInt32.toNat_toUInt64, UInt32.toNat_toUInt64]
    omega
  simp only [addLimbsStep, toNat_shiftRight_32, UInt64.toNat_toUInt32, hv]
  omega

/-- **Sums wrap at 256 bits.** -/
theorem toNat_addLimbsDev (sum add : Row) :
    (addLimbsDev sum add).toNat = (sum.toNat + add.toNat) % 2 ^ 256 := by
  have hlength : sum.limbs.length = add.limbs.length := sum.length_eq.trans add.length_eq.symm
  obtain ⟨-, hsum⟩ := Limbs.value_scan addLimbsStep (fun c => (c.toNat : ℤ))
    (fun p => (p.1.toNat : ℤ) + p.2.toNat) (fun c => c.toNat ≤ 1)
    (l := sum.limbs.zip add.limbs) (s := 0) (by decide) fun c p _ h => addLimbsStep_spec c p h
  rw [Limbs.weigh_map_add, Limbs.weigh_zip_fst (fun w => (w.toNat : ℤ)) hlength,
    Limbs.weigh_zip_snd (fun w => (w.toNat : ℤ)) hlength, Limbs.weigh_toNat, Limbs.weigh_toNat,
    List.length_zip, sum.length_eq, add.length_eq, Nat.min_self] at hsum
  have hlt := (addLimbsDev sum add).toNat_lt
  have hpow : ((2 : ℕ) ^ 32) ^ 8 = 2 ^ 256 := by norm_num
  have hzero : (UInt64.toNat 0 : ℤ) = 0 := rfl
  rw [hzero] at hsum
  change Limbs.value (Limbs.scan addLimbsStep 0 (sum.limbs.zip add.limbs)).2 < _ at hlt
  change Limbs.value (Limbs.scan addLimbsStep 0 (sum.limbs.zip add.limbs)).2 =
    (Limbs.value sum.limbs + Limbs.value add.limbs) % _
  generalize (Limbs.scan addLimbsStep 0 (sum.limbs.zip add.limbs)).2 = l at *
  generalize (Limbs.scan addLimbsStep 0 (sum.limbs.zip add.limbs)).1.toNat = c at *
  rw [hpow] at hlt
  norm_num at hsum hlt ⊢
  omega

def zeroRow : Row := .ofFn fun _ => 0

/-- The rows of `K_LEN` turns, added one after the other. -/
def sumRows (row : ℕ → Row) (turns : ℕ) : Row :=
  (List.range turns).foldl (fun sum k => addLimbsDev sum (row k)) zeroRow

theorem toNat_sumRows (row : ℕ → Row) (turns : ℕ) :
    (sumRows row turns).toNat = (∑ k ∈ Finset.range turns, (row k).toNat) % 2 ^ 256 := by
  induction turns with
  | zero => rfl
  | succ turns ih =>
    have hstep : sumRows row (turns + 1) = addLimbsDev (sumRows row turns) (row turns) := by
      simp only [sumRows, List.range_succ, List.foldl_append, List.foldl_cons, List.foldl_nil]
    rw [hstep, toNat_addLimbsDev, ih, Finset.sum_range_succ, Nat.mod_add_mod]

/-! ## The index hash -/

/-- Which byte helpers and which 64-bit product a build uses. -/
structure Build where
  portable : Bool
  halves : Bool

/-- The bytes go into the words of one block in their order. -/
def oneblockWords (input : List UInt8) : ℕ → BitVec 64 :=
  input.zipIdx.foldl (fun (m : ℕ → BitVec 64) (p : UInt8 × ℕ) =>
    let word := p.1.toBitVec.setWidth 64 <<< (p.2 % 8 * 8)
    Function.update m (p.2 / 8) (m (p.2 / 8) ||| word)) fun _ => 0

/-- `input` has at most 128 bytes. -/
def blake2b256OneblockDev (portable : Bool) (input : List UInt8) : Digest :=
  blake2b256OutputDev (blake2bCompressDev portable (blake2b256InitDev portable)
    (fun i => oneblockWords input i.val) (BitVec.ofNat 64 input.length) true)

def nonceBe (nonce : UInt64) : List UInt8 :=
  (List.range 8).map fun i => (nonce >>> UInt64.ofNat ((7 - i) * 8)).toUInt8

/-- The bytes of the row after the first one, from the table or from the digest. -/
def seedRow (b : Build) {height : BitVec 32} {n : UInt32}
    (table : Option (Table b.portable height n)) (h3 : UInt32) : List UInt8 :=
  match table with
  | some table => List.ofFn fun i : Fin 31 =>
      wordByteBeDev (Row.limb (table.row h3.toNat) ⟨(i.val + 1) / 4, by omega⟩) ((i.val + 1) % 4)
  | none => List.ofFn fun i : Fin 31 =>
      (autolykosPrehashDigestDev b.portable h3.toBitVec height)[i.val + 1]

/-- The portable kernel takes the branch without a table. -/
def autolykosIndexHashDev (b : Build) (message : Digest) (nonce : UInt64) {height : BitVec 32}
    {n : UInt32} (table : Option (Table b.portable height n)) : Digest :=
  let h1 := blake2b256OneblockDev b.portable (message.toList ++ nonceBe nonce)
  let h3 := moModU64 b.halves (load64BeDev fun i => h1[24 + i.val]) n (moDivM64 n)
  blake2b256OneblockDev b.portable (seedRow b table h3 ++ message.toList ++ nonceBe nonce)

/-- The index hash of a message and a nonce. -/
def indexHash (message : Digest) (nonce : UInt64) (height : BitVec 32) (n : UInt32) : Digest :=
  autolykosIndexHashDev ⟨false, false⟩ message nonce (none : Option (Table false height n))

theorem blake2b256OneblockDev_build (portable : Bool) (input : List UInt8) :
    blake2b256OneblockDev portable input = blake2b256OneblockDev false input := by
  simp only [blake2b256OneblockDev, blake2bCompressDev, blake2bRounds_eq, blake2b256InitDev,
    blake2bIv_eq]

theorem seedRow_eq (b : Build) {height : BitVec 32} {n : UInt32}
    (table : Option (Table b.portable height n)) {h3 : UInt32} (h : h3.toNat < n.toNat) :
    seedRow b table h3 = seedRow ⟨false, false⟩ (none : Option (Table false height n)) h3 := by
  have hindex : BitVec.ofNat 32 h3.toNat = h3.toBitVec := by simp
  cases table with
  | none => simp only [seedRow, autolykosPrehashDigestDev_build b.portable]
  | some table =>
    simp only [seedRow]
    refine congrArg List.ofFn (funext fun i => ?_)
    rw [table.row_eq_tableRow h, tableRow, hindex]
    exact wordByteBeDev_limb _ (by omega) (by omega)

/-- **One index hash**, with or without the table. -/
theorem autolykosIndexHashDev_eq (b : Build) (message : Digest) (nonce : UInt64)
    {height : BitVec 32} {n : UInt32} (hn : n ≠ 0) (table : Option (Table b.portable height n)) :
    autolykosIndexHashDev b message nonce table = indexHash message nonce height n := by
  have hmod (x : UInt64) : moModU64 b.halves x n (moDivM64 n) =
      moModU64 false x n (moDivM64 n) := by
    refine UInt32.toNat_inj.mp ?_
    rw [moModU64_eq b.halves x hn, moModU64_eq false x hn]
  have hlt (x : UInt64) : (moModU64 false x n (moDivM64 n)).toNat < n.toNat := by
    rw [moModU64_eq false x hn]
    exact Nat.mod_lt _ (toNat_ne_zero hn)
  simp only [autolykosIndexHashDev, indexHash, blake2b256OneblockDev_build b.portable, hmod]
  rw [seedRow_eq b table (hlt _)]

end MoMiner.Autolykos2
