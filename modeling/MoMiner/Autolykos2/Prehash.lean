import Mathlib.Algebra.BigOperators.Fin
import Mathlib.Tactic.IntervalCases
import Mathlib.Tactic.Positivity
import Mathlib.Tactic.Ring
import MoMiner.Equihash.Hash

/-!
# The digest of a row

A table row is the BLAKE2b digest of its index, the height and a constant pad of 8192 bytes. The
reference hashes whole blocks; the table build works on pairs of 32-bit words and makes up the
blocks from the pad items. The portable build has its own schedule and byte swaps.

Main result: `autolykosPrehashDigestFastDev_eq`.
-/

namespace MoMiner.Autolykos2

open Equihash (Quad Blake2bPair b2Join b2Pair b2G pairMix b2Start b2Round b2Rounds)

local instance neZeroSixteen : NeZero 16 := ⟨by decide⟩

/-! ## Bytes of words -/

section Bytes

variable {w : ℕ}

theorem toNat_or_of_dvd {s : ℕ} {x y : BitVec w} (hx : 2 ^ s ∣ x.toNat) (hy : y.toNat < 2 ^ s) :
    (x ||| y).toNat = x.toNat + y.toNat := by
  obtain ⟨a, ha⟩ := hx
  rw [BitVec.toNat_or, ha, Nat.two_pow_add_eq_or_of_lt hy]

/-- The byte of weight `256 ^ i`. -/
def byteAt (v : BitVec w) (i : ℕ) : ℕ := v.toNat / 2 ^ (8 * i) % 256

theorem byteAt_lt (v : BitVec w) (i : ℕ) : byteAt v i < 256 := Nat.mod_lt _ (by decide)

/-- A byte under its mask. -/
theorem toNat_and_byte (v : BitVec w) {i : ℕ} (hi : 8 * i + 8 ≤ w) :
    (v &&& BitVec.ofNat w (255 <<< (8 * i))).toNat = byteAt v i * 2 ^ (8 * i) := by
  have hmask : 255 <<< (8 * i) < 2 ^ w := by
    rw [Nat.shiftLeft_eq]
    calc 255 * 2 ^ (8 * i) < 2 ^ 8 * 2 ^ (8 * i) :=
          Nat.mul_lt_mul_of_pos_right (by decide) (Nat.two_pow_pos _)
      _ = 2 ^ (8 * i + 8) := by rw [← pow_add, Nat.add_comm]
      _ ≤ 2 ^ w := Nat.pow_le_pow_right (by decide) hi
  have hand : v.toNat &&& 255 <<< (8 * i) = ((v.toNat >>> (8 * i)) &&& 255) <<< (8 * i) := by
    refine Nat.eq_of_testBit_eq fun j => ?_
    rw [Nat.testBit_and, Nat.testBit_shiftLeft, Nat.testBit_shiftLeft, Nat.testBit_and,
      Nat.testBit_shiftRight]
    by_cases hj : 8 * i ≤ j
    · simp [hj]
    · simp [hj]
  rw [BitVec.toNat_and, BitVec.toNat_ofNat, Nat.mod_eq_of_lt hmask, hand, Nat.shiftLeft_eq,
    Nat.shiftRight_eq_div_pow]
  congr 1
  exact Nat.and_two_pow_sub_one_eq_mod _ 8

/-- A shifted byte. -/
theorem toNat_shiftRight_and (v : BitVec w) (hw : 8 ≤ w) (i : ℕ) :
    ((v >>> (8 * i)) &&& BitVec.ofNat w 255).toNat = byteAt v i := by
  have h := toNat_and_byte (v >>> (8 * i)) (i := 0) (by omega)
  have hbyte : byteAt (v >>> (8 * i)) 0 = byteAt v i := by
    rw [byteAt, byteAt, BitVec.toNat_ushiftRight, Nat.shiftRight_eq_div_pow, Nat.mul_zero, pow_zero,
      Nat.div_one]
  rw [hbyte] at h
  simpa using h

/-- The number of `k` bytes, the most significant first. -/
def ofBytes (k : ℕ) (b : ℕ → ℕ) : ℕ := ∑ i ∈ Finset.range k, b i * 256 ^ (k - 1 - i)

/-- Bytes that are put together from the most significant one down. -/
theorem toNat_foldl_or (f : ℕ → BitVec w) {b : ℕ → ℕ} {k : ℕ}
    (hf : ∀ i < k, (f i).toNat = b i * 256 ^ (k - 1 - i)) (hb : ∀ i, b i < 256) :
    ((List.range k).foldl (fun r i => r ||| f i) 0).toNat = ofBytes k b := by
  have h : ∀ n ≤ k, ((List.range n).foldl (fun r i => r ||| f i) 0).toNat =
      (∑ i ∈ Finset.range n, b i * 256 ^ (k - 1 - i)) ∧
      256 ^ (k - n) ∣ ∑ i ∈ Finset.range n, b i * 256 ^ (k - 1 - i) := by
    intro n
    induction n with
    | zero => exact fun _ => ⟨by simp, by simp⟩
    | succ n ih =>
      intro hn
      obtain ⟨hsum, hdvd⟩ := ih (by omega)
      have hexp : k - (n + 1) = k - 1 - n := by omega
      have hpow : 2 ^ (8 * (k - n)) = 256 ^ (k - n) := by rw [pow_mul]; rfl
      have hlt : (f n).toNat < 256 ^ (k - n) := by
        rw [hf n hn, show k - n = k - 1 - n + 1 by omega, pow_succ, Nat.mul_comm]
        exact Nat.mul_lt_mul_of_pos_left (hb n) (by positivity)
      rw [List.range_succ, List.foldl_append, Finset.sum_range_succ]
      constructor
      · rw [List.foldl_cons, List.foldl_nil, toNat_or_of_dvd (s := 8 * (k - n)), hsum, hf n hn]
        · rwa [hsum, hpow]
        · rwa [hpow]
      · refine Nat.dvd_add (dvd_trans (pow_dvd_pow 256 (by omega)) hdvd) ?_
        rw [hexp]
        exact Dvd.intro_left _ rfl
  exact (h k le_rfl).1

theorem foldl_or_four (f : ℕ → BitVec w) :
    (List.range 4).foldl (fun r i => r ||| f i) 0 = f 3 ||| f 2 ||| f 1 ||| f 0 := by
  simp only [List.range, List.range.loop, List.foldl, BitVec.ofNat_eq_ofNat, BitVec.zero_or]
  ac_rfl

theorem foldl_or_eight (f : ℕ → BitVec w) :
    (List.range 8).foldl (fun r i => r ||| f i) 0 =
      f 7 ||| f 6 ||| f 5 ||| f 4 ||| f 3 ||| f 2 ||| f 1 ||| f 0 := by
  simp only [List.range, List.range.loop, List.foldl, BitVec.ofNat_eq_ofNat, BitVec.zero_or]
  ac_rfl

end Bytes

/-- `bswap64_dev`, by a loop in the portable build. -/
def bswap64Dev (portable : Bool) (value : BitVec 64) : BitVec 64 :=
  if portable then
    (List.range 8).foldl (fun result i =>
      result ||| ((value >>> (8 * i)) &&& 0xff) <<< ((7 - i) * 8)) 0
  else
    ((value &&& 0x00000000000000FF) <<< 56) ||| ((value &&& 0x000000000000FF00) <<< 40) |||
    ((value &&& 0x0000000000FF0000) <<< 24) ||| ((value &&& 0x00000000FF000000) <<< 8) |||
    ((value &&& 0x000000FF00000000) >>> 8) ||| ((value &&& 0x0000FF0000000000) >>> 24) |||
    ((value &&& 0x00FF000000000000) >>> 40) ||| ((value &&& 0xFF00000000000000) >>> 56)

/-- `bswap32_dev` in the portable build, the written-out swap elsewhere. -/
def bswap32Dev (portable : Bool) (value : BitVec 32) : BitVec 32 :=
  if portable then
    (List.range 4).foldl (fun result i =>
      result ||| ((value >>> (8 * i)) &&& 0xff) <<< ((3 - i) * 8)) 0
  else
    (value >>> 24) ||| ((value >>> 8) &&& 0xFF00) ||| ((value <<< 8) &&& 0xFF0000) |||
    (value <<< 24)

def packBe32PairAsBlakeWord (a b : BitVec 32) : BitVec 64 :=
  (((a >>> 24) &&& 0xff).setWidth 64 <<< 0) ||| (((a >>> 16) &&& 0xff).setWidth 64 <<< 8) |||
  (((a >>> 8) &&& 0xff).setWidth 64 <<< 16) ||| ((a &&& 0xff).setWidth 64 <<< 24) |||
  (((b >>> 24) &&& 0xff).setWidth 64 <<< 32) ||| (((b >>> 16) &&& 0xff).setWidth 64 <<< 40) |||
  (((b >>> 8) &&& 0xff).setWidth 64 <<< 48) ||| ((b &&& 0xff).setWidth 64 <<< 56)

/-- A term of the written-out swap of 64 bits. -/
def swapTerm (value : BitVec 64) : ℕ → BitVec 64
  | 0 => (value &&& 0x00000000000000FF) <<< 56
  | 1 => (value &&& 0x000000000000FF00) <<< 40
  | 2 => (value &&& 0x0000000000FF0000) <<< 24
  | 3 => (value &&& 0x00000000FF000000) <<< 8
  | 4 => (value &&& 0x000000FF00000000) >>> 8
  | 5 => (value &&& 0x0000FF0000000000) >>> 24
  | 6 => (value &&& 0x00FF000000000000) >>> 40
  | _ => (value &&& 0xFF00000000000000) >>> 56

/-- A term of the written-out swap of 32 bits. -/
def swapTerm32 (value : BitVec 32) : ℕ → BitVec 32
  | 0 => value <<< 24
  | 1 => (value <<< 8) &&& 0xFF0000
  | 2 => (value >>> 8) &&& 0xFF00
  | _ => value >>> 24

/-- A term of the packed pair, the last one first. -/
def packTerm (a b : BitVec 32) (i : ℕ) : BitVec 64 :=
  (((if i < 4 then b >>> (8 * i) else a >>> (8 * (i - 4))) &&& 0xff).setWidth 64) <<< (8 * (7 - i))

theorem toNat_byte_shiftLeft {w k i : ℕ} (v : BitVec w) (hw : w = 8 * k) (hi : i < k) :
    (((v >>> (8 * i)) &&& BitVec.ofNat w 255) <<< ((k - 1 - i) * 8)).toNat =
      byteAt v i * 256 ^ (k - 1 - i) := by
  have hlt := byteAt_lt v i
  have hpow : 2 ^ ((k - 1 - i) * 8) = 256 ^ (k - 1 - i) := by rw [Nat.mul_comm, pow_mul]; rfl
  rw [BitVec.toNat_shiftLeft, Nat.shiftLeft_eq, hpow, toNat_shiftRight_and v (by omega),
    Nat.mod_eq_of_lt]
  calc byteAt v i * 256 ^ (k - 1 - i) < 256 * 256 ^ (k - 1 - i) :=
        Nat.mul_lt_mul_of_pos_right hlt (by positivity)
    _ = 256 ^ (k - 1 - i + 1) := (pow_succ' _ _).symm
    _ ≤ 256 ^ k := Nat.pow_le_pow_right (by decide) (by omega)
    _ = 2 ^ w := by rw [hw, pow_mul]; rfl

theorem toNat_bswap64Dev (portable : Bool) (value : BitVec 64) :
    (bswap64Dev portable value).toNat = ofBytes 8 (byteAt value) := by
  unfold bswap64Dev
  split
  · exact toNat_foldl_or _ (fun i hi => toNat_byte_shiftLeft (k := 8) value rfl hi)
      (byteAt_lt value)
  · have hterm : ∀ i < 8, (swapTerm value i).toNat = byteAt value i * 256 ^ (7 - i) := by
      intro i hi
      have hlt := byteAt_lt value i
      have hmask := toNat_and_byte value (i := i) (by omega)
      interval_cases i <;>
        simp only [swapTerm, BitVec.toNat_shiftLeft, BitVec.toNat_ushiftRight, Nat.shiftLeft_eq,
          Nat.shiftRight_eq_div_pow] <;>
        erw [hmask] <;> omega
    rw [← toNat_foldl_or (swapTerm value) hterm (byteAt_lt value)]
    simp [List.range, List.range.loop, swapTerm]

theorem toNat_bswap32Dev (portable : Bool) (value : BitVec 32) :
    (bswap32Dev portable value).toNat = ofBytes 4 (byteAt value) := by
  unfold bswap32Dev
  split
  · exact toNat_foldl_or _ (fun i hi => toNat_byte_shiftLeft (k := 4) value rfl hi)
      (byteAt_lt value)
  · have hterm : ∀ i < 4, (swapTerm32 value i).toNat = byteAt value i * 256 ^ (3 - i) := by
      intro i hi
      have hv := value.isLt
      have h1 := toNat_and_byte (value <<< 8) (i := 2) (by decide)
      have h2 := toNat_and_byte (value >>> 8) (i := 1) (by decide)
      simp only [byteAt, BitVec.toNat_shiftLeft, BitVec.toNat_ushiftRight, Nat.shiftLeft_eq,
        Nat.shiftRight_eq_div_pow] at h1 h2
      interval_cases i <;>
        simp only [swapTerm32, byteAt, BitVec.toNat_shiftLeft, BitVec.toNat_ushiftRight,
          Nat.shiftLeft_eq, Nat.shiftRight_eq_div_pow]
      · omega
      · erw [h1]; omega
      · erw [h2]; omega
      · omega
    rw [← toNat_foldl_or (swapTerm32 value) hterm (byteAt_lt value), foldl_or_four]
    rfl

/-- **Packing a pair swaps both words.** -/
theorem packBe32PairAsBlakeWord_eq (portable : Bool) (a b : BitVec 32) :
    packBe32PairAsBlakeWord a b = b2Join ⟨bswap32Dev portable a, bswap32Dev portable b⟩ := by
  refine BitVec.eq_of_toNat_eq ?_
  rw [Equihash.toNat_b2Join, toNat_bswap32Dev, toNat_bswap32Dev]
  have hbyte (v : BitVec 32) (i : ℕ) : ((v >>> (8 * i)) &&& 0xff).toNat = byteAt v i :=
    toNat_shiftRight_and v (by decide) i
  have hterm : ∀ i < 8, (packTerm a b i).toNat =
      (if i < 4 then byteAt b i else byteAt a (i - 4)) * 256 ^ (7 - i) := by
    intro i hi
    have ha := byteAt_lt a (i - 4)
    have hb := byteAt_lt b i
    have hshift : 8 * (7 - i) + 8 ≤ 64 := by omega
    have hpow : 2 ^ (8 * (7 - i)) = 256 ^ (7 - i) := by rw [pow_mul]; rfl
    have hsmall : (if i < 4 then byteAt b i else byteAt a (i - 4)) < 256 := by split_ifs <;> omega
    have htoNat : (((if i < 4 then b >>> (8 * i) else a >>> (8 * (i - 4))) &&& 0xff)).toNat =
        if i < 4 then byteAt b i else byteAt a (i - 4) := by split_ifs <;> exact hbyte _ _
    have hbound : 256 ^ (7 - i) ≤ 256 ^ 7 := Nat.pow_le_pow_right (by decide) (by omega)
    rw [packTerm, BitVec.toNat_shiftLeft, BitVec.toNat_setWidth, htoNat, Nat.shiftLeft_eq, hpow,
      Nat.mod_eq_of_lt (a := ite _ _ _) (by omega), Nat.mod_eq_of_lt]
    calc _ < 256 * 256 ^ (7 - i) := Nat.mul_lt_mul_of_pos_right hsmall (by positivity)
      _ ≤ 256 * 256 ^ 7 := Nat.mul_le_mul_left _ hbound
      _ = 2 ^ 64 := by norm_num
  have hpack : packBe32PairAsBlakeWord a b =
      (List.range 8).foldl (fun r i => r ||| packTerm a b i) 0 := by
    rw [foldl_or_eight]
    rfl
  rw [hpack, toNat_foldl_or (packTerm a b) hterm fun i => by
    have := byteAt_lt a (i - 4)
    have := byteAt_lt b i
    split_ifs <;> assumption]
  simp only [ofBytes, Finset.sum_range_succ, Finset.sum_range_zero]
  norm_num
  ring

/-! ## The compression -/

/-- `blake2b_iv`, the switch of the portable build. -/
def blake2bIvSwitch : ℕ → BitVec 64
  | 0 => 0x6A09E667F3BCC908
  | 1 => 0xBB67AE8584CAA73B
  | 2 => 0x3C6EF372FE94F82B
  | 3 => 0xA54FF53A5F1D36F1
  | 4 => 0x510E527FADE682D1
  | 5 => 0x9B05688C2B3E6C1F
  | 6 => 0x1F83D9ABFB41BD6B
  | _ => 0x5BE0CD19137E2179

def blake2bIv (portable : Bool) : Vector (BitVec 64) 8 :=
  if portable then .ofFn fun i => blake2bIvSwitch i else Equihash.blake2bIv

/-- A round of the schedule of the portable build, four bits a selector. -/
def blake2bSigmaPacked : ℕ → BitVec 64
  | 0 => 0xfedcba9876543210
  | 2 => 0x491763eadf250c8b
  | 3 => 0x8f04a562ebcd1397
  | 4 => 0xd386cb1efa427509
  | 5 => 0x91ef57d438b0a6c2
  | 6 => 0xb8293670a4def15c
  | 7 => 0xa2684f05931ce7bd
  | 8 => 0x5a417d2c803b9ef6
  | 9 => 0x0dc3e9bf5167482a
  | 10 => 0xfedcba9876543210
  | _ => 0x357b20c16df984ae

def blake2bSigma (portable : Bool) : List (List (Fin 16)) :=
  if portable then
    (List.range 12).map fun round => (List.range 16).map fun index =>
      Fin.ofNat 16 ((blake2bSigmaPacked round >>> (index * 4)) &&& 0xf).toNat
  else Equihash.blake2bSigma

theorem blake2bIv_eq (portable : Bool) : blake2bIv portable = Equihash.blake2bIv := by
  cases portable <;> decide

theorem blake2bSigma_eq (portable : Bool) : blake2bSigma portable = Equihash.blake2bSigma := by
  cases portable <;> decide

def blake2bG (q : Quad (BitVec 64)) (x y : BitVec 64) : Quad (BitVec 64) :=
  let a := q.a + q.b + x
  let d := Equihash.rotr64 (q.d ^^^ a) 32
  let c := q.c + d
  let b := Equihash.rotr64 (q.b ^^^ c) 24
  let a := a + b + y
  let d := Equihash.rotr64 (d ^^^ a) 16
  let c := c + d
  let b := Equihash.rotr64 (b ^^^ c) 63
  ⟨a, b, c, d⟩

theorem blake2bG_eq : blake2bG = b2G := by
  funext q x y
  simp only [blake2bG, b2G, BitVec.add_assoc]

section Compress

variable (portable : Bool)

def blake2bRounds {W : Type} (g : Quad W → W → W → Quad W) (m : Fin 16 → W) (v : Vector W 16) :
    Vector W 16 :=
  (blake2bSigma portable).foldl (b2Round g m) v

theorem countWord_lt : 12 < 16 := by decide

theorem lastWord_lt : 14 < 16 := by decide

/-- The counter and the flag of the last block enter the working words. -/
def blake2bMark (v : Vector (BitVec 64) 16) (t : BitVec 64) (last : Bool) :
    Vector (BitVec 64) 16 :=
  have := countWord_lt
  have := lastWord_lt
  let v := v.set 12 (v[12] ^^^ t)
  if last then v.set 14 (~~~ v[14]) else v

def blake2bMarkPair (v : Vector Blake2bPair 16) (t : BitVec 32) (last : Bool) :
    Vector Blake2bPair 16 :=
  have := countWord_lt
  have := lastWord_lt
  let v := v.set 12 ⟨v[12].lo ^^^ t, v[12].hi⟩
  if last then v.set 14 ⟨~~~ v[14].lo, ~~~ v[14].hi⟩ else v

theorem chainWord_lt (i : Fin 8) : i.val < 8 := i.isLt

theorem lowWord_lt (i : Fin 8) : i.val < 16 := by omega

theorem highWord_lt (i : Fin 8) : i.val + 8 < 16 := by omega

def blake2bCompressDev (h : Vector (BitVec 64) 8) (m : Fin 16 → BitVec 64) (t : BitVec 64)
    (last : Bool) : Vector (BitVec 64) 8 :=
  let v := blake2bRounds portable blake2bG m (blake2bMark (h ++ blake2bIv portable) t last)
  .ofFn fun i =>
    have := chainWord_lt i
    have := lowWord_lt i
    have := highWord_lt i
    h[i] ^^^ (v[i] ^^^ v[i.val + 8])

/-- The steps of `blake2b_g_pair` are those of the Equihash kernel. -/
def blake2bCompressPairDev (h : Vector Blake2bPair 8) (m : Fin 16 → Blake2bPair) (t : BitVec 32)
    (last : Bool) : Vector Blake2bPair 8 :=
  let v := blake2bRounds portable pairMix m
    (blake2bMarkPair (h ++ (blake2bIv portable).map b2Pair) t last)
  .ofFn fun i =>
    have := chainWord_lt i
    have := lowWord_lt i
    have := highWord_lt i
    Equihash.pairXor h[i] (Equihash.pairXor v[i] v[i.val + 8])

theorem blake2bRounds_eq {W : Type} (g : Quad W → W → W → Quad W) (m : Fin 16 → W)
    (v : Vector W 16) : blake2bRounds portable g m v = b2Rounds g m v := by
  rw [blake2bRounds, blake2bSigma_eq, b2Rounds]

theorem blake2bMarkPair_join (v : Vector Blake2bPair 16) (t : BitVec 32) (last : Bool) :
    (blake2bMarkPair v t last).map b2Join = blake2bMark (v.map b2Join) (t.setWidth 64) last := by
  cases last <;>
    simp [blake2bMarkPair, blake2bMark, Vector.map_set, Equihash.b2Join_xor_lo, Equihash.b2Join_not]

/-- **Compressing pairs is compressing words.** -/
theorem blake2bCompressPairDev_join (h : Vector Blake2bPair 8) (m : Fin 16 → Blake2bPair)
    (t : BitVec 32) (last : Bool) :
    (blake2bCompressPairDev portable h m t last).map b2Join =
      blake2bCompressDev portable (h.map b2Join) (b2Join ∘ m) (t.setWidth 64) last := by
  have hjoin : b2Join ∘ b2Pair = id := funext Equihash.b2Join_b2Pair
  have hstart : (h ++ (blake2bIv portable).map b2Pair).map b2Join =
      h.map b2Join ++ blake2bIv portable := by
    rw [Vector.map_append, Vector.map_map, hjoin, Vector.map_id]
  have hrounds := Equihash.b2Rounds_simulates Equihash.pairMix_join m
    (blake2bMarkPair (h ++ (blake2bIv portable).map b2Pair) t last)
  rw [blake2bMarkPair_join, hstart] at hrounds
  simp only [blake2bCompressPairDev, blake2bCompressDev, blake2bRounds_eq, blake2bG_eq, ← hrounds]
  refine Vector.ext fun i hi => ?_
  simp only [Vector.getElem_map, Vector.getElem_ofFn, Fin.getElem_fin, Equihash.b2Join_pairXor]

end Compress

/-! ## The digest -/

abbrev Digest := Vector UInt8 32

section Prehash

variable (portable : Bool)

def blake2b256InitDev : Vector (BitVec 64) 8 :=
  (blake2bIv portable).set 0 ((blake2bIv portable)[0] ^^^ 0x01010020)

def blake2b256OutputDev (h : Vector (BitVec 64) 8) : Digest :=
  .ofFn fun i => UInt8.ofBitVec ((h[i.val / 8] >>> (8 * (i.val % 8))).setWidth 8)

/-- The state of the reference between two blocks. -/
structure PrehashState where
  h : Vector (BitVec 64) 8
  m : Fin 16 → BitVec 64
  ctr : BitVec 64
  total : BitVec 64

/-- A block of the reference: the words of the next block are made after the compression. -/
def prehashBlock (s : PrehashState) : PrehashState where
  h := blake2bCompressDev portable s.h s.m (s.total + 128) false
  m := fun i => bswap64Dev portable (s.ctr + BitVec.ofNat 64 i)
  ctr := s.ctr + 16
  total := s.total + 128

def prehashStart (index height : BitVec 32) : PrehashState where
  h := blake2b256InitDev portable
  m := fun i =>
    if i = 0 then packBe32PairAsBlakeWord index height
    else bswap64Dev portable (BitVec.ofNat 64 (i - 1))
  ctr := 15
  total := 0

/-- `CONST_MES_SIZE` -/
def constMesSize : ℕ := 8192

def autolykosPrehashDigestDev (index height : BitVec 32) : Digest :=
  let s := (prehashBlock portable)^[64] (prehashStart portable index height)
  let m : Fin 16 → BitVec 64 := fun i =>
    if i = 0 then bswap64Dev portable (BitVec.ofNat 64 (constMesSize / 8 - 1)) else 0
  blake2b256OutputDev (blake2bCompressDev portable s.h m (s.total + 8) true)

/-! ## The digest on pairs -/

def padMessageHiDev (item : BitVec 32) : BitVec 32 :=
  ((item &&& 0xFF) <<< 24) ||| ((item >>> 8) <<< 16)

def prehashBlock0Message (indexBe heightBe : BitVec 32) (i : Fin 16) : Blake2bPair :=
  if i = 0 then ⟨indexBe, heightBe⟩ else ⟨0, padMessageHiDev (BitVec.ofNat 32 (i - 1))⟩

def prehashPadMessage (base : BitVec 32) (i : Fin 16) : Blake2bPair :=
  ⟨0, padMessageHiDev (base + BitVec.ofNat 32 i)⟩

def prehashFinalMessage (i : Fin 16) : Blake2bPair :=
  if i = 0 then ⟨0, padMessageHiDev (BitVec.ofNat 32 (constMesSize / 8 - 1))⟩ else ⟨0, 0⟩

def prehashInitPair : Vector Blake2bPair 8 :=
  let h := (blake2bIv portable).map b2Pair
  h.set 0 ⟨h[0].lo ^^^ 0x01010020, h[0].hi⟩

/-- A block of the pad, from block 1 to block 63. -/
def prehashPadBlock (h : Vector Blake2bPair 8) (block : ℕ) : Vector Blake2bPair 8 :=
  blake2bCompressPairDev portable h (prehashPadMessage (16 * BitVec.ofNat 32 block - 1))
    ((BitVec.ofNat 32 block + 1) * 128) false

def digestOfPairs (h : Vector Blake2bPair 8) : Digest :=
  .ofFn fun i =>
    let word := h[i.val / 8]
    let byte := i.val % 8
    UInt8.ofBitVec (if byte < 4 then (word.lo >>> (byte * 8)).setWidth 8
      else (word.hi >>> ((byte - 4) * 8)).setWidth 8)

def autolykosPrehashDigestFastDev (index height : BitVec 32) : Digest :=
  let h := blake2bCompressPairDev portable (prehashInitPair portable)
    (prehashBlock0Message (bswap32Dev portable index) (bswap32Dev portable height)) 128 false
  let h := (List.range' 1 63).foldl (prehashPadBlock portable) h
  digestOfPairs (blake2bCompressPairDev portable h prehashFinalMessage
    (BitVec.ofNat 32 (constMesSize + 8)) true)

/-! ## The two digests are equal -/

theorem toNat_padMessageHiDev {item : ℕ} (h : item < 2 ^ 16) :
    (padMessageHiDev (BitVec.ofNat 32 item)).toNat =
      item % 256 * 256 ^ 3 + item / 256 * 256 ^ 2 := by
  have hitem : (BitVec.ofNat 32 item).toNat = item := by
    rw [BitVec.toNat_ofNat, Nat.mod_eq_of_lt (by omega)]
  have hlow : ((BitVec.ofNat 32 item &&& 0xFF) <<< 24).toNat = item % 256 * 256 ^ 3 := by
    have hbyte := toNat_shiftRight_and (BitVec.ofNat 32 item) (by decide) 0
    rw [Nat.mul_zero, BitVec.ushiftRight_zero, byteAt, hitem] at hbyte
    rw [BitVec.toNat_shiftLeft, Nat.shiftLeft_eq]
    erw [hbyte]
    omega
  have hhigh : ((BitVec.ofNat 32 item >>> 8) <<< 16).toNat = item / 256 * 256 ^ 2 := by
    rw [BitVec.toNat_shiftLeft, BitVec.toNat_ushiftRight, hitem, Nat.shiftLeft_eq,
      Nat.shiftRight_eq_div_pow]
    omega
  rw [padMessageHiDev, toNat_or_of_dvd (s := 24), hlow, hhigh]
  · rw [hlow]
    exact Dvd.intro_left _ rfl
  · rw [hhigh]
    omega

/-- **A pad item is a byte-swapped counter.** -/
theorem bswap64Dev_item {item : ℕ} (h : item < 2 ^ 16) :
    bswap64Dev portable (BitVec.ofNat 64 item) =
      b2Join ⟨0, padMessageHiDev (BitVec.ofNat 32 item)⟩ := by
  have hitem : (BitVec.ofNat 64 item).toNat = item := by
    rw [BitVec.toNat_ofNat, Nat.mod_eq_of_lt (by omega)]
  have hzero : (0 : BitVec 32).toNat = 0 := rfl
  refine BitVec.eq_of_toNat_eq ?_
  rw [toNat_bswap64Dev, Equihash.toNat_b2Join, toNat_padMessageHiDev h]
  simp only [ofBytes, Finset.sum_range_succ, Finset.sum_range_zero, byteAt, hitem, hzero]
  norm_num
  omega

/-- The reference after the blocks before block `n + 1`. -/
structure PrehashInv (s : PrehashState) (h : Vector Blake2bPair 8) (n : ℕ) : Prop where
  h : h.map b2Join = s.h
  m : s.m = b2Join ∘ prehashPadMessage (16 * BitVec.ofNat 32 (n + 1) - 1)
  ctr : s.ctr = BitVec.ofNat 64 (16 * n + 31)
  total : s.total = BitVec.ofNat 64 (128 * (n + 1))

theorem map_prehashInitPair : (prehashInitPair portable).map b2Join = blake2b256InitDev portable := by
  have hjoin : b2Join ∘ b2Pair = id := funext Equihash.b2Join_b2Pair
  simp [prehashInitPair, blake2b256InitDev, Vector.map_set, hjoin, Equihash.b2Join_xor_lo,
    Equihash.b2Join_b2Pair]

theorem prehashPadMessage_eq {n : ℕ} (hn : n < 64) :
    (fun i : Fin 16 => bswap64Dev portable (BitVec.ofNat 64 (16 * n + 15) + BitVec.ofNat 64 i)) =
      b2Join ∘ prehashPadMessage (16 * BitVec.ofNat 32 (n + 1) - 1) := by
  funext i
  have hi := i.isLt
  rw [← BitVec.ofNat_add, bswap64Dev_item portable (by omega), Function.comp_apply,
    prehashPadMessage]
  congr 3
  refine BitVec.eq_of_toNat_eq ?_
  simp
  omega

theorem prehashInv_first (index height : BitVec 32) :
    PrehashInv (prehashBlock portable (prehashStart portable index height))
      (blake2bCompressPairDev portable (prehashInitPair portable)
        (prehashBlock0Message (bswap32Dev portable index) (bswap32Dev portable height)) 128 false)
      0 where
  h := by
    rw [blake2bCompressPairDev_join, map_prehashInitPair]
    simp only [prehashBlock, prehashStart]
    congr 1
    funext i
    rw [Function.comp_apply, prehashBlock0Message]
    split
    · exact (packBe32PairAsBlakeWord_eq portable index height).symm
    · exact (bswap64Dev_item portable (by omega)).symm
  m := by
    rw [← prehashPadMessage_eq portable (by decide)]
    rfl
  ctr := rfl
  total := rfl

theorem PrehashInv.next {s : PrehashState} {h : Vector Blake2bPair 8} {n : ℕ}
    (hinv : PrehashInv s h n) (hn : n + 1 < 64) :
    PrehashInv (prehashBlock portable s) (prehashPadBlock portable h (n + 1)) (n + 1) where
  h := by
    have hcount : ((BitVec.ofNat 32 (n + 1) + 1) * 128).setWidth 64 = s.total + 128 := by
      rw [hinv.total]
      refine BitVec.eq_of_toNat_eq ?_
      simp
      omega
    rw [prehashPadBlock, blake2bCompressPairDev_join, hinv.h, ← hinv.m, hcount]
    rfl
  m := by
    rw [← prehashPadMessage_eq portable hn]
    simp only [prehashBlock, hinv.ctr]
    rfl
  ctr := by
    simp only [prehashBlock, hinv.ctr]
    refine BitVec.eq_of_toNat_eq ?_
    simp
    omega
  total := by
    simp only [prehashBlock, hinv.total]
    refine BitVec.eq_of_toNat_eq ?_
    simp
    omega

theorem prehashInv_iterate (index height : BitVec 32) {n : ℕ} (hn : n < 64) :
    PrehashInv ((prehashBlock portable)^[n + 1] (prehashStart portable index height))
      ((List.range' 1 n).foldl (prehashPadBlock portable)
        (blake2bCompressPairDev portable (prehashInitPair portable)
          (prehashBlock0Message (bswap32Dev portable index) (bswap32Dev portable height)) 128
          false)) n := by
  induction n with
  | zero => exact prehashInv_first portable index height
  | succ n ih =>
    rw [Function.iterate_succ_apply', List.range'_concat, List.foldl_append]
    have hnext := (ih (by omega)).next portable hn
    rwa [Nat.one_mul, Nat.add_comm 1 n]

theorem digestOfPairs_eq (h : Vector Blake2bPair 8) :
    digestOfPairs h = blake2b256OutputDev (h.map b2Join) := by
  refine Vector.ext fun i hi => ?_
  simp only [digestOfPairs, blake2b256OutputDev, Vector.getElem_ofFn, Vector.getElem_map]
  congr 1
  refine BitVec.eq_of_getLsbD_eq fun j hj => ?_
  rw [BitVec.getLsbD_setWidth, BitVec.getLsbD_ushiftRight, Equihash.getLsbD_b2Join]
  split
  · rename_i hbyte
    rw [BitVec.getLsbD_setWidth, BitVec.getLsbD_ushiftRight, if_pos (by omega), Nat.mul_comm]
  · rename_i hbyte
    rw [BitVec.getLsbD_setWidth, BitVec.getLsbD_ushiftRight, if_neg (by omega),
      show 8 * (i % 8) + j - 32 = (i % 8 - 4) * 8 + j by omega]
    simp [show 8 * (i % 8) + j < 64 by omega]

/-- **The row digest on pairs is the reference digest.** -/
theorem autolykosPrehashDigestFastDev_eq (index height : BitVec 32) :
    autolykosPrehashDigestFastDev portable index height =
      autolykosPrehashDigestDev portable index height := by
  have hinv := prehashInv_iterate portable index height (n := 63) (by decide)
  have hfinal : b2Join ∘ prehashFinalMessage = fun i : Fin 16 =>
      if i = 0 then bswap64Dev portable (BitVec.ofNat 64 (constMesSize / 8 - 1)) else 0 := by
    funext i
    rw [Function.comp_apply, prehashFinalMessage]
    split
    · exact (bswap64Dev_item portable (by decide)).symm
    · rfl
  have htotal : (BitVec.ofNat 32 (constMesSize + 8)).setWidth 64 =
      ((prehashBlock portable)^[64] (prehashStart portable index height)).total + 8 := by
    rw [hinv.total]
    rfl
  unfold autolykosPrehashDigestFastDev autolykosPrehashDigestDev
  rw [digestOfPairs_eq, blake2bCompressPairDev_join, hinv.h, hfinal, htotal]

end Prehash

end MoMiner.Autolykos2
