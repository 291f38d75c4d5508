import MoMiner.FishHash.Items
import MoMiner.Lib.Bytes
import MoMiner.Lib.Lanes

/-!
# The scalar search

One lane a nonce: a seed from the header, 32 rounds of three items each, a fold of the mix, a final
hash. Items come from the full dataset or, in the lazy kernel, from the light cache.

**Variants.** FishHash and KarlsenHashV2 differ in the header, the seed, the indexes of a round and
the input of the final hash (`Variant`). BLAKE3 is a parameter.

Main results: `scalarRound_pair` and `scalarLaunch_eq`.
-/

namespace MoMiner.FishHash

open Equihash (Blake2bPair b2Join b2Pair)

/-! ## The mix -/

abbrev Mix := ℕ → BitVec 32

/-- The items of a round. -/
structure Indices where
  p0 : BitVec 32
  p1 : BitVec 32
  p2 : BitVec 32

/-- The new element of the mix, from the words of three items. -/
def mixElement (f0 f1 f2 : BitVec 64) (m : Blake2bPair) : BitVec 64 :=
  let b := b2Join ⟨fnv1Dev m.lo (b2Pair f1).lo, fnv1Dev m.hi (b2Pair f1).hi⟩
  let c := b2Join ⟨m.lo ^^^ (b2Pair f2).lo, m.hi ^^^ (b2Pair f2).hi⟩
  f0 * b + c

def pairAt (mix : Mix) (j : ℕ) : Blake2bPair := ⟨mix (2 * j), mix (2 * j + 1)⟩

def foldElement (f0 f1 f2 : ℕ → BitVec 64) (mix : Mix) (j : ℕ) : Mix :=
  let v := mixElement (f0 j) (f1 j) (f2 j) (pairAt mix j)
  Function.update (Function.update mix (2 * j) (b2Pair v).lo) (2 * j + 1) (b2Pair v).hi

def scalarRound (item : BitVec 32 → ℕ → BitVec 64) (p : Indices) (mix : Mix) : Mix :=
  (List.range 16).foldl (foldElement (item p.p0) (item p.p1) (item p.p2)) mix

theorem foldElement_self (f0 f1 f2 : ℕ → BitVec 64) (mix : Mix) (j : ℕ) :
    pairAt (foldElement f0 f1 f2 mix j) j =
      b2Pair (mixElement (f0 j) (f1 j) (f2 j) (pairAt mix j)) := by
  rw [pairAt, foldElement, Function.update_self, Function.update_of_ne (by omega),
    Function.update_self]

theorem foldElement_of_ne (f0 f1 f2 : ℕ → BitVec 64) (mix : Mix) {i j : ℕ} (h : i ≠ j) :
    pairAt (foldElement f0 f1 f2 mix j) i = pairAt mix i := by
  simp only [pairAt, foldElement]
  rw [Function.update_of_ne (by omega), Function.update_of_ne (by omega),
    Function.update_of_ne (by omega), Function.update_of_ne (by omega)]

/-- **A round changes every element on its own.** -/
theorem scalarRound_pair (item : BitVec 32 → ℕ → BitVec 64) (p : Indices) (mix : Mix) {j : ℕ}
    (hj : j < 16) : pairAt (scalarRound item p mix) j =
      b2Pair (mixElement (item p.p0 j) (item p.p1 j) (item p.p2 j) (pairAt mix j)) := by
  have h : ∀ t, pairAt ((List.range t).foldl
      (foldElement (item p.p0) (item p.p1) (item p.p2)) mix) j =
        if j < t then b2Pair (mixElement (item p.p0 j) (item p.p1 j) (item p.p2 j) (pairAt mix j))
        else pairAt mix j := by
    intro t
    induction t with
    | zero => rfl
    | succ t ih =>
      rw [List.range_succ, List.foldl_append, List.foldl_cons, List.foldl_nil]
      rcases lt_trichotomy j t with hlt | rfl | hgt
      · rw [foldElement_of_ne _ _ _ _ hlt.ne, ih, if_pos hlt, if_pos (by omega)]
      · rw [foldElement_self, ih, if_neg (lt_irrefl _), if_pos (by omega)]
      · rw [foldElement_of_ne _ _ _ _ hgt.ne', ih, if_neg (by omega), if_neg (by omega)]
  rw [scalarRound, h, if_pos hj]

def byteOf (v : BitVec 32) (b : ℕ) : UInt8 := UInt8.ofBitVec ((v >>> (8 * b)).setWidth 8)

/-- Four words of the mix in one. -/
def collapse (mix : Mix) (c : ℕ) : BitVec 32 :=
  fnv1Dev (fnv1Dev (fnv1Dev (mix (4 * c)) (mix (4 * c + 1))) (mix (4 * c + 2))) (mix (4 * c + 3))

/-- The bytes of the folded mix, as `store32_le_dev` writes them. -/
def mixHash (mix : Mix) (i : ℕ) : UInt8 := byteOf (collapse mix (i / 4)) (i % 4)

/-! ## The header -/

def nonceByte (bigEndian : Bool) (nonce : BitVec 64) (i : ℕ) : UInt8 :=
  UInt8.ofBitVec ((nonce >>> (8 * if bigEndian then 7 - i else i)).setWidth 8)

/-- The bytes of a buffer. -/
def bytesAt (mem : ℕ → UInt8) (start length : ℕ) : List UInt8 :=
  (List.range length).map fun i => mem (start + i)

/-- The nonce is written over the copied header. -/
def header (nonceOff : ℕ) (bigEndian : Bool) (input : List UInt8) (nonce : BitVec 64) : ℕ → UInt8 :=
  Stores.writes (nonceOff + ·) (nonceByte bigEndian nonce) (fun i => input.getD i 0) (List.range 8)

theorem header_eq (nonceOff : ℕ) (bigEndian : Bool) (input : List UInt8) (nonce : BitVec 64)
    (i : ℕ) : header nonceOff bigEndian input nonce i =
      if nonceOff ≤ i ∧ i < nonceOff + 8 then nonceByte bigEndian nonce (i - nonceOff)
      else input.getD i 0 := by
  split
  · rename_i h
    have hkey := Stores.writes_key (nonceOff + ·) (nonceByte bigEndian nonce)
      (fun i => input.getD i 0) (i := i - nonceOff)
      (List.mem_range.mpr (show _ < 8 by omega)) fun j _ hj => Nat.add_left_cancel hj
    rwa [Nat.add_sub_cancel' h.1] at hkey
  · rename_i h
    exact Stores.writes_of_notMem fun j hj hkey => h (by
      have := List.mem_range.mp hj
      omega)

/-! ## Variants -/

abbrev Hash := Vector UInt8 32

def meetsTargetLeDev (output target : Hash) : Bool :=
  Bytes.leAt output target (List.finRange 32).reverse

def meetsTargetBeDev (output target : Hash) : Bool := Bytes.leAt output target (List.finRange 32)

/-- What a search algorithm has of its own. -/
structure Variant where
  hlen : ℕ
  nonceOff : ℕ
  nonceBe : Bool
  targetBe : Bool
  /-- The 64 bytes of the seed, from the bytes of the header. -/
  seed : List UInt8 → ℕ → UInt8
  startMix : List UInt8 → Mix
  indices : ℕ → Mix → Indices
  /-- How much of the seed goes before the folded mix, into the final hash. -/
  seedPart : ℕ
  hlen_le : hlen ≤ 180
  nonce_le : nonceOff + 8 ≤ hlen
  seedPart_le : seedPart ≤ 64
  indices_lt : ∀ round mix, ((indices round mix).p0.toNat < fullDatasetNumItems ∧
    (indices round mix).p1.toNat < fullDatasetNumItems) ∧
      (indices round mix).p2.toNat < fullDatasetNumItems
  /-- The mix starts as the seed, twice. -/
  startMix_eq : ∀ header, ∀ i < 32, startMix header i = load32LeDev (seed header) (4 * (i % 16))

section Variants

variable (blake3 : ℕ → List UInt8 → ℕ → UInt8)

def modItems (x : BitVec 32) : BitVec 32 := x % BitVec.ofNat 32 fullDatasetNumItems

theorem modItems_lt (x : BitVec 32) : (modItems x).toNat < fullDatasetNumItems := by
  rw [modItems, BitVec.toNat_umod]
  exact Nat.mod_lt _ (by decide)

def fishIndices (_ : ℕ) (mix : Mix) : Indices :=
  ⟨modItems (mix 0), modItems (mix 4), modItems (mix 8)⟩

def fishStartMix (header : List UInt8) : Mix := fun i =>
  if i < 16 then load32LeDev (blake3 64 header) (4 * i)
  else load32LeDev (blake3 64 header) (4 * (i - 16))

theorem fishStartMix_eq (header : List UInt8) (i : ℕ) (hi : i < 32) :
    fishStartMix blake3 header i = load32LeDev (blake3 64 header) (4 * (i % 16)) := by
  rw [fishStartMix]
  split
  · rw [Nat.mod_eq_of_lt (by omega)]
  · rw [show i % 16 = i - 16 by omega]

/-- FishHash over the offline header. -/
def fishOffline : Variant where
  hlen := 40
  nonceOff := 32
  nonceBe := false
  targetBe := false
  seed := blake3 64
  startMix := fishStartMix blake3
  indices := fishIndices
  seedPart := 64
  hlen_le := by decide
  nonce_le := by decide
  seedPart_le := by decide
  indices_lt := fun _ _ => ⟨⟨modItems_lt _, modItems_lt _⟩, modItems_lt _⟩
  startMix_eq := fishStartMix_eq blake3

/-- FishHash over the Iron Fish header. -/
def fishIron : Variant where
  hlen := 180
  nonceOff := 172
  nonceBe := true
  targetBe := true
  seed := blake3 64
  startMix := fishStartMix blake3
  indices := fishIndices
  seedPart := 64
  hlen_le := by decide
  nonce_le := by decide
  seedPart_le := by decide
  indices_lt := fun _ _ => ⟨⟨modItems_lt _, modItems_lt _⟩, modItems_lt _⟩
  startMix_eq := fishStartMix_eq blake3

def karlsenGroup (mix : Mix) (c : ℕ) : BitVec 32 :=
  mix (4 * c) ^^^ mix (4 * c + 1) ^^^ mix (4 * c + 2) ^^^ mix (4 * c + 3)

def karlsenIndices (round : ℕ) (mix : Mix) : Indices :=
  let mg := karlsenGroup mix
  ⟨modItems (mg 0 ^^^ mg 3 ^^^ mg 6), modItems (mg 1 ^^^ mg 4 ^^^ mg 7),
    modItems (mg 2 ^^^ mg 5 ^^^ BitVec.ofNat 32 round)⟩

/-- The hash of the header and 32 zeros. -/
def karlsenSeed (header : List UInt8) (i : ℕ) : UInt8 := if i < 32 then blake3 32 header i else 0

def karlsenStartMix (header : List UInt8) : Mix := fun i =>
  let half := if i < 16 then i else i - 16
  if half < 8 then load32LeDev (blake3 32 header) (4 * half) else 0

theorem karlsenStartMix_eq (header : List UInt8) (i : ℕ) (hi : i < 32) :
    karlsenStartMix blake3 header i = load32LeDev (karlsenSeed blake3 header) (4 * (i % 16)) := by
  have hhalf : (if i < 16 then i else i - 16) = i % 16 := by
    split <;> omega
  simp only [karlsenStartMix, hhalf, load32LeDev, karlsenSeed]
  by_cases h : i % 16 < 8
  · rw [if_pos h, if_pos (by omega), if_pos (by omega), if_pos (by omega), if_pos (by omega)]
  · rw [if_neg h, if_neg (by omega), if_neg (by omega), if_neg (by omega), if_neg (by omega)]
    rfl

def karlsenV2 : Variant where
  hlen := 80
  nonceOff := 72
  nonceBe := false
  targetBe := false
  seed := karlsenSeed blake3
  startMix := karlsenStartMix blake3
  indices := karlsenIndices
  seedPart := 0
  hlen_le := by decide
  nonce_le := by decide
  seedPart_le := by decide
  indices_lt := fun _ _ => ⟨⟨modItems_lt _, modItems_lt _⟩, modItems_lt _⟩
  startMix_eq := karlsenStartMix_eq blake3

/-! ## A nonce -/

variable (v : Variant) (item : BitVec 32 → ℕ → BitVec 64) (input : List UInt8)

def headerBytes (nonce : BitVec 64) : List UInt8 :=
  bytesAt (header v.nonceOff v.nonceBe input nonce) 0 v.hlen

def searchRound (mix : Mix) (round : ℕ) : Mix := scalarRound item (v.indices round mix) mix

/-- `NUM_DATASET_ACCESSES` -/
def numDatasetAccesses : ℕ := 32

def finalMix (nonce : BitVec 64) (rounds : ℕ) : Mix :=
  (List.range rounds).foldl (searchRound v item) (v.startMix (headerBytes v input nonce))

def finalData (nonce : BitVec 64) : List UInt8 :=
  (List.range v.seedPart).map (v.seed (headerBytes v input nonce)) ++
    (List.range 32).map (mixHash (finalMix v item input nonce numDatasetAccesses))

def finalHash (data : List UInt8) : Hash := .ofFn fun i => blake3 32 data i

def scalarHash (nonce : BitVec 64) : Hash := finalHash blake3 (finalData v item input nonce)

/-- What a launch does with a nonce: its hash, and whether it is stored as a result. -/
structure Evaluation where
  gid : ℕ
  nonce : BitVec 64
  hash : Hash
  stored : Bool

def nonceAt (start : BitVec 64) (gid : ℕ) : BitVec 64 := start + BitVec.ofNat 64 gid

def evaluation (isTest : Bool) (target : Hash) (start : BitVec 64) (gid : ℕ) (hash : Hash) :
    Evaluation :=
  let hit := if v.targetBe then meetsTargetBeDev hash target else meetsTargetLeDev hash target
  ⟨gid, nonceAt start gid, hash, isTest && gid == 0 || hit⟩

/-- The lanes of the scalar kernel, `WG` of them a workgroup. -/
def scalarLaunch (isTest : Bool) (target : Hash) (start : BitVec 64) (intensity : ℕ) :
    List Evaluation :=
  ((List.range ((intensity + 127) / 128 * 128)).filter (· < intensity)).map fun gid =>
    evaluation v isTest target start gid (scalarHash blake3 v item input (nonceAt start gid))

/-- The items of the lazy kernel. -/
def lazyItem (cache : ℕ → BitVec 64) (p : BitVec 32) (j : ℕ) : BitVec 64 :=
  (fishDatasetItem cache p).toList.getD j 0

/-- The items of the kernel over the full dataset. -/
def fullItem (dag : ℕ → BitVec 64) (p : BitVec 32) (j : ℕ) : BitVec 64 := dag (p.toNat * 16 + j)

theorem scalarRound_congr {item item' : BitVec 32 → ℕ → BitVec 64} {p : Indices}
    (h : ∀ j < 16, (item p.p0 j = item' p.p0 j ∧ item p.p1 j = item' p.p1 j) ∧
      item p.p2 j = item' p.p2 j) (mix : Mix) : scalarRound item p mix = scalarRound item' p mix := by
  refine List.foldl_ext _ _ _ fun mix j hj => ?_
  obtain ⟨⟨h0, h1⟩, h2⟩ := h j (List.mem_range.mp hj)
  rw [foldElement, foldElement, h0, h1, h2]

/-- Kernels over the same items below the size of the dataset. -/
theorem scalarHash_congr {item item' : BitVec 32 → ℕ → BitVec 64}
    (h : ∀ p : BitVec 32, p.toNat < fullDatasetNumItems → ∀ j < 16, item p j = item' p j)
    (nonce : BitVec 64) :
    scalarHash blake3 v item input nonce = scalarHash blake3 v item' input nonce := by
  have hmix : finalMix v item input nonce numDatasetAccesses =
      finalMix v item' input nonce numDatasetAccesses := by
    refine List.foldl_ext _ _ _ fun mix round _ => scalarRound_congr (fun j hj => ?_) mix
    obtain ⟨⟨h0, h1⟩, h2⟩ := v.indices_lt round mix
    exact ⟨⟨h _ h0 j hj, h _ h1 j hj⟩, h _ h2 j hj⟩
  rw [scalarHash, scalarHash, finalData, finalData, hmix]

theorem fullItem_eq {cache dag : ℕ → BitVec 64} (h : EnsureDag cache dag) {p : BitVec 32}
    (hp : p.toNat < fullDatasetNumItems) {j : ℕ} (hj : j < 16) :
    fullItem dag p j = lazyItem cache p j := by
  have hitem := h.item cache hp ⟨j, hj⟩
  have hindex : BitVec.ofNat 32 p.toNat = p := by simp
  rw [hindex] at hitem
  rw [fullItem, lazyItem]
  refine hitem.trans ?_
  rw [List.getD_eq_getElem _ _ (by simpa using hj)]
  rfl

/-- **Every nonce of a launch once**, in the order of the global ids. -/
theorem scalarLaunch_eq (isTest : Bool) (target : Hash) (start : BitVec 64) (intensity : ℕ) :
    scalarLaunch blake3 v item input isTest target start intensity =
      (List.range intensity).map fun gid =>
        evaluation v isTest target start gid (scalarHash blake3 v item input (nonceAt start gid)) := by
  rw [scalarLaunch, filter_lt_range (by omega)]

end Variants

end MoMiner.FishHash
