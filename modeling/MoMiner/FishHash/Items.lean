import MoMiner.Equihash.Hash
import MoMiner.Lib.Stores

/-!
# Items of the dataset

An item is two halves of eight words, each made from the light cache: a Keccak digest, 512 mixes
with cache entries, a Keccak digest. The full dataset is filled in chunks by a kernel with one lane
an item.

Main result: `EnsureDag.item`.
-/

namespace MoMiner.FishHash

open Equihash (Blake2bPair b2Join b2Pair)

/-! ## Keccak -/

def rotl64Dev (v : BitVec 64) (s : ℕ) : BitVec 64 := (v <<< s) ||| (v >>> (64 - s))

def rndc : List (BitVec 64) :=
  [0x0000000000000001, 0x0000000000008082, 0x800000000000808a, 0x8000000080008000,
   0x000000000000808b, 0x0000000080000001, 0x8000000080008081, 0x8000000000008009,
   0x000000000000008a, 0x0000000000000088, 0x0000000080008009, 0x000000008000000a,
   0x000000008000808b, 0x800000000000008b, 0x8000000000008089, 0x8000000000008003,
   0x8000000000008002, 0x8000000000000080, 0x000000000000800a, 0x800000008000000a,
   0x8000000080008081, 0x8000000000008080, 0x0000000080000001, 0x8000000080008008]

def rotc : List ℕ :=
  [1, 3, 6, 10, 15, 21, 28, 36, 45, 55, 2, 14, 27, 41, 56, 8, 25, 43, 62, 18, 39, 61, 20, 44]

local instance itemLaneNeZero : NeZero 25 := ⟨Nat.succ_ne_zero 24⟩

def piln : List (Fin 25) :=
  [10, 7, 11, 17, 18, 3, 5, 16, 8, 21, 24, 4, 15, 23, 19, 13, 12, 2, 20, 14, 22, 9, 6, 1]

/-- A round of `keccakf1600_dev`. -/
def keccakRound (st : Vector (BitVec 64) 25) (constant : BitVec 64) : Vector (BitVec 64) 25 :=
  let bc : Vector (BitVec 64) 5 := .ofFn fun i =>
    st[i.val] ^^^ st[i.val + 5] ^^^ st[i.val + 10] ^^^ st[i.val + 15] ^^^ st[i.val + 20]
  let st : Vector (BitVec 64) 25 := .ofFn fun k =>
    st[k] ^^^ (bc[(k.val % 5 + 4) % 5] ^^^ rotl64Dev bc[(k.val % 5 + 1) % 5] 1)
  let st := ((piln.zip rotc).foldl (fun (s : Vector (BitVec 64) 25 × BitVec 64) p =>
    (s.1.set p.1 (rotl64Dev s.2 p.2), s.1[p.1])) (st, st[1])).1
  let st : Vector (BitVec 64) 25 := .ofFn fun k =>
    let row := k.val / 5 * 5
    st[k] ^^^ (~~~ st[row + (k.val % 5 + 1) % 5] &&& st[row + (k.val % 5 + 2) % 5])
  st.set 0 (st[0] ^^^ constant)

def keccakf1600Dev (st : Vector (BitVec 64) 25) : Vector (BitVec 64) 25 := rndc.foldl keccakRound st

def load32LeDev (bytes : ℕ → UInt8) (p : ℕ) : BitVec 32 :=
  (bytes p).toBitVec.setWidth 32 ||| (bytes (p + 1)).toBitVec.setWidth 32 <<< 8 |||
    (bytes (p + 2)).toBitVec.setWidth 32 <<< 16 ||| (bytes (p + 3)).toBitVec.setWidth 32 <<< 24

def load64LeDev (bytes : ℕ → UInt8) (p : ℕ) : BitVec 64 :=
  b2Join ⟨load32LeDev bytes p, load32LeDev bytes (p + 4)⟩

/-- One padded block, of at most 71 bytes here. -/
def keccak512Dev (input : List UInt8) : Vector (BitVec 64) 8 :=
  let buf : ℕ → UInt8 := fun i => input.getD i 0
  let buf := Function.update buf input.length 0x01
  let buf := Function.update buf 71 (buf 71 ||| 0x80)
  let st := keccakf1600Dev (.ofFn fun i => if i.val < 9 then load64LeDev buf (i.val * 8) else 0)
  .ofFn fun i => st[i.val]

def keccak512WordsDev (io : Vector (BitVec 64) 8) : Vector (BitVec 64) 8 :=
  keccak512Dev (io.toList.flatMap fun (word : BitVec 64) =>
    (List.range 8).map fun b => UInt8.ofBitVec ((word >>> (8 * b)).setWidth 8))

/-! ## Items -/

def lightCacheNumItems : ℕ := 1179641

def fullDatasetNumItems : ℕ := 37748717

def fullDatasetItemParents : ℕ := 512

def fnv1Dev (u v : BitVec 32) : BitVec 32 := (u * 0x01000193) ^^^ v

section Item

variable (cache : ℕ → BitVec 64)

/-- A mix with a cache entry. -/
def fishItemRound (index : BitVec 32) (mix : Vector (BitVec 64) 8) (round : ℕ) :
    Vector (BitVec 64) 8 :=
  let w : Fin 16 := ⟨round % 16, Nat.mod_lt _ (by decide)⟩
  let mw := if w.val % 2 = 1 then (b2Pair mix[w.val / 2]).hi else (b2Pair mix[w.val / 2]).lo
  let t := fnv1Dev (index ^^^ BitVec.ofNat 32 round) mw
  let parent := t.toNat % lightCacheNumItems
  .ofFn fun k =>
    b2Join ⟨fnv1Dev (b2Pair (mix.get k)).lo (b2Pair (cache (parent * 8 + k))).lo,
      fnv1Dev (b2Pair (mix.get k)).hi (b2Pair (cache (parent * 8 + k))).hi⟩

theorem firstWord_lt : 0 < 8 := by decide

def fishItemHalf (index : BitVec 32) : Vector (BitVec 64) 8 :=
  have := firstWord_lt
  let mix : Vector (BitVec 64) 8 := .ofFn fun i =>
    cache (index.toNat % lightCacheNumItems * 8 + i)
  let mix := keccak512WordsDev (mix.set 0 (mix[0] ^^^ index.setWidth 64))
  keccak512WordsDev ((List.range fullDatasetItemParents).foldl (fishItemRound cache index) mix)

def fishDatasetItem (index : BitVec 32) : Vector (BitVec 64) 16 :=
  fishItemHalf cache (index * 2) ++ fishItemHalf cache (index * 2 + 1)

/-! ## The full dataset -/

/-- The stores of the lanes of a chunk. -/
def dagGenStores (start count : ℕ) : List (ℕ × BitVec 64) :=
  ((List.range ((count + 63) / 64 * 64)).filter (· < count)).flatMap fun i =>
    List.ofFn fun k : Fin 16 =>
      ((start + i) * 16 + k.val, (fishDatasetItem cache (BitVec.ofNat 32 (start + i))).get k)

def chunk : ℕ := 2 ^ 21

/-- The starts and sizes of the chunks. -/
def dagChunks : List (ℕ × ℕ) :=
  (List.range ((fullDatasetNumItems + chunk - 1) / chunk)).map fun c =>
    (c * chunk, min chunk (fullDatasetNumItems - c * chunk))

/-- What `ensure_dag` leaves in the buffer, whatever it holds at first. -/
def EnsureDag (dag : ℕ → BitVec 64) : Prop :=
  ∃ mem, Stores.Phases (dagChunks.map fun c => dagGenStores cache c.1 c.2) mem dag

theorem EnsureDag.exists : ∃ dag, EnsureDag cache dag := by
  obtain ⟨dag, h⟩ := Stores.Phases.exists
    (dagChunks.map fun c => dagGenStores cache c.1 c.2) fun _ => 0
  exact ⟨dag, _, h⟩

/-- The word of a cell of the dataset. -/
def dagWord (cell : ℕ) : BitVec 64 :=
  (fishDatasetItem cache (BitVec.ofNat 32 (cell / 16)))[cell % 16]

theorem mem_dagGenStores {start count : ℕ} {p : ℕ × BitVec 64} :
    p ∈ dagGenStores cache start count ↔
      ∃ i < count, ∃ k : Fin 16,
        p = ((start + i) * 16 + k.val, dagWord cache ((start + i) * 16 + k)) := by
  have hword (i : ℕ) (k : Fin 16) : dagWord cache ((start + i) * 16 + k) =
      (fishDatasetItem cache (BitVec.ofNat 32 (start + i)))[k] := by
    have hk := k.isLt
    have hdiv : ((start + i) * 16 + k.val) / 16 = start + i := by omega
    have hmod : ((start + i) * 16 + k.val) % 16 = k.val := by omega
    simp only [dagWord, hdiv, hmod]
    rfl
  simp only [dagGenStores, List.mem_flatMap, List.mem_filter, List.mem_range, List.mem_ofFn,
    decide_eq_true_eq, hword]
  constructor
  · rintro ⟨i, ⟨-, hi⟩, k, rfl⟩
    exact ⟨i, hi, k, rfl⟩
  · rintro ⟨i, hi, k, rfl⟩
    exact ⟨i, ⟨by omega, hi⟩, k, rfl⟩

/-- **The dataset holds every item**, word by word. -/
theorem EnsureDag.item {dag : ℕ → BitVec 64} (h : EnsureDag cache dag) {index : ℕ}
    (hindex : index < fullDatasetNumItems) (k : Fin 16) :
    dag (index * 16 + k) = (fishDatasetItem cache (BitVec.ofNat 32 index)).get k := by
  obtain ⟨mem, h⟩ := h
  have hword : dagWord cache (index * 16 + k) =
      (fishDatasetItem cache (BitVec.ofNat 32 index))[k] := by
    have hk := k.isLt
    have hdiv : (index * 16 + k.val) / 16 = index := by omega
    have hmod : (index * 16 + k.val) % 16 = k.val := by omega
    simp only [dagWord, hdiv, hmod]
    rfl
  refine Eq.trans (b := dagWord cache (index * 16 + k)) ?_ hword
  refine h.get (fun stores hstores p hp => ?_) (.inr ?_)
  · obtain ⟨c, -, rfl⟩ := List.mem_map.mp hstores
    obtain ⟨i, -, k', rfl⟩ := (mem_dagGenStores cache).mp hp
    rfl
  · -- The chunk of the item, and its place there.
    have hlt : index / chunk < (fullDatasetNumItems + chunk - 1) / chunk := by
      simp only [chunk, fullDatasetNumItems] at hindex ⊢
      omega
    have hplace : index % chunk < min chunk (fullDatasetNumItems - index / chunk * chunk) := by
      simp only [chunk, fullDatasetNumItems] at hindex ⊢
      omega
    have hcell : (index * 16 + k.val, dagWord cache (index * 16 + k)) ∈ dagGenStores cache
        (index / chunk * chunk) (min chunk (fullDatasetNumItems - index / chunk * chunk)) := by
      refine (mem_dagGenStores cache).mpr ⟨index % chunk, hplace, k, ?_⟩
      rw [Nat.div_add_mod']
    exact ⟨_, List.mem_map.mpr ⟨_, List.mem_map.mpr ⟨index / chunk, List.mem_range.mpr hlt, rfl⟩,
      rfl⟩, _, hcell⟩

end Item

end MoMiner.FishHash
