import MoMiner.Lib.Fragments
import MoMiner.Lib.Stores
import MoMiner.WalaHash.Fused

/-!
# The ESIMD tiles

Three kernels on one in-order queue: hashes of the nonces and tiles of 16 vectors of nibbles; the
products, folded into the hashes; the last hash.

- A band of 8 rows of the matrix is two fragments, each with 32 columns (`tiledCell`).
- A tile has the nibbles of 16 hashes, packed by fours (`vectorCell`).
- `mixed` has a row for each byte, as long as the capacity.

The last tile has lanes without a nonce. They read what the buffers held before and write next to
the nonces.

Main result: `EsimdRun.hash_eq`.
-/

namespace MoMiner.WalaHash

open Fragments (dpas8x16x32)
open Pearl (Cv Block CvBytes)

/-- A byte of a buffer as `int8_t`. -/
def int8 (b : UInt8) : ℤ := b.toBitVec.toInt

theorem int8_eq {b : UInt8} (hb : b.toNat < 16) : int8 b = b.toNat := by
  rw [int8, BitVec.toInt_eq_toNat_of_lt]
  · rfl
  · rw [UInt8.toNat_toBitVec]
    omega

/-! ## Layouts -/

def tiledCell (r k : ℕ) : ℕ := (r / 8 * 2 + k / 32) * 256 + r % 8 * 32 + k % 32

/-- The loop that lays out the matrix. -/
def tiled (matrix : ℕ → UInt8) : ℕ → UInt8 :=
  Stores.writes (fun i => tiledCell (i / 64) (i % 64)) matrix (fun _ => 0) (List.range 4096)

/-- **The tiled matrix** has every entry. -/
theorem tiled_cell (m : NibbleMatrix) {r k : ℕ} (hr : r < 64) (hk : k < 64) :
    tiled (rowMajor m) (tiledCell r k) = m.entry r k := by
  have hrow : (r * 64 + k) / 64 = r := by omega
  have hcol : (r * 64 + k) % 64 = k := by omega
  have hkey := Stores.writes_key (fun i => tiledCell (i / 64) (i % 64)) (rowMajor m)
    (fun _ => 0) (i := r * 64 + k) (List.mem_range.mpr (show _ < 4096 by omega))
    fun j _ h => by
      simp only [tiledCell] at h
      omega
  simp only [hrow, hcol, rowMajor] at hkey
  exact hkey

/-- The nibble of a hash on words. -/
def wordNibble (pow : Cv) (k : ℕ) : UInt8 :=
  let byte := ((if h : k / 8 < 8 then pow[k / 8] else 0) >>> UInt32.ofNat (8 * (k / 2 % 4))).toUInt8
  if k % 2 = 1 then byte &&& 15 else byte >>> 4

theorem wordNibble_eq (pow : Cv) {k : ℕ} (hk : k < 64) :
    wordNibble pow k = hashNibble (byteAt (Pearl.cvToBytes pow)) k := by
  have hbyte : byteAt (Pearl.cvToBytes pow) (k / 2) =
      (pow[k / 8] >>> UInt32.ofNat (8 * (k / 2 % 4))).toUInt8 := by
    have hdiv : k / 2 / 4 = k / 8 := by omega
    rw [byteAt, dif_pos (by omega), Pearl.cvToBytes, Vector.getElem_ofFn]
    simp only [hdiv]
  simp only [wordNibble, hashNibble, hbyte, dif_pos (show k / 8 < 8 by omega)]

def vectorCell (gid k : ℕ) : ℕ := gid / 16 * 1024 + k / 4 * 64 + gid % 16 * 4 + k % 4

/-! ## The kernels -/

/-- The buffers that the staged kernels use. -/
structure Buffers where
  hashes : ℕ → UInt8
  vectors : ℕ → UInt8
  mixed : ℕ → UInt8

section Kernels

variable (compress : Cv → Block → UInt64 → UInt32 → UInt32 → Block) (sha3 : CvBytes → CvBytes)
variable (header : Header) (first : UInt64)

def nonceOf (first : UInt64) (gid : ℕ) : UInt64 := first + UInt64.ofNat gid

/-- The words of a hash before the matrix stage. -/
def stagedWords (gid : ℕ) : Cv :=
  powWords compress sha3 (b3FirstBlockCv compress header) header (nonceOf first gid)

def hashStores (gid : ℕ) : List (ℕ × UInt8) :=
  (List.range 32).map fun i =>
    (gid * 32 + i, byteAt (Pearl.cvToBytes (stagedWords compress sha3 header first gid)) i)

def vectorStores (gid : ℕ) : List (ℕ × UInt8) :=
  (List.range 64).map fun k =>
    (vectorCell gid k, wordNibble (stagedWords compress sha3 header first gid) k)

/-- The accumulator of a band, after both chunks. -/
def bandAcc (wide : Bool) (matrix vectors : ℕ → UInt8) (tile band : ℕ) : ℕ → ℤ :=
  (List.range 2).foldl (fun acc chunk =>
    dpas8x16x32 wide acc (fun i => int8 (vectors (tile * 1024 + chunk * 512 + i)))
      (fun i => int8 (matrix ((band * 2 + chunk) * 256 + i)))) fun _ => 0

def multiplyStores (wide : Bool) (matrix : ℕ → UInt8) (stride : ℕ) (hashes vectors : ℕ → UInt8)
    (tile : ℕ) : List (ℕ × UInt8) :=
  (List.range 8).flatMap fun band => (List.range 4).flatMap fun pair => (List.range 16).map fun l =>
    let acc := bandAcc wide matrix vectors tile band
    let byte := band * 4 + pair
    (byte * stride + tile * 16 + l,
      hashes (tile * 512 + byte + 32 * l) ^^^ foldPair (acc (pair * 32 + l)) (acc (pair * 32 + 16 + l)))

/-- A run of the kernels before the last one. -/
structure EsimdRun (wide : Bool) (matrix : ℕ → UInt8) (capacity count : ℕ)
    (mem mem' : Buffers) : Prop where
  hashes : Stores.Phase ((List.range count).flatMap (hashStores compress sha3 header first))
    mem.hashes mem'.hashes
  vectors : Stores.Phase ((List.range count).flatMap (vectorStores compress sha3 header first))
    mem.vectors mem'.vectors
  mixed : Stores.Phase ((List.range ((count + 15) / 16)).flatMap
    (multiplyStores wide matrix capacity mem'.hashes mem'.vectors)) mem.mixed mem'.mixed

/-- The last kernel. -/
def esimdHash (capacity : ℕ) (mixed : ℕ → UInt8) (gid : ℕ) : CvBytes :=
  finalWords compress (.ofFn fun i => mixed (i.val * capacity + gid))

theorem EsimdRun.exists (wide : Bool) (matrix : ℕ → UInt8) (capacity count : ℕ) (mem : Buffers) :
    ∃ mem', EsimdRun compress sha3 header first wide matrix capacity count mem mem' := by
  obtain ⟨hashes, hhashes⟩ := Stores.Phase.exists
    ((List.range count).flatMap (hashStores compress sha3 header first)) mem.hashes
  obtain ⟨vectors, hvectors⟩ := Stores.Phase.exists
    ((List.range count).flatMap (vectorStores compress sha3 header first)) mem.vectors
  obtain ⟨mixed, hmixed⟩ := Stores.Phase.exists ((List.range ((count + 15) / 16)).flatMap
    (multiplyStores wide matrix capacity hashes vectors)) mem.mixed
  exact ⟨⟨hashes, vectors, mixed⟩, hhashes, hvectors, hmixed⟩

/-! ## What the buffers hold -/

/-- Hashes at 32 bytes a nonce. -/
theorem hashes_get {count : ℕ} {mem mem' : ℕ → UInt8}
    (h : Stores.Phase ((List.range count).flatMap (hashStores compress sha3 header first)) mem mem')
    {gid i : ℕ} (hgid : gid < count) (hi : i < 32) :
    mem' (gid * 32 + i) = byteAt (powHash compress sha3 header (nonceOf first gid)) i := by
  have hf := h.get_of_forall (f := fun cell =>
    byteAt (Pearl.cvToBytes (stagedWords compress sha3 header first (cell / 32))) (cell % 32)) (by
      intro p hp
      obtain ⟨g, _, hp⟩ := List.mem_flatMap.mp hp
      obtain ⟨j, hj, rfl⟩ := List.mem_map.mp hp
      have hj' := List.mem_range.mp hj
      have hg : (g * 32 + j) / 32 = g := by omega
      have hjmod : (g * 32 + j) % 32 = j := by omega
      simp only [hg, hjmod])
    (List.mem_flatMap.mpr ⟨gid, List.mem_range.mpr hgid,
      List.mem_map.mpr ⟨i, List.mem_range.mpr hi, rfl⟩⟩)
  have hg : (gid * 32 + i) / 32 = gid := by omega
  have himod : (gid * 32 + i) % 32 = i := by omega
  rw [hf, hg, himod, stagedWords, powWords_eq]

variable {compress sha3 header first}
variable {wide : Bool} {matrix : ℕ → UInt8} {capacity count : ℕ} {mem mem' : Buffers}

theorem EsimdRun.vector
    (h : EsimdRun compress sha3 header first wide matrix capacity count mem mem') {gid k : ℕ}
    (hgid : gid < count) (hk : k < 64) : mem'.vectors (vectorCell gid k) =
      hashNibble (byteAt (powHash compress sha3 header (nonceOf first gid))) k := by
  have hcell (g j : ℕ) (hj : j < 64) : vectorCell g j / 1024 * 16 + vectorCell g j / 4 % 16 = g ∧
      vectorCell g j / 64 % 16 * 4 + vectorCell g j % 4 = j := by
    simp only [vectorCell]
    omega
  have hf := h.vectors.get_of_forall (f := fun cell => wordNibble
    (stagedWords compress sha3 header first (cell / 1024 * 16 + cell / 4 % 16))
      (cell / 64 % 16 * 4 + cell % 4)) (by
      intro p hp
      obtain ⟨g, _, hp⟩ := List.mem_flatMap.mp hp
      obtain ⟨j, hj, rfl⟩ := List.mem_map.mp hp
      obtain ⟨hg, hk⟩ := hcell g j (List.mem_range.mp hj)
      simp only [hg, hk])
    (List.mem_flatMap.mpr ⟨gid, List.mem_range.mpr hgid,
      List.mem_map.mpr ⟨k, List.mem_range.mpr hk, rfl⟩⟩)
  obtain ⟨hg, hk'⟩ := hcell gid k hk
  rw [hf, hg, hk', wordNibble_eq _ hk, stagedWords, powWords_eq]

/-- A row of the products, for one lane. -/
def tiledRow (matrix vectors : ℕ → UInt8) (r gid : ℕ) : ℤ :=
  ∑ k ∈ Finset.range 64, int8 (matrix (tiledCell r k)) * int8 (vectors (vectorCell gid k))

theorem tiledCell_band (band chunk : ℕ) {row l k : ℕ} (hrow : row < 8)
    (hl : l < 16) (hk : k < 32) :
    (band * 2 + chunk) * 256 + ((row * 16 + l) / 16 * 32 + k) =
      tiledCell (band * 8 + row) (32 * chunk + k) := by
  have hr : (row * 16 + l) / 16 = row := by omega
  have hband : (band * 8 + row) / 8 = band := by omega
  have hin : (band * 8 + row) % 8 = row := by omega
  have hc : (32 * chunk + k) / 32 = chunk := by omega
  have hk' : (32 * chunk + k) % 32 = k := by omega
  rw [tiledCell, hr, hband, hin, hc, hk', Nat.add_assoc]

theorem vectorCell_chunk (tile chunk : ℕ) {row l k : ℕ} (hl : l < 16) :
    tile * 1024 + chunk * 512 + (k / 4 * 64 + (row * 16 + l) % 16 * 4 + k % 4) =
      vectorCell (tile * 16 + l) (32 * chunk + k) := by
  have hrow : (row * 16 + l) % 16 = l := by omega
  have htile : (tile * 16 + l) / 16 = tile := by omega
  have hlane : (tile * 16 + l) % 16 = l := by omega
  have hquad : (32 * chunk + k) / 4 = chunk * 8 + k / 4 := by omega
  have hin : (32 * chunk + k) % 4 = k % 4 := by omega
  rw [vectorCell, hrow, htile, hlane, hquad, hin]
  omega

/-- **A band** has eight rows of the products, for the lanes of its tile. -/
theorem bandAcc_eq (wide : Bool) (matrix vectors : ℕ → UInt8) (tile band row : ℕ) {l : ℕ}
    (hrow : row < 8) (hl : l < 16) : bandAcc wide matrix vectors tile band (row * 16 + l) =
      tiledRow matrix vectors (band * 8 + row) (tile * 16 + l) := by
  have hterm (chunk : ℕ) : ∑ k ∈ Finset.range 32,
      int8 (matrix ((band * 2 + chunk) * 256 + ((row * 16 + l) / 16 * 32 + k))) *
        int8 (vectors (tile * 1024 + chunk * 512 + (k / 4 * 64 + (row * 16 + l) % 16 * 4 + k % 4))) =
      ∑ k ∈ Finset.range 32, int8 (matrix (tiledCell (band * 8 + row) (32 * chunk + k))) *
        int8 (vectors (vectorCell (tile * 16 + l) (32 * chunk + k))) := by
    refine Finset.sum_congr rfl fun k hk => ?_
    rw [tiledCell_band _ _ hrow hl (Finset.mem_range.mp hk), vectorCell_chunk _ _ hl]
  have hacc := Fragments.foldl_accumulate (fun acc chunk =>
    dpas8x16x32 wide acc (fun i => int8 (vectors (tile * 1024 + chunk * 512 + i)))
      (fun i => int8 (matrix ((band * 2 + chunk) * 256 + i)))) (fun acc => acc (row * 16 + l))
    (fun acc c => Fragments.dpas8x16x32_eq wide acc _ _ _) (List.range 2) fun _ => 0
  simp only [hterm] at hacc
  exact hacc.trans (Fragments.foldl_blocks (fun k =>
    int8 (matrix (tiledCell (band * 8 + row) k)) * int8 (vectors (vectorCell (tile * 16 + l) k))) 32 2)

/-! ## The hash -/

theorem tiledRow_eq {m : NibbleMatrix} {matrix vectors pow : ℕ → UInt8} {r gid : ℕ}
    (hmatrix : ∀ k < 64, matrix (tiledCell r k) = m.entry r k)
    (hvectors : ∀ k < 64, vectors (vectorCell gid k) = hashNibble pow k) :
    tiledRow matrix vectors r gid = product m pow r := by
  refine Finset.sum_congr rfl fun k hk => ?_
  have hk' := Finset.mem_range.mp hk
  rw [hmatrix k hk', hvectors k hk', int8_eq (m.entry_lt r k), int8_eq (hashNibble_lt pow k)]

/-- Every byte of the row of a nonce is the hash folded with two rows. -/
theorem EsimdRun.mixed_get
    (h : EsimdRun compress sha3 header first wide matrix capacity count mem mem')
    (hcapacity : 16 ∣ capacity) (hcount : count ≤ capacity) {gid byte : ℕ} (hgid : gid < count)
    (hbyte : byte < 32) : mem'.mixed (byte * capacity + gid) =
      mem'.hashes (gid * 32 + byte) ^^^
        foldPair (tiledRow matrix mem'.vectors (2 * byte) gid)
          (tiledRow matrix mem'.vectors (2 * byte + 1) gid) := by
  have hcell (b tile l : ℕ) (htile : tile < (count + 15) / 16) (hl : l < 16) :
      (b * capacity + tile * 16 + l) / capacity = b ∧
        (b * capacity + tile * 16 + l) % capacity = tile * 16 + l := by
    have hlt : tile * 16 + l < capacity := by omega
    rw [Nat.add_assoc, Nat.mul_comm b]
    exact ⟨by rw [Nat.mul_add_div (by omega), Nat.div_eq_of_lt hlt, Nat.add_zero],
      by rw [Nat.mul_add_mod, Nat.mod_eq_of_lt hlt]⟩
  have hstore (tile band pair l : ℕ) (hpair : pair < 4) (hl : l < 16) :
      (let acc := bandAcc wide matrix mem'.vectors tile band
      let byte := band * 4 + pair
      mem'.hashes (tile * 512 + byte + 32 * l) ^^^
        foldPair (acc (pair * 32 + l)) (acc (pair * 32 + 16 + l))) =
      mem'.hashes ((tile * 16 + l) * 32 + (band * 4 + pair)) ^^^
        foldPair (tiledRow matrix mem'.vectors (2 * (band * 4 + pair)) (tile * 16 + l))
          (tiledRow matrix mem'.vectors (2 * (band * 4 + pair) + 1) (tile * 16 + l)) := by
    have hhi := bandAcc_eq wide matrix mem'.vectors tile band (2 * pair) (by omega) hl
    have hlo := bandAcc_eq wide matrix mem'.vectors tile band (2 * pair + 1)
      (by omega) hl
    simp only
    rw [show pair * 32 + l = 2 * pair * 16 + l by omega, hhi,
      show pair * 32 + 16 + l = (2 * pair + 1) * 16 + l by omega, hlo,
      show band * 8 + 2 * pair = 2 * (band * 4 + pair) by omega,
      show band * 8 + (2 * pair + 1) = 2 * (band * 4 + pair) + 1 by omega,
      show tile * 512 + (band * 4 + pair) + 32 * l = (tile * 16 + l) * 32 + (band * 4 + pair) by omega]
  have hf := h.mixed.get_of_forall (f := fun cell =>
    mem'.hashes (cell % capacity * 32 + cell / capacity) ^^^
      foldPair (tiledRow matrix mem'.vectors (2 * (cell / capacity)) (cell % capacity))
        (tiledRow matrix mem'.vectors (2 * (cell / capacity) + 1) (cell % capacity))) (by
      intro p hp
      obtain ⟨tile, htile, hp⟩ := List.mem_flatMap.mp hp
      obtain ⟨band, _, hp⟩ := List.mem_flatMap.mp hp
      obtain ⟨pair, hpair, hp⟩ := List.mem_flatMap.mp hp
      obtain ⟨l, hl, rfl⟩ := List.mem_map.mp hp
      obtain ⟨hb, hg⟩ := hcell (band * 4 + pair) tile l (List.mem_range.mp htile)
        (List.mem_range.mp hl)
      simp only [hb, hg]
      exact hstore tile band pair l (List.mem_range.mp hpair) (List.mem_range.mp hl))
    (List.mem_flatMap.mpr ⟨gid / 16, List.mem_range.mpr (by omega),
      List.mem_flatMap.mpr ⟨byte / 4, List.mem_range.mpr (by omega),
        List.mem_flatMap.mpr ⟨byte % 4, List.mem_range.mpr (by omega),
          List.mem_map.mpr ⟨gid % 16, List.mem_range.mpr (by omega), rfl⟩⟩⟩⟩)
  obtain ⟨hb, hg⟩ := hcell byte (gid / 16) (gid % 16) (by omega) (by omega)
  rw [show byte / 4 * 4 + byte % 4 = byte by omega, hb, hg,
    show gid / 16 * 16 + gid % 16 = gid by omega, Nat.add_assoc,
    show gid / 16 * 16 + gid % 16 = gid by omega] at hf
  exact hf

/-- **The ESIMD kernels compute the hash** of every nonce of the count. -/
theorem EsimdRun.hash_eq
    (h : EsimdRun compress sha3 header first wide matrix capacity count mem mem')
    {m : NibbleMatrix} (hmatrix : ∀ r < 64, ∀ k < 64, matrix (tiledCell r k) = m.entry r k)
    (hcapacity : 16 ∣ capacity) (hcount : count ≤ capacity) {gid : ℕ} (hgid : gid < count) :
    esimdHash compress capacity mem'.mixed gid =
      walaHash compress sha3 m header (nonceOf first gid) := by
  have hmixed : (Vector.ofFn fun i : Fin 32 => mem'.mixed (i.val * capacity + gid)) =
      mixedBytes m (powHash compress sha3 header (nonceOf first gid)) := by
    refine congrArg Vector.ofFn (funext fun i => ?_)
    have hvectors (k : ℕ) (hk : k < 64) := h.vector hgid hk
    rw [h.mixed_get hcapacity hcount hgid i.isLt,
      hashes_get compress sha3 header first h.hashes hgid i.isLt,
      tiledRow_eq (hmatrix _ (by omega)) hvectors,
      tiledRow_eq (hmatrix _ (by omega)) hvectors, mixedByte]
  rw [esimdHash, hmixed, finalWords_eq, walaHash]

end Kernels

end MoMiner.WalaHash
