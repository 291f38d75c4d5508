import MoMiner.Lib.Lanes
import MoMiner.WalaHash.Esimd

/-!
# The WMMA tiles

The HIP route hashes as many nonces as the buffers have room for, so that every tile of 64 samples
is full. A wave multiplies the whole matrix with its tile and folds the products into the hashes, a
word at a time; the last kernel reads the hashes of the count only.

Main result: `HipRun.hash_eq`.
-/

namespace MoMiner.WalaHash

open Fragments (wmma)
open Pearl (Cv Block CvBytes le32)

/-! ## Fragments -/

/-- Two bytes of a hash as four nibbles. -/
def expandNibbles (x : UInt32) : UInt32 :=
  ((x >>> 4) &&& (15 : UInt32)) ||| ((x &&& (15 : UInt32)) <<< 8) |||
    ((x &&& (0xf000 : UInt32)) <<< 4) ||| ((x &&& (0x0f00 : UInt32)) <<< 16)

/-- The columns of the upper half of the lanes. -/
def halfOf (lane : ℕ) : ℕ := if lane / 16 % 2 = 1 then 8 else 0

theorem halfOf_eq {lane : ℕ} (hlane : lane < 32) : halfOf lane = lane / 16 * 8 := by
  rw [halfOf]
  split <;> omega

def fragmentA (matrix : ℕ → UInt8) (i k lane e : ℕ) : UInt8 :=
  let w := ((i * 16 + lane % 16) * 64 + k + halfOf lane) / 4
  byteOfWord (wordAt matrix (w + e / 4)) (e % 4)

def fragmentB (hashes : ℕ → UInt8) (col j k lane e : ℕ) : UInt8 :=
  let x := wordAt hashes ((col + j * 16 + lane % 16) * 8 + (k + halfOf lane) / 8)
  if e < 4 then byteOfWord (expandNibbles x) e else byteOfWord (expandNibbles (x >>> 16)) (e - 4)

theorem byteOfWord_expandNibbles_low (x : UInt32) {i : ℕ} (hi : i < 4) :
    byteOfWord (expandNibbles x) i = hashNibble (byteOfWord x) i := by
  apply UInt8.toBitVec_inj.mp
  apply BitVec.eq_of_getLsbD_eq
  intro j hj
  interval_cases i <;> interval_cases j <;>
    simp [byteOfWord, hashNibble, expandNibbles]

theorem byteOfWord_expandNibbles_high (x : UInt32) {i : ℕ} (hi : i < 4) :
    byteOfWord (expandNibbles (x >>> 16)) i = hashNibble (byteOfWord x) (4 + i) := by
  have hshift (j : ℕ) (hj : j < 2) : byteOfWord (x >>> 16) j = byteOfWord x (2 + j) := by
    apply UInt8.toBitVec_inj.mp
    apply BitVec.eq_of_getLsbD_eq
    intro b hb
    interval_cases j <;> interval_cases b <;> simp [byteOfWord]
  have hmod : (4 + i) % 2 = i % 2 := by omega
  have hdiv : (4 + i) / 2 = 2 + i / 2 := by omega
  rw [byteOfWord_expandNibbles_low _ hi, hashNibble, hashNibble, hshift _ (by omega), hmod, hdiv]

theorem fragmentA_eq (matrix : ℕ → UInt8) (i : ℕ) {k lane e : ℕ} (hk : 16 ∣ k)
    (hlane : lane < 32) : fragmentA matrix i k lane e =
      matrix ((i * 16 + lane % 16) * 64 + (k + (lane / 16 * 8 + e))) := by
  have hhalf : lane / 16 * 8 = 4 * (lane / 16 * 2) := by omega
  rw [fragmentA, byteOfWord_wordAt _ _ (Nat.mod_lt _ (by decide)), halfOf_eq hlane, hhalf]
  exact congrArg matrix (by omega)

theorem fragmentB_eq (hashes : ℕ → UInt8) (col j : ℕ) {k lane e : ℕ} (hk : 16 ∣ k)
    (hlane : lane < 32) (he : e < 8) : fragmentB hashes col j k lane e =
      hashNibble (fun i => hashes ((col + j * 16 + lane % 16) * 32 + i))
        (k + (lane / 16 * 8 + e)) := by
  have hword (i : ℕ) (hi : i < 8) : hashNibble (byteOfWord
      (wordAt hashes ((col + j * 16 + lane % 16) * 8 + (k + lane / 16 * 8) / 8))) i =
        hashNibble (fun i => hashes ((col + j * 16 + lane % 16) * 32 + i))
          (k + (lane / 16 * 8 + i)) := by
    have hmod : (k + (lane / 16 * 8 + i)) % 2 = i % 2 := by omega
    have hcell : 4 * ((col + j * 16 + lane % 16) * 8 + (k + lane / 16 * 8) / 8) + i / 2 =
        (col + j * 16 + lane % 16) * 32 + (k + (lane / 16 * 8 + i)) / 2 := by
      omega
    simp only [hashNibble, byteOfWord_wordAt _ _ (show i / 2 < 4 by omega), hcell, hmod]
  rw [fragmentB, halfOf_eq hlane]
  split
  · rename_i hlow
    rw [byteOfWord_expandNibbles_low _ hlow, hword e he]
  · rw [byteOfWord_expandNibbles_high _ (by omega), show 4 + (e - 4) = e by omega, hword e he]

/-! ## The matrix stage -/

/-- The accumulators of a wave, for a block of rows and a block of samples. -/
def waveAcc (matrix hashes : ℕ → UInt8) (col i j : ℕ) : ℕ → ℕ → ℤ :=
  (List.range 4).foldl (fun acc turn =>
    wmma (fun lane e => int8 (fragmentA matrix i (16 * turn) lane e))
      (fun lane e => int8 (fragmentB hashes col j (16 * turn) lane e)) acc) fun _ _ => 0

/-- Four output bytes in a word. -/
def packedWord (acc : ℕ → ℤ) : UInt32 :=
  le32 (foldPair (acc 0) (acc 1)) (foldPair (acc 2) (acc 3)) (foldPair (acc 4) (acc 5))
    (foldPair (acc 6) (acc 7))

/-- A lane stores a word for each block, byte by byte here. -/
def mixStores (matrix hashes : ℕ → UInt8) (wave lane : ℕ) : List (ℕ × UInt8) :=
  (List.range 4).flatMap fun i => (List.range 4).flatMap fun j => (List.range 4).map fun b =>
    let sample := wave * 64 + j * 16 + lane % 16
    let row := i * 16 + 8 * (lane / 16)
    let word := sample * 8 + row / 8
    (4 * word + b,
      byteOfWord (wordAt hashes word ^^^ packedWord (waveAcc matrix hashes (wave * 64) i j lane)) b)

/-- The waves of a launch that have a tile. -/
def launchWaves (n : ℕ) : List ℕ :=
  let blocks := (n / 64 * 32 + 256 - 1) / 256
  (List.range (blocks * 256 / 32)).filter (· < n / 64)

theorem launchWaves_eq (n : ℕ) : launchWaves n = List.range (n / 64) :=
  filter_lt_range (by omega)

/-- A row of the products, for one sample. -/
def sampleRow (matrix hashes : ℕ → UInt8) (r sample : ℕ) : ℤ :=
  ∑ k ∈ Finset.range 64,
    int8 (matrix (r * 64 + k)) * int8 (hashNibble (fun i => hashes (sample * 32 + i)) k)

/-- **A wave** has the products of its samples with all rows. -/
theorem waveAcc_eq (matrix hashes : ℕ → UInt8) (col i j : ℕ) {lane e : ℕ} (hlane : lane < 32)
    (he : e < 8) : waveAcc matrix hashes col i j lane e =
      sampleRow matrix hashes (i * 16 + (lane / 16 * 8 + e)) (col + j * 16 + lane % 16) := by
  have hacc := Fragments.foldl_accumulate (fun acc turn =>
    wmma (fun l x => int8 (fragmentA matrix i (16 * turn) l x))
      (fun l x => int8 (fragmentB hashes col j (16 * turn) l x)) acc) (fun acc => acc lane e)
    (fun acc turn => Fragments.wmma_eq
      (fun r k => int8 (matrix ((i * 16 + r) * 64 + (16 * turn + k))))
      (fun c k => int8 (hashNibble (fun x => hashes ((col + j * 16 + c) * 32 + x)) (16 * turn + k)))
      acc hlane he
      (fun l hl x _ => congrArg int8 (fragmentA_eq matrix i ⟨turn, rfl⟩ hl))
      fun l hl x hx => congrArg int8 (fragmentB_eq hashes col j ⟨turn, rfl⟩ hl hx))
    (List.range 4) fun _ _ => 0
  exact hacc.trans (Fragments.foldl_blocks (fun k =>
    int8 (matrix ((i * 16 + (lane / 16 * 8 + e)) * 64 + k)) *
      int8 (hashNibble (fun x => hashes ((col + j * 16 + lane % 16) * 32 + x)) k)) 16 4)

theorem byteOfWord_xor (x y : UInt32) (i : ℕ) :
    byteOfWord (x ^^^ y) i = byteOfWord x i ^^^ byteOfWord y i := by
  simp only [byteOfWord, UInt32.shiftRight_xor, UInt32.toUInt8_xor]

theorem byteOfWord_packedWord (acc : ℕ → ℤ) {b : ℕ} (hb : b < 4) :
    byteOfWord (packedWord acc) b = foldPair (acc (2 * b)) (acc (2 * b + 1)) := by
  rw [packedWord, byteOfWord_le32 _ _ _ _ hb]
  interval_cases b <;> rfl

/-! ## The run -/

section Kernels

variable (compress : Cv → Block → UInt64 → UInt32 → UInt32 → Block) (sha3 : CvBytes → CvBytes)
variable (header : Header) (first : UInt64)

/-- A run of the kernels before the last one. -/
structure HipRun (matrix : ℕ → UInt8) (capacity : ℕ) (mem mem' : Buffers) : Prop where
  hashes : Stores.Phase ((List.range capacity).flatMap (hashStores compress sha3 header first))
    mem.hashes mem'.hashes
  vectors : mem'.vectors = mem.vectors
  mixed : Stores.Phase ((launchWaves capacity).flatMap fun wave =>
    (List.range 32).flatMap (mixStores matrix mem'.hashes wave)) mem.mixed mem'.mixed

/-- The last kernel. -/
def hipHash (mixed : ℕ → UInt8) (gid : ℕ) : CvBytes :=
  finalWords compress (.ofFn fun i => mixed (gid * 32 + i.val))

theorem HipRun.exists (matrix : ℕ → UInt8) (capacity : ℕ) (mem : Buffers) :
    ∃ mem', HipRun compress sha3 header first matrix capacity mem mem' := by
  obtain ⟨hashes, hhashes⟩ := Stores.Phase.exists
    ((List.range capacity).flatMap (hashStores compress sha3 header first)) mem.hashes
  obtain ⟨mixed, hmixed⟩ := Stores.Phase.exists ((launchWaves capacity).flatMap fun wave =>
    (List.range 32).flatMap (mixStores matrix hashes wave)) mem.mixed
  exact ⟨⟨hashes, mem.vectors, mixed⟩, hhashes, rfl, hmixed⟩

variable {compress sha3 header first}
variable {matrix : ℕ → UInt8} {capacity : ℕ} {mem mem' : Buffers}

/-- What a lane stores. -/
theorem mixStores_value (matrix hashes : ℕ → UInt8) {p : ℕ × UInt8} {wave lane : ℕ}
    (hlane : lane < 32) (hp : p ∈ mixStores matrix hashes wave lane) :
    p.2 = hashes p.1 ^^^ foldPair (sampleRow matrix hashes (2 * (p.1 % 32)) (p.1 / 32))
      (sampleRow matrix hashes (2 * (p.1 % 32) + 1) (p.1 / 32)) := by
  obtain ⟨i, hi, hp⟩ := List.mem_flatMap.mp hp
  obtain ⟨j, hj, hp⟩ := List.mem_flatMap.mp hp
  obtain ⟨b, hb, rfl⟩ := List.mem_map.mp hp
  have hi' := List.mem_range.mp hi
  have hb' := List.mem_range.mp hb
  have hrow : (i * 16 + 8 * (lane / 16)) / 8 = 2 * i + lane / 16 := by omega
  have hcell : 4 * ((wave * 64 + j * 16 + lane % 16) * 8 + (2 * i + lane / 16)) + b =
      32 * (wave * 64 + j * 16 + lane % 16) + (4 * (2 * i + lane / 16) + b) := by
    omega
  have hbyte : 4 * (2 * i + lane / 16) + b < 32 := by omega
  have hdiv : (32 * (wave * 64 + j * 16 + lane % 16) + (4 * (2 * i + lane / 16) + b)) / 32 =
      wave * 64 + j * 16 + lane % 16 := by omega
  have hmod : (32 * (wave * 64 + j * 16 + lane % 16) + (4 * (2 * i + lane / 16) + b)) % 32 =
      4 * (2 * i + lane / 16) + b := by omega
  simp only [hrow, byteOfWord_xor, byteOfWord_wordAt _ _ hb', byteOfWord_packedWord _ hb']
  rw [waveAcc_eq matrix hashes _ i j hlane (by omega), waveAcc_eq matrix hashes _ i j hlane (by omega),
    hcell, hdiv, hmod,
    show i * 16 + (lane / 16 * 8 + 2 * b) = 2 * (4 * (2 * i + lane / 16) + b) by omega,
    show i * 16 + (lane / 16 * 8 + (2 * b + 1)) = 2 * (4 * (2 * i + lane / 16) + b) + 1 by omega]

/-- Every byte of a sample is stored by a lane. -/
theorem mem_mixStores (matrix hashes : ℕ → UInt8) (sample : ℕ) {byte : ℕ} (hbyte : byte < 32) :
    ∃ v, (sample * 32 + byte, v) ∈
      mixStores matrix hashes (sample / 64) (byte / 4 % 2 * 16 + sample % 16) := by
  have hcell : 4 * ((sample / 64 * 64 + sample / 16 % 4 * 16 + (byte / 4 % 2 * 16 + sample % 16) % 16)
      * 8 + (byte / 8 * 16 + 8 * ((byte / 4 % 2 * 16 + sample % 16) / 16)) / 8) + byte % 4 =
        sample * 32 + byte := by
    omega
  rw [← hcell]
  exact ⟨_, List.mem_flatMap.mpr ⟨byte / 8, List.mem_range.mpr (by omega),
    List.mem_flatMap.mpr ⟨sample / 16 % 4, List.mem_range.mpr (by omega),
      List.mem_map.mpr ⟨byte % 4, List.mem_range.mpr (by omega), rfl⟩⟩⟩⟩

theorem HipRun.mixed_get (h : HipRun compress sha3 header first matrix capacity mem mem')
    (hcapacity : 64 ∣ capacity) {gid byte : ℕ} (hgid : gid < capacity) (hbyte : byte < 32) :
    mem'.mixed (gid * 32 + byte) = mem'.hashes (gid * 32 + byte) ^^^
      foldPair (sampleRow matrix mem'.hashes (2 * byte) gid)
        (sampleRow matrix mem'.hashes (2 * byte + 1) gid) := by
  obtain ⟨v, hv⟩ := mem_mixStores matrix mem'.hashes gid hbyte
  have hget := h.mixed.get_of_forall (f := fun cell => mem'.hashes cell ^^^
    foldPair (sampleRow matrix mem'.hashes (2 * (cell % 32)) (cell / 32))
      (sampleRow matrix mem'.hashes (2 * (cell % 32) + 1) (cell / 32))) (by
      intro p hp
      obtain ⟨wave, _, hp⟩ := List.mem_flatMap.mp hp
      obtain ⟨lane, hlane, hp⟩ := List.mem_flatMap.mp hp
      exact mixStores_value matrix mem'.hashes (List.mem_range.mp hlane) hp)
    (List.mem_flatMap.mpr ⟨gid / 64, by rw [launchWaves_eq, List.mem_range]; omega,
      List.mem_flatMap.mpr ⟨_, List.mem_range.mpr (by omega), hv⟩⟩)
  rw [hget, show (gid * 32 + byte) % 32 = byte by omega, show (gid * 32 + byte) / 32 = gid by omega]

/-- **The HIP kernels compute the hash** of every nonce of a full tile. -/
theorem HipRun.hash_eq (h : HipRun compress sha3 header first matrix capacity mem mem')
    {m : NibbleMatrix} (hmatrix : ∀ cell < 4096, matrix cell = rowMajor m cell)
    (hcapacity : 64 ∣ capacity) {gid : ℕ} (hgid : gid < capacity) :
    hipHash compress mem'.mixed gid = walaHash compress sha3 m header (nonceOf first gid) := by
  have hhash (i : ℕ) (hi : i < 32) : mem'.hashes (gid * 32 + i) =
      byteAt (powHash compress sha3 header (nonceOf first gid)) i :=
    hashes_get compress sha3 header first h.hashes hgid hi
  have hrow (r : ℕ) (hr : r < 64) : sampleRow matrix mem'.hashes r gid =
      product m (byteAt (powHash compress sha3 header (nonceOf first gid))) r := by
    refine Finset.sum_congr rfl fun k hk => ?_
    have hk' := Finset.mem_range.mp hk
    have hnibble : hashNibble (fun i => mem'.hashes (gid * 32 + i)) k =
        hashNibble (byteAt (powHash compress sha3 header (nonceOf first gid))) k := by
      simp only [hashNibble, hhash (k / 2) (by omega)]
    have hentry : matrix (r * 64 + k) = m.entry r k := by
      rw [hmatrix _ (by omega), rowMajor]
      congr 1 <;> omega
    rw [hnibble, hentry, int8_eq (m.entry_lt r k), int8_eq (hashNibble_lt _ k)]
  have hmixed : (Vector.ofFn fun i : Fin 32 => mem'.mixed (gid * 32 + i.val)) =
      mixedBytes m (powHash compress sha3 header (nonceOf first gid)) := by
    refine congrArg Vector.ofFn (funext fun i => ?_)
    rw [h.mixed_get hcapacity hgid i.isLt, hhash i i.isLt, hrow _ (by omega), hrow _ (by omega),
      mixedByte]
  rw [hipHash, hmixed, finalWords_eq, walaHash]

end Kernels

end MoMiner.WalaHash
