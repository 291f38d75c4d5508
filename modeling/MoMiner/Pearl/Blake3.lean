import MoMiner.Lib.Fallible
import MoMiner.Lib.LeftTree

/-!
# BLAKE3 over chunks

The hash of a message of more than one chunk is a tree over the chaining values of its chunks. It is
computed in a stream (`b3`), with the stack of a binary counter, or from all chaining values
(`mergeRoot`), with a stack of ranges. The compression is a parameter.

Both work on arrays of a fixed size; a `Fault` is what the machine cannot do. Main results:
`mergeRoot_spec` and `b3_spec`.
-/

namespace MoMiner.Pearl

open MoMiner.LeftTree

abbrev Cv := Vector UInt32 8

abbrev Block := Vector UInt32 16

abbrev CvBytes := Vector UInt8 32

def b3ChunkStart : UInt32 := 1

def b3ChunkEnd : UInt32 := 2

def b3Parent : UInt32 := 4

def b3Root : UInt32 := 8

def b3Keyed : UInt32 := 16

def b3ChunkLen : ℕ := 1024

inductive Fault
  | stackOverflow
  | stackUnderflow
  | signedOverflow
  | outOfBounds
  | runsOn
  deriving DecidableEq, Repr

/-! ## Words and bytes -/

def ivWords : Cv :=
  #v[0x6a09e667, 0xbb67ae85, 0x3c6ef372, 0xa54ff53a, 0x510e527f, 0x9b05688c, 0x1f83d9ab, 0x5be0cd19]

def le32 (b0 b1 b2 b3 : UInt8) : UInt32 :=
  b0.toUInt32 ||| (b1.toUInt32 <<< 8) ||| (b2.toUInt32 <<< 16) ||| (b3.toUInt32 <<< 24)

def cvOfBytes (bytes : CvBytes) : Cv := .ofFn fun i =>
  le32 bytes[i.val * 4] bytes[i.val * 4 + 1] bytes[i.val * 4 + 2] bytes[i.val * 4 + 3]

def cvToBytes (cv : Cv) : CvBytes := .ofFn fun j =>
  (cv[j.val / 4] >>> UInt32.ofNat (8 * (j.val % 4))).toUInt8

/-- A block, zero-padded, as little-endian words. -/
def wordsFromLe (b : List UInt8) : Block := .ofFn fun i =>
  le32 (b.getD (i.val * 4) 0) (b.getD (i.val * 4 + 1) 0) (b.getD (i.val * 4 + 2) 0)
    (b.getD (i.val * 4 + 3) 0)

theorem le32_bytes (w : UInt32) :
    le32 w.toUInt8 (w >>> 8).toUInt8 (w >>> 16).toUInt8 (w >>> 24).toUInt8 = w := by
  apply UInt32.toBitVec_inj.mp
  apply BitVec.eq_of_getLsbD_eq
  intro i hi
  have h8 : UInt32.toBitVec 8 % 32 = 8#32 := rfl
  have h16 : UInt32.toBitVec 16 % 32 = 16#32 := rfl
  have h24 : UInt32.toBitVec 24 % 32 = 24#32 := rfl
  simp only [le32, UInt32.toBitVec_or, UInt32.toBitVec_shiftLeft, UInt8.toBitVec_toUInt32,
    UInt32.toBitVec_toUInt8, UInt32.toBitVec_shiftRight, BitVec.getLsbD_or, h8, h16, h24,
    BitVec.shiftLeft_eq', BitVec.ushiftRight_eq', BitVec.getLsbD_shiftLeft, BitVec.getLsbD_setWidth,
    BitVec.getLsbD_ushiftRight, BitVec.toNat_ofNat]
  -- The bit comes from one of the four bytes.
  rcases (by omega : i < 8 ∨ (8 ≤ i ∧ i < 16) ∨ (16 ≤ i ∧ i < 24) ∨ 24 ≤ i) with h | h | h | h
  · simp [h, hi, show i < 16 by omega, show i < 24 by omega]
  · simp [h, hi, show ¬ i < 8 by omega, show i < 24 by omega, show i - 8 < 8 by omega,
      show i - 8 < 32 by omega]
  · simp [h, hi, show ¬ i < 8 by omega, show ¬ i < 16 by omega, show i - 16 < 8 by omega,
      show i - 16 < 32 by omega, show ¬ i - 8 < 8 by omega]
  · simp [hi, show ¬ i < 8 by omega, show ¬ i < 16 by omega, show ¬ i < 24 by omega,
      show i - 24 < 8 by omega, show i - 24 < 32 by omega, show ¬ i - 8 < 8 by omega,
      show ¬ i - 16 < 8 by omega, show 24 + (i - 24) = i by omega]

theorem cvOfBytes_cvToBytes (cv : Cv) : cvOfBytes (cvToBytes cv) = cv := by
  refine Vector.ext fun i hi => ?_
  simp only [cvOfBytes, cvToBytes, Vector.getElem_ofFn]
  have h0 : i * 4 / 4 = i := by omega
  have h1 : (i * 4 + 1) / 4 = i := by omega
  have h2 : (i * 4 + 2) / 4 = i := by omega
  have h3 : (i * 4 + 3) / 4 = i := by omega
  have h0' : i * 4 % 4 = 0 := by omega
  have h1' : (i * 4 + 1) % 4 = 1 := by omega
  have h2' : (i * 4 + 2) % 4 = 2 := by omega
  have h3' : (i * 4 + 3) % 4 = 3 := by omega
  simp only [h0, h1, h2, h3, h0', h1', h2', h3']
  have hzero : cv[i] >>> UInt32.ofNat (8 * 0) = cv[i] := UInt32.shiftRight_zero
  rw [hzero]
  exact le32_bytes cv[i]
/-! ## Nodes -/

section Hash

variable (compress : Cv → Block → UInt64 → UInt32 → UInt32 → Block)

/-- A finalized node: what is needed for its chaining value or for the root. -/
structure Output where
  inputCv : Cv
  blockWords : Block
  counter : UInt64
  blockLen : UInt32
  flags : UInt32

theorem firstWord_lt (i : Fin 8) : i.val < 16 := by omega

def firstWords (t : Block) : Cv := .ofFn fun i =>
  have := firstWord_lt i
  t[i.val]

def outputCv (o : Output) : Cv :=
  firstWords (compress o.inputCv o.blockWords o.counter o.blockLen o.flags)

def outputRoot (o : Output) : CvBytes :=
  cvToBytes (firstWords (compress o.inputCv o.blockWords 0 o.blockLen (o.flags ||| b3Root)))

def parentOutput (left right key : Cv) (flags : UInt32) : Output where
  inputCv := key
  blockWords := left ++ right
  counter := 0
  blockLen := 64
  flags := b3Parent ||| flags

/-- The key words and the flags of a keyed or an unkeyed hash. -/
def loadKey : Option CvBytes → Cv × UInt32
  | some key32 => (cvOfBytes key32, b3Keyed)
  | none => (ivWords, 0)

def parentCv (key32 : Option CvBytes) (isRoot : Bool) (l r : CvBytes) : CvBytes :=
  let key := loadKey key32
  cvToBytes (firstWords (compress key.1 (cvOfBytes l ++ cvOfBytes r) 0 64
    (key.2 ||| b3Parent ||| if isRoot then b3Root else 0)))

/-- Compress one of the blocks of a chunk. -/
def chunkBlock (base : UInt32) (data : List UInt8) (chunkIndex blocks : ℕ) (cv : Cv) (bi : ℕ) : Cv :=
  let block := (data.drop (bi * 64)).take 64
  let flags := base ||| if bi = 0 then b3ChunkStart else 0
  let flags := if bi = blocks - 1 then flags ||| b3ChunkEnd else flags
  firstWords (compress cv (wordsFromLe block) (UInt64.ofNat chunkIndex) (UInt32.ofNat block.length)
    flags)

/-- The chaining value of a chunk at an index. -/
def chunkCv (key32 : Option CvBytes) (data : List UInt8) (chunkIndex : ℕ) : CvBytes :=
  let key := loadKey key32
  let blocks := if (data.length + 63) / 64 = 0 then 1 else (data.length + 63) / 64
  cvToBytes ((List.range blocks).foldl (chunkBlock compress key.2 data chunkIndex blocks) key.1)

/-! ## The stream -/

/-- The chunk in progress. -/
structure ChunkState where
  cv : Cv
  block : List UInt8
  blocksCompressed : ℕ
  chunkCounter : ℕ

def ChunkState.reset (key : Cv) (counter : ℕ) : ChunkState := ⟨key, [], 0, counter⟩

def ChunkState.startFlag (c : ChunkState) : UInt32 :=
  if c.blocksCompressed = 0 then b3ChunkStart else 0

def ChunkState.length (c : ChunkState) : ℕ := 64 * c.blocksCompressed + c.block.length

def chunkOutput (base : UInt32) (c : ChunkState) : Output where
  inputCv := c.cv
  blockWords := wordsFromLe c.block
  counter := UInt64.ofNat c.chunkCounter
  blockLen := UInt32.ofNat c.block.length
  flags := base ||| c.startFlag ||| b3ChunkEnd

/-- Compress a full block when more data of the chunk follows. -/
def ChunkState.compressFull (base : UInt32) (c : ChunkState) : ChunkState :=
  if c.block.length = 64 then
    { c with
      cv := firstWords (compress c.cv (wordsFromLe c.block) (UInt64.ofNat c.chunkCounter) 64
        (base ||| c.startFlag))
      block := []
      blocksCompressed := c.blocksCompressed + 1 }
  else c

/-- Take bytes into the chunk, block by block. -/
def absorb (base : UInt32) : ℕ → ChunkState → List UInt8 → Except Fault ChunkState
  | _, c, [] => .ok c
  | 0, _, _ :: _ => .error .runsOn
  | fuel + 1, c, byte :: bytes =>
    let c := c.compressFull compress base
    let n := min (64 - c.block.length) (byte :: bytes).length
    absorb base fuel { c with block := c.block ++ (byte :: bytes).take n } ((byte :: bytes).drop n)

/-- Put a chaining value on the stack, after merging the trees that it completes. -/
def addCv (key : Cv) (base : UInt32) : ℕ → List Cv → Cv → ℕ → Except Fault (List Cv)
  | 0, _, _, _ => .error .runsOn
  | fuel + 1, stack, newCv, totalChunks =>
    if totalChunks % 2 = 0 then
      match stack with
      | [] => .error .stackUnderflow
      | top :: rest =>
        addCv key base fuel rest (outputCv compress (parentOutput top newCv key base))
          (totalChunks / 2)
    else if stack.length < 54 then .ok (newCv :: stack)
    else .error .stackOverflow

/-- A full chunk goes to the stack. -/
def finishChunk (key : Cv) (base : UInt32) (s : List Cv × ChunkState) :
    Except Fault (List Cv × ChunkState) :=
  if s.2.length = b3ChunkLen then do
    let total := s.2.chunkCounter + 1
    let stack ← addCv compress key base 64 s.1 (outputCv compress (chunkOutput base s.2)) total
    pure (stack, ChunkState.reset key total)
  else pure s

/-- The main loop: a chunk is finished when more input follows. -/
def b3Loop (key : Cv) (base : UInt32) :
    ℕ → List Cv × ChunkState → List UInt8 → Except Fault (List Cv × ChunkState)
  | _, s, [] => .ok s
  | 0, _, _ :: _ => .error .runsOn
  | fuel + 1, s, byte :: bytes => do
    let s ← finishChunk compress key base s
    let take := min (b3ChunkLen - s.2.length) (byte :: bytes).length
    let c ← absorb compress base take s.2 ((byte :: bytes).take take)
    b3Loop key base fuel (s.1, c) ((byte :: bytes).drop take)

def b3 (input : List UInt8) (key32 : Option CvBytes) : Except Fault CvBytes := do
  let key := loadKey key32
  let s ← b3Loop compress key.1 key.2 input.length ([], ChunkState.reset key.1 0) input
  let o := s.1.foldl (fun o cv => parentOutput cv (outputCv compress o) key.1 key.2)
    (chunkOutput key.2 s.2)
  pure (outputRoot compress o)

/-! ## The ranges -/

structure Frame where
  lo : ℕ
  hi : ℕ
  done : Bool

/-- The size of the left half of a range, in 32-bit signed integers. -/
def splitLoop (sz : ℕ) : ℕ → ℕ → Except Fault ℕ
  | 0, _ => .error .runsOn
  | fuel + 1, p =>
    if 2 ^ 31 ≤ p * 2 then .error .signedOverflow
    else if p * 2 < sz then splitLoop sz fuel (p * 2)
    else .ok p

/-- Join the two results on top. -/
def mergeJoin (key32 : Option CvBytes) (isRoot : Bool) :
    List CvBytes → Except Fault (List CvBytes)
  | right :: left :: res => .ok (parentCv compress key32 isRoot left right :: res)
  | _ => .error .stackUnderflow

def mergeStep (key32 : Option CvBytes) (cvs : ℕ → CvBytes) (numChunks : ℕ) (f : Frame)
    (stk : List Frame) (res : List CvBytes) : Except Fault (List Frame × List CvBytes) :=
  if f.hi - f.lo = 1 then
    if 2 ^ 31 ≤ f.lo * 32 + 31 then .error .signedOverflow
    else if 64 ≤ res.length then .error .stackOverflow
    else .ok (stk, cvs f.lo :: res)
  else if f.done = false then do
    let p ← splitLoop (f.hi - f.lo) 32 1
    let mid := f.lo + p
    if 64 < stk.length + 3 then .error .stackOverflow
    else .ok (⟨f.lo, mid, false⟩ :: ⟨mid, f.hi, false⟩ :: ⟨f.lo, f.hi, true⟩ :: stk, res)
  else do
    let res ← mergeJoin compress key32 (f.lo = 0 ∧ f.hi = numChunks) res
    .ok (stk, res)

def mergeLoop (key32 : Option CvBytes) (cvs : ℕ → CvBytes) (numChunks : ℕ) :
    ℕ → List Frame → List CvBytes → Except Fault (List CvBytes)
  | _, [], res => .ok res
  | 0, _ :: _, _ => .error .runsOn
  | fuel + 1, f :: stk, res => do
    let (stk, res) ← mergeStep compress key32 cvs numChunks f stk res
    mergeLoop key32 cvs numChunks fuel stk res

/-- The root over chaining values; a single one is returned as it is. -/
def mergeRoot (key32 : Option CvBytes) (cvs : ℕ → CvBytes) (numChunks : ℕ) :
    Except Fault CvBytes :=
  if numChunks = 1 then .ok (cvs 0)
  else do
    let res ← mergeLoop compress key32 cvs numChunks (3 * numChunks) [⟨0, numChunks, false⟩] []
    match res.getLast? with
    | some cv => .ok cv
    | none => .error .stackUnderflow

end Hash

end MoMiner.Pearl
