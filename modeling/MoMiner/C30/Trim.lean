import MoMiner.C29.Trim
import MoMiner.Lib.ProbeTable

/-!
# Seeding and trimming of the C30 solver

The edges of a graph lie in buckets by the low bits of their first endpoint, as two words or packed
into six bytes without these bits. A round keeps the edges whose first endpoint occurs twice in its
bucket. The dense kernel counts the endpoints in two planes of bits; the sparse kernel counts them
in a small hash table, or compares a larger bucket with itself.

An edge that finds its bucket full is counted as overflow, and the host gives the graph up when any
was. `bits` is the width of the bucket numbers.
-/

namespace MoMiner.C30

open C29 (Edge)
open Planes Scatter ProbeTable

/-! ## Edges -/

/-- `C30_EDGE_MASK`. -/
def edgeMask : UInt32 :=
  0x3fffffff

def bucketOf (bits : ℕ) (endpoint : UInt32) : UInt32 :=
  endpoint &&& ((1 <<< UInt32.ofNat bits) - 1)

/-- An edge in six bytes. -/
structure PackedEdge where
  uLow : UInt16
  vLow : UInt16
  high : UInt16
deriving DecidableEq

/-- The bucket of an edge carries the bits of `u` that are left out. -/
def packEdge (bits : ℕ) (u v : UInt32) : PackedEdge :=
  let uHigh := u >>> UInt32.ofNat bits
  ⟨uHigh.toUInt16, v.toUInt16, ((v >>> 16) ||| ((uHigh >>> 16) <<< 14)).toUInt16⟩

def unpackU (bits : ℕ) (edge : PackedEdge) (bucket : UInt32) : UInt32 :=
  let high := edge.uLow.toUInt32 ||| ((edge.high >>> 14).toUInt32 <<< 16)
  (high <<< UInt32.ofNat bits) ||| bucket

def unpackV (edge : PackedEdge) : UInt32 :=
  edge.vLow.toUInt32 ||| ((edge.high &&& 0x3fff).toUInt32 <<< 16)

/-- How edges are stored in a bucket. -/
structure Layout (β : Type) where
  pack : UInt32 → UInt32 → β
  unpackU : β → UInt32 → UInt32
  unpackV : β → UInt32

def wide : Layout Edge :=
  ⟨Edge.mk, fun edge _ => edge.x, Edge.y⟩

def packed (bits : ℕ) : Layout PackedEdge :=
  ⟨packEdge bits, C30.unpackU bits, C30.unpackV⟩

/-! ## Buckets -/

/-- The edges and the counts of a buffer. -/
structure Buckets (β : Type) where
  edges : ℕ → β
  counts : ℕ → ℕ

section

variable {β : Type} (L : Layout β) (stride : ℕ) (input : Buckets β) (group : ℕ)

/-- The number of edges that a group reads. -/
def edgeCount : ℕ :=
  min (input.counts group) stride

/-- An edge of a bucket. -/
def readEdge (i : ℕ) : Edge :=
  let edge := input.edges (group * stride + i)
  ⟨L.unpackU edge (UInt32.ofNat group), L.unpackV edge⟩

/-- The edges of a bucket. -/
def bucketEdges : List Edge :=
  (List.range (edgeCount stride input group)).map (readEdge L stride input group)

end

/-- The place of an edge; a bucket has `stride` places. -/
def place (stride bucket slot : ℕ) : Option ℕ :=
  if slot ≥ stride then none else some (bucket * stride + slot)

/-! ## The dense kernel -/

/-- The words of one plane of counters. -/
def counterWords (bits : ℕ) : ℕ :=
  2 ^ (30 - bits - 5)

/-- The counter of an endpoint in its bucket. -/
def degreeId (bits : ℕ) (endpoint : UInt32) : ℕ :=
  (endpoint >>> UInt32.ofNat bits).toNat

/-! ## The sparse kernel -/

def sparseEdgeCapacity : ℕ := 512

def sparseTableSize : ℕ := 1024

def sparseTableMask : UInt32 := 1023

def sparseKeyMask : UInt32 := 0x7ffff

def sparseDuplicate : UInt32 := 0x80000000

def sparseKey (bits : ℕ) (endpoint : UInt32) : UInt32 :=
  (endpoint >>> UInt32.ofNat bits) + 1

def sparseSlot (key : UInt32) : UInt32 :=
  (key * 0x9e3779b1) &&& sparseTableMask

/-- The slots that are probed for a key. -/
def probeSlot (key : UInt32) : ℕ → UInt32
  | 0 => sparseSlot key
  | probe + 1 => (probeSlot key probe + 1) &&& sparseTableMask

theorem toNat_and_keyMask (w : UInt32) : (w &&& sparseKeyMask).toNat = w.toNat % 2 ^ 19 := by
  rw [UInt32.toNat_and, show sparseKeyMask.toNat = 2 ^ 19 - 1 from rfl,
    Nat.and_two_pow_sub_one_eq_mod]

theorem testBit_duplicate (w : UInt32) :
    (w &&& sparseDuplicate) ≠ 0 ↔ w.toNat.testBit 31 = true := by
  rw [Ne, ← UInt32.toNat_inj, UInt32.toNat_and, show sparseDuplicate.toNat = 2 ^ 31 from rfl,
    Nat.and_two_pow]
  cases w.toNat.testBit 31 <;> simp

theorem or_duplicate_testBit (w : UInt32) : (w ||| sparseDuplicate).toNat.testBit 31 = true := by
  rw [UInt32.toNat_or, show sparseDuplicate.toNat = 2 ^ 31 from rfl, Nat.testBit_or,
    Nat.testBit_two_pow_self, Bool.or_true]

/-- A cell holds a key of at most 19 bits, and the duplicate flag in its highest bit. -/
def sparseCells : Cells UInt32 UInt32 where
  empty := 0
  key value := value &&& sparseKeyMask
  ofKey key := key
  mark value := value ||| sparseDuplicate
  marked value := (value &&& sparseDuplicate) ≠ 0
  Valid key := key ≠ 0 ∧ key.toNat < 2 ^ 19
  key_empty k hk := by
    intro hzero
    exact hk.1 (hzero ▸ rfl)
  key_ofKey k hk := by
    rw [← UInt32.toNat_inj, toNat_and_keyMask, Nat.mod_eq_of_lt hk.2]
  ofKey_ne_empty k hk := hk.1
  marked_ofKey k hk := by
    rw [decide_eq_false_iff_not, testBit_duplicate, Nat.testBit_lt_two_pow]
    · simp
    · exact hk.2.trans (by decide)
  key_mark w := by
    rw [← UInt32.toNat_inj, toNat_and_keyMask, toNat_and_keyMask, UInt32.toNat_or,
      Nat.or_mod_two_pow]
    simp [sparseDuplicate]
  mark_ne_empty w := by
    intro hzero
    have hbit := or_duplicate_testBit w
    rw [hzero] at hbit
    cases hbit
  marked_mark w := by
    rw [decide_eq_true_iff, testBit_duplicate, or_duplicate_testBit]

def slotOf (key : UInt32) (probe : ℕ) : ℕ :=
  (probeSlot key probe).toNat

def sparseDegreeTwo (table : ℕ → UInt32) (key : UInt32) : Bool :=
  find sparseCells sparseTableSize slotOf table key

/-! ## A trim round -/

inductive Kernel
  | dense
  | sparse
deriving DecidableEq

section

variable {β : Type} (L : Layout β) (bits threads stride : ℕ) (input : Buckets β) (group : ℕ)

/-- The indexes that the lanes of a group visit. -/
def visited : List ℕ :=
  laneIndices threads (edgeCount stride input group)

/-- The first pass of the dense kernel. -/
def denseTasks : List Mark :=
  (visited threads stride input group).map fun i =>
    .first (degreeId bits (readEdge L stride input group i).x)

/-- The first pass of the sparse kernel. -/
def sparseTasks : List (Insert UInt32) :=
  (visited threads stride input group).map fun i =>
    .look (sparseKey bits (readEdge L stride input group i).x) 0

/-- The comparison of an edge with the other edges of its bucket. -/
def repeats (i : ℕ) : Bool :=
  (List.range (edgeCount stride input group)).any fun other =>
    other ≠ i && (readEdge L stride input group other).x = (readEdge L stride input group i).x

/-- What the second pass finds out about the edges, after some schedule of the first. -/
def Degrees (degreeTwo : ℕ → Bool) : Kernel → Prop
  | .dense => ∃ counters,
    Completes (Planes.step (counterWords bits)) (denseTasks L bits threads stride input group)
      (fun _ => 0) counters ∧
    degreeTwo = fun i => Planes.degreeTwo (counterWords bits) counters
      (degreeId bits (readEdge L stride input group i).x)
  | .sparse =>
    if edgeCount stride input group ≤ sparseEdgeCapacity then ∃ table,
      Completes (ProbeTable.step sparseCells sparseTableSize slotOf)
        (sparseTasks L bits threads stride input group) (fun _ => 0) table ∧
      degreeTwo = fun i => sparseDegreeTwo table
        (sparseKey bits (readEdge L stride input group i).x)
    else degreeTwo = repeats L stride input group

/-- The second pass of both kernels. -/
def scatterTasks (degreeTwo : ℕ → Bool) : List (Task ℕ ℕ β) :=
  ((visited threads stride input group).filter degreeTwo).map fun i =>
    let edge := readEdge L stride input group i
    .reserve (bucketOf bits edge.y).toNat [L.pack edge.y edge.x]

/-- A round from one buffer to another. -/
def TrimRun (kernel : Kernel) (outputStride : ℕ) (s s' : Scatter.State ℕ ℕ β) : Prop :=
  ∃ degreeTwo : ℕ → ℕ → Bool,
    (∀ group < 2 ^ bits, Degrees L bits threads stride input group (degreeTwo group) kernel) ∧
    Completes (Scatter.step (place outputStride))
      (∑ group ∈ Finset.range (2 ^ bits),
        (scatterTasks L bits threads stride input group (degreeTwo group) :
          Multiset (Task ℕ ℕ β))) s s'

end

/-! ## The host -/

/-- What is stored of an edge: low-memory devices pack it. -/
def StoredEdge : Bool → Type
  | true => PackedEdge
  | false => Edge

def layout (bits : ℕ) : (lowMemory : Bool) → Layout (StoredEdge lowMemory)
  | true => packed bits
  | false => wide

def bucketBaseStride (bits : ℕ) : ℕ :=
  2 ^ (30 - bits)

def seedBucketStride (bits : ℕ) : ℕ :=
  bucketBaseStride bits * 65 / 64

def trimBucketStride (bits : ℕ) : ℕ :=
  bucketBaseStride bits * 11 / 16

def lowMemoryTrimBucketStride (bits : ℕ) : ℕ :=
  bucketBaseStride bits * 21 / 32

/-- The strides of the input and the output of a round. -/
def inputStride (bits : ℕ) (lowMemory : Bool) (round : ℕ) : ℕ :=
  if lowMemory then
    if round = 0 then seedBucketStride bits else lowMemoryTrimBucketStride bits
  else if round % 2 = 0 then seedBucketStride bits else trimBucketStride bits

def outputStride (bits : ℕ) (lowMemory : Bool) (round : ℕ) : ℕ :=
  if lowMemory then lowMemoryTrimBucketStride bits
  else if round % 2 = 0 then trimBucketStride bits else seedBucketStride bits

/-- The edge of a hash. -/
def seedEdge (hash : UInt64) : Edge :=
  ⟨hash.toUInt32 &&& edgeMask, (hash >>> 32).toUInt32 &&& edgeMask⟩

/-- The edges of the graph. -/
def seeded (hash : ℕ → UInt64) : List Edge :=
  (List.range (2 ^ 30)).map fun nonce => seedEdge (hash nonce)

def seedTasks {β : Type} (L : Layout β) (bits : ℕ) (hash : ℕ → UInt64) : List (Task ℕ ℕ β) :=
  (seeded hash).map fun edge => .reserve (bucketOf bits edge.x).toNat [L.pack edge.x edge.y]

/-- The trim chain: the input of the next round and the number of dropped edges after some rounds.
A round clears the counts of its output; the edges in it are left from earlier. -/
inductive TrimChain (bits : ℕ) (lowMemory : Bool) (sparseTrimStart : ℕ) (hash : ℕ → UInt64) :
    ℕ → Buckets (StoredEdge lowMemory) → ℕ → Prop
  | seed {edges : ℕ → StoredEdge lowMemory} {s : Scatter.State ℕ ℕ (StoredEdge lowMemory)} :
    Completes (Scatter.step (place (seedBucketStride bits)))
      (seedTasks (layout bits lowMemory) bits hash) ⟨fun _ => 0, edges, 0⟩ s →
    TrimChain bits lowMemory sparseTrimStart hash 0 ⟨s.mem, s.counts⟩ s.dropped
  | round {round threads dropped : ℕ} {input : Buckets (StoredEdge lowMemory)}
      {edges : ℕ → StoredEdge lowMemory} {s : Scatter.State ℕ ℕ (StoredEdge lowMemory)} :
    TrimChain bits lowMemory sparseTrimStart hash round input dropped → 0 < threads →
    TrimRun (layout bits lowMemory) bits threads (inputStride bits lowMemory round) input
      (if round ≥ sparseTrimStart then .sparse else .dense) (outputStride bits lowMemory round)
      ⟨fun _ => 0, edges, dropped⟩ s →
    TrimChain bits lowMemory sparseTrimStart hash (round + 1) ⟨s.mem, s.counts⟩ s.dropped

/-- The edges in all buckets. -/
def bufferEdges {β : Type} (L : Layout β) (bits stride : ℕ) (input : Buckets β) : Multiset Edge :=
  ∑ group ∈ Finset.range (2 ^ bits), (bucketEdges L stride input group : Multiset Edge)

/-- The graph that the host searches after the trim chain, unless a bucket overflowed. The overflow
is a word of 32 bits. -/
def trimmedGraph (bits : ℕ) (lowMemory : Bool) (rounds : ℕ)
    (input : Buckets (StoredEdge lowMemory)) (dropped : ℕ) : Except String (Multiset Edge) :=
  if UInt32.ofNat dropped ≠ 0 then .error "c30 fixed bucket overflow"
  else .ok (bufferEdges (layout bits lowMemory) bits (inputStride bits lowMemory rounds) input)

end MoMiner.C30
