import Mathlib.Algebra.BigOperators.Group.Finset.Basic
import MoMiner.C29.Graph
import MoMiner.Lib.Lanes
import MoMiner.Lib.Planes
import MoMiner.Lib.Scatter

/-!
# Seeding and trimming on the device

Seeding scatters the edges of a graph into buckets by the low bits of their first endpoint. A trim
round counts the endpoints of every bucket up to two, in local memory, and scatters the edges whose
endpoint was counted twice into buckets by their other endpoint, with the sides exchanged. A final
kernel copies the buckets into one list.

Every kernel is the tasks of its work items, and it may run them in any order; the items of a group
meet at a barrier between counting and scattering. `bits` is the width of the bucket numbers.
-/

namespace MoMiner.C29

open Planes Scatter

/-! ## Layout -/

/-- `EDGE_MASK`. -/
def edgeMask : UInt32 :=
  0x1fffffff

/-- The buffers of the seeded edges, in words. -/
def bufferSizeA1 : ℕ :=
  129 * 1024 * (4096 - 128) * 2

def bufferSizeA2 : ℕ :=
  129 * 1024 * 256 * 2

/-- Shrink the seeded buckets until those of the first buffer fit it. -/
def fitBuckets (count : ℕ) : ℕ → ℕ × ℕ
  | 0 => (0, count)
  | edges + 1 =>
    let a1Buckets := count - (bufferSizeA2 / 2) / (edges + 1)
    if a1Buckets * (edges + 1) ≤ bufferSizeA1 / 2 then (edges + 1, a1Buckets)
    else fitBuckets count edges

/-- The places of a seeded bucket, and the number of buckets in the first buffer. -/
def initialBuckets (bits : ℕ) : ℕ × ℕ :=
  fitBuckets (2 ^ bits) ((bufferSizeA1 + bufferSizeA2) / (2 * 2 ^ bits))

/-- The places of a bucket of a trim round. -/
def trimBucketEdges (bits : ℕ) : ℕ :=
  (83 * 1024) >>> (bits - 12)

/-- The words of one plane of counters. -/
def counterWords (bits : ℕ) : ℕ :=
  2 ^ (29 - bits - 4) / 2

/-- Where the edges of a bucket start in it. -/
def bucketOffset (bits bucket : ℕ) : ℕ :=
  if bits = 12 then (bucket &&& 255) * 32 else 0

/-- How buckets lie in memory: the address of a place, and the places that a bucket has. -/
structure Slots (κ : Type) where
  address : ℕ → ℕ → κ
  room : ℕ → ℕ

/-- The seeded buckets, in the first buffer (`false`) and the second (`true`). -/
def initialSlots (bits : ℕ) : Slots (Bool × ℕ) where
  address bucket i :=
    let (edges, a1Buckets) := initialBuckets bits
    if bucket < a1Buckets then (false, bucket * edges + i)
    else (true, (bucket - a1Buckets) * edges + i)
  room _ := (initialBuckets bits).1

/-- The buckets between the first and the second round. -/
def plainSlots (bits : ℕ) : Slots ℕ where
  address bucket i := bucket * trimBucketEdges bits + i
  room _ := trimBucketEdges bits

/-- The buckets after the second round. -/
def offsetSlots (bits : ℕ) : Slots ℕ where
  address bucket i := bucket * trimBucketEdges bits + bucketOffset bits bucket + i
  room bucket := trimBucketEdges bits - bucketOffset bits bucket

/-! ## Seeding -/

/-- The edge of a hash. -/
def seedEdge (lookup : UInt64) : Edge :=
  ⟨(lookup &&& edgeMask.toUInt64).toUInt32, ((lookup >>> 32) &&& edgeMask.toUInt64).toUInt32⟩

/-- Not the empty edge, which stands for no edge. -/
def present (e : Edge) : Bool :=
  e.x ≠ 0 ∨ e.y ≠ 0

/-- The edges of the graph. -/
def seeded (lookups : List UInt64) : List Edge :=
  (lookups.map seedEdge).filter present

/-- The bucket of a seeded edge: its low bits, with the lowest ones in front. -/
def seedBucket (bits : ℕ) (u : UInt32) : ℕ :=
  let lowMask : UInt32 := (1 <<< UInt32.ofNat (bits - 6)) - 1
  (((u &&& lowMask) <<< 6) ||| ((u >>> UInt32.ofNat (bits - 6)) &&& 63)).toNat

/-- A seeded edge is dropped when its bucket is full. -/
def seedPlace (bits bucket i : ℕ) : Option (Bool × ℕ) :=
  if i < (initialSlots bits).room bucket then some ((initialSlots bits).address bucket i) else none

def seedTasks (bits : ℕ) (lookups : List UInt64) : List (Task ℕ (Bool × ℕ) Edge) :=
  (seeded lookups).map fun e => .reserve (seedBucket bits e.x) [e]

/-! ## A trim round -/

/-- The edges that a group reads from its bucket. -/
def bucketEdges {κ : Type} (threads : ℕ) (slots : Slots κ) (mem : κ → Edge) (counts : ℕ → ℕ)
    (group : ℕ) : List Edge :=
  (laneIndices threads (min (counts group) (slots.room group))).map fun i =>
    mem (slots.address group i)

/-- The counter of an endpoint in its bucket. -/
def counterId (bits : ℕ) (e : Edge) : ℕ :=
  ((e.x &&& edgeMask) >>> UInt32.ofNat bits).toNat

/-- The first pass over a bucket. -/
def countTasks (bits : ℕ) (edges : List Edge) : List Mark :=
  (edges.filter present).map fun e => .first (counterId bits e)

/-- The bucket of the other endpoint. -/
def trimBucket (bits : ℕ) (v : UInt32) : ℕ :=
  (v &&& ((1 <<< UInt32.ofNat bits) - 1)).toNat

def Edge.swap (e : Edge) : Edge :=
  ⟨e.y, e.x⟩

/-- What a round is for: the edges whose first endpoint occurs twice, with the sides exchanged. -/
def trimOnce (edges : Multiset Edge) : Multiset Edge :=
  (survivors Edge.x edges).map Edge.swap

/-- The second pass over a bucket. -/
def scatterTasks (bits : ℕ) (counters : ℕ → UInt32) (edges : List Edge) :
    List (Task ℕ ℕ Edge) :=
  (edges.filter fun e =>
    present e && degreeTwo (counterWords bits) counters (counterId bits e)).map fun e =>
      .reserve (trimBucket bits e.y) [e.swap]

/-- An edge that finds its bucket full takes the last place. -/
def trimPlace (slots : Slots ℕ) (bucket i : ℕ) : Option ℕ :=
  some (slots.address bucket (min i (slots.room bucket - 1)))

/-- A round from one buffer to another, with the counts of the buckets of both. -/
def TrimRun {κ : Type} (bits threads : ℕ) (source : Slots κ) (dest : Slots ℕ) (mem : κ → Edge)
    (counts : ℕ → ℕ) (s s' : Scatter.State ℕ ℕ Edge) : Prop :=
  ∃ counters : ℕ → ℕ → UInt32,
    (∀ group < 2 ^ bits, Completes (Planes.step (counterWords bits))
      (countTasks bits (bucketEdges threads source mem counts group)) (fun _ => 0)
      (counters group)) ∧
    Completes (Scatter.step (trimPlace dest))
      (∑ group ∈ Finset.range (2 ^ bits),
        (scatterTasks bits (counters group) (bucketEdges threads source mem counts group) :
          Multiset (Task ℕ ℕ Edge))) s s'

/-! ## The device -/

/-- The buffers of the device. -/
structure Device where
  a : Bool × ℕ → Edge
  b : ℕ → Edge
  i1 : ℕ → ℕ
  i2 : ℕ → ℕ

/-- The counts of a round's source, which every group clears. -/
def clear (bits : ℕ) (counts : ℕ → ℕ) (bucket : ℕ) : ℕ :=
  if bucket < 2 ^ bits then 0 else counts bucket

section

variable (bits threads : ℕ) (d d' : Device)

def Seed (lookups : List UInt64) : Prop :=
  ∃ s, Completes (Scatter.step (seedPlace bits)) (seedTasks bits lookups) ⟨d.i2, d.a, 0⟩ s ∧
    d' = { d with a := s.mem, i2 := s.counts }

/-- The first round, from the seeded buckets. -/
def Round1 : Prop :=
  ∃ s, TrimRun bits threads (initialSlots bits) (plainSlots bits) d.a d.i2 ⟨d.i1, d.b, 0⟩ s ∧
    d' = { d with b := s.mem, i1 := s.counts, i2 := clear bits d.i2 }

/-- The buffer `a1` with other contents. -/
def Device.writeA1 (a : Bool × ℕ → Edge) (a1 : ℕ → Edge) (k : Bool × ℕ) : Edge :=
  if k.1 then a k else a1 k.2

/-- The second round. -/
def RoundNo1 : Prop :=
  ∃ s, TrimRun bits threads (plainSlots bits) (offsetSlots bits) d.b d.i1
      ⟨d.i2, fun i => d.a (false, i), 0⟩ s ∧
    d' = { d with a := Device.writeA1 d.a s.mem, i2 := s.counts, i1 := clear bits d.i1 }

/-- A further round, from `a1` to `b`. -/
def TrimAToB : Prop :=
  ∃ s, TrimRun bits threads (offsetSlots bits) (offsetSlots bits) (fun i => d.a (false, i)) d.i2
      ⟨d.i1, d.b, 0⟩ s ∧
    d' = { d with b := s.mem, i1 := s.counts, i2 := clear bits d.i2 }

/-- A further round, from `b` to `a1`. -/
def TrimBToA : Prop :=
  ∃ s, TrimRun bits threads (offsetSlots bits) (offsetSlots bits) d.b d.i1
      ⟨d.i2, fun i => d.a (false, i), 0⟩ s ∧
    d' = { d with a := Device.writeA1 d.a s.mem, i2 := s.counts, i1 := clear bits d.i1 }

end

/-! ## The host -/

/-- Where the edges are: in the seeded buckets, in `b` after the first round, or in `a1` or `b`
after a later one. -/
inductive TrimPhase
  | seed
  | first
  | a
  | b
deriving DecidableEq

/-- A round of the host, with any number of lanes in a group. -/
inductive Round (bits : ℕ) : TrimPhase → Device → TrimPhase → Device → Prop
  | round1 {threads : ℕ} {d d' : Device} :
    0 < threads → Round1 bits threads d d' → Round bits .seed d .first d'
  | roundNo1 {threads : ℕ} {d d' : Device} :
    0 < threads → RoundNo1 bits threads d d' → Round bits .first d .a d'
  | trimAToB {threads : ℕ} {d d' : Device} :
    0 < threads → TrimAToB bits threads d d' → Round bits .a d .b d'
  | trimBToA {threads : ℕ} {d d' : Device} :
    0 < threads → TrimBToA bits threads d d' → Round bits .b d .a d'

/-- No bucket of a phase was given more edges than it has places. -/
def Device.Fits (bits : ℕ) (d : Device) : TrimPhase → Prop
  | .seed => ∀ bucket, d.i2 bucket ≤ (initialSlots bits).room bucket
  | .first => ∀ bucket, d.i1 bucket ≤ (plainSlots bits).room bucket
  | .a => ∀ bucket, d.i2 bucket ≤ (offsetSlots bits).room bucket
  | .b => ∀ bucket, d.i1 bucket ≤ (offsetSlots bits).room bucket

/-- The host clears the counts, seeds, and trims for any number of rounds; no bucket overflows. -/
inductive Trimmed (bits : ℕ) (lookups : List UInt64) : TrimPhase → Device → Prop
  | seed {d d' : Device} : (∀ bucket, d.i1 bucket = 0) → (∀ bucket, d.i2 bucket = 0) →
    Seed bits d d' lookups → d'.Fits bits .seed → Trimmed bits lookups .seed d'
  | round {p p' : TrimPhase} {d d' : Device} : Trimmed bits lookups p d → Round bits p d p' d' →
    d'.Fits bits p' → Trimmed bits lookups p' d'

/-- The edges in all buckets. -/
def bufferEdges {κ : Type} (bits : ℕ) (slots : Slots κ) (mem : κ → Edge) (counts : ℕ → ℕ) :
    Multiset Edge :=
  ∑ bucket ∈ Finset.range (2 ^ bits), (bucketEdges 1 slots mem counts bucket : Multiset Edge)

/-- The edges of a phase. -/
def Device.edges (bits : ℕ) (d : Device) : TrimPhase → Multiset Edge
  | .seed => bufferEdges bits (initialSlots bits) d.a d.i2
  | .first => bufferEdges bits (plainSlots bits) d.b d.i1
  | .a => bufferEdges bits (offsetSlots bits) (fun i => d.a (false, i)) d.i2
  | .b => bufferEdges bits (offsetSlots bits) d.b d.i1

/-! ## The handoff -/

/-- The final kernel reserves one range of the list for each bucket. -/
def tailTasks (bits threads : ℕ) (d : Device) : List (Task Unit ℕ Edge) :=
  (List.range (2 ^ bits)).map fun group =>
    .reserve () (bucketEdges threads (offsetSlots bits) d.b d.i1 group)

/-- Edges beyond the handoff are dropped. -/
def tailPlace (capacity : ℕ) (_ : Unit) (i : ℕ) : Option ℕ :=
  if i < capacity then some i else none

/-- The handed-off list of a run of the final kernel. -/
def Tail (bits threads capacity : ℕ) (d : Device) (edges : List Edge) : Prop :=
  ∃ mem s, Completes (Scatter.step (tailPlace capacity)) (tailTasks bits threads d)
      ⟨fun _ => 0, mem, 0⟩ s ∧
    edges = (List.range (min (s.counts ()) capacity)).map s.mem

end MoMiner.C29
