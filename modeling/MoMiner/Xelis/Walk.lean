import Mathlib.Algebra.Group.Nat.Defs
import Mathlib.Data.Nat.Notation
import Mathlib.Tactic.Basic

/-!
# The walk of XelisHash over its scratchpad

Stage 3 reads and writes a scratchpad of two halves at addresses that depend on what it read. The
NVPTX build overlaps the turns of its inner loop: the two stores of a turn are delayed past the
loads of the next one, whose values are then forwarded from the pending stores. The other builds
run the turns one after another. The arithmetic of a turn is a parameter.

Main result: `pipelined_walk_eq`.
-/

namespace MoMiner.Xelis

/-! ## The scratchpad -/

/-- Words of one scratchpad. -/
def words : ℕ :=
  531 * 128

/-- Words of each of its halves. -/
def half : ℕ :=
  words / 2

/-- The scratchpad of one nonce. -/
abbrev Scratch :=
  Vector UInt64 words

/-- The place of a word of the first half. -/
def inA (i : Fin half) : Fin words :=
  ⟨i, Nat.lt_of_lt_of_le i.isLt (Nat.div_le_self words 2)⟩

/-- The place of a word of the second half. -/
def inB (i : Fin half) : Fin words :=
  ⟨i + half, Nat.lt_of_lt_of_eq (Nat.add_lt_add_right i.isLt half) rfl⟩

theorem inA_inj {i j : Fin half} : inA i = inA j ↔ i = j := by
  simp [inA, Fin.ext_iff]

theorem inB_inj {i j : Fin half} : inB i = inB j ↔ i = j := by
  simp [inB, Fin.ext_iff]

theorem inA_ne_inB (i j : Fin half) : inA i ≠ inB j := by
  intro h
  have hlt := i.isLt
  simp only [inA, inB, Fin.mk.injEq] at h
  omega

/-- Read one word. -/
def load (mem : Scratch) (i : Fin words) : UInt64 :=
  mem[i.val]

/-- Write one word. -/
def store (mem : Scratch) (i : Fin words) (value : UInt64) : Scratch :=
  mem.set i value i.isLt

theorem load_store (mem : Scratch) (i j : Fin words) (value : UInt64) :
    load (store mem i value) j = if i = j then value else load mem j := by
  simp [load, store, Vector.getElem_set, Fin.ext_iff]

theorem store_comm {i j : Fin words} (h : i ≠ j) (mem : Scratch) (x y : UInt64) :
    store (store mem i x) j y = store (store mem j y) i x := by
  simp only [store]
  exact Vector.set_comm _ _ (fun hij => h (Fin.ext hij))

/-! ## The arithmetic of a turn -/

def rotl64 (x : UInt64) (n : UInt32) : UInt64 :=
  (x <<< n.toUInt64) ||| (x >>> (0 - n.toUInt64))

def rotr64 (x : UInt64) (n : UInt32) : UInt64 :=
  rotl64 x (0 - n)

/-- Map a mixed word into the fixed scratch range without division. -/
def mapIndex (x : UInt64) : Fin half :=
  ⟨((x ^^^ (x >>> 33)) * 0xff51afd7ed558ccd).toNat * half / 2 ^ 64, by
    have hlt := ((x ^^^ (x >>> 33)) * 0xff51afd7ed558ccd).toNat_lt
    exact Nat.div_lt_of_lt_mul (Nat.mul_lt_mul_of_pos_right hlt (by decide))⟩

/-- The functions that a turn calls. The walk uses of them only that an index lies in its half,
as it does for `mapIndex`. -/
structure Primitives where
  /-- The selected consensus operation of `op`, `a`, `b`, `c`, `r`, `result`, `i` and `j`. -/
  operation : UInt32 → UInt64 → UInt64 → UInt64 → UInt32 → UInt64 → UInt32 → UInt32 → UInt64
  mapIndex : UInt64 → Fin half
  murmur : UInt64 → UInt64
  modpow : UInt64 → UInt64 → UInt64 → UInt64
  isqrt64 : UInt64 → UInt64
  aesRound : UInt64 → UInt64 → UInt64 × UInt64

variable (prim : Primitives)

/-- The cursor of the sequential reads, as the 32-bit word of the source. -/
def cursor (r : Fin words) : UInt32 :=
  UInt32.ofNat r

/-- `r < WORDS - 1 ? r + 1 : 0`. -/
def nextCursor (r : Fin words) : Fin words :=
  if h : r.val < words - 1 then ⟨r.val + 1, Nat.add_lt_of_lt_sub h⟩ else ⟨0, by decide⟩

/-- What a turn of the inner loop starts from. -/
structure Walk where
  mem : Scratch
  result : UInt64
  r : Fin words

/-- The three words that a turn reads before its operation. -/
structure Reads where
  a : UInt64
  b : UInt64
  c : UInt64

/-- The words `v`, `seed` and the next `result` that a turn computes from what it has read. -/
def mix (i j : UInt32) (r : Fin words) (result : UInt64) (reads : Reads) :
    UInt64 × UInt64 × UInt64 :=
  let op := (rotl64 result reads.c.toUInt32 &&& 15).toUInt32
  let v := prim.operation op reads.a reads.b reads.c (cursor r) result i j
  let seed := v ^^^ result
  (v, seed, rotl64 seed (cursor r))

/-- The word that a turn stores in the first half. -/
def nextWord (mem : Scratch) (v seed result : UInt64) : UInt64 :=
  let idx := prim.mapIndex seed
  let word :=
    if prim.murmur v &&& ((1 : UInt64) <<< 58) ≠ 0 then load mem (inB idx) else load mem (inA idx)
  word ^^^ result

def writeIndexA (t result : UInt64) : Fin half :=
  prim.mapIndex (t ^^^ result ^^^ 0x9e3779b97f4a7c15)

def writeIndexB (ia : Fin half) (result : UInt64) : Fin half :=
  prim.mapIndex (UInt64.ofNat ia ^^^ ~~~result ^^^ 0xd2b74407b1ce6e93)

/-! ## The straight-line loop -/

def Walk.reads (s : Walk) : Reads :=
  let a := load s.mem (inA (prim.mapIndex s.result))
  let b := load s.mem (inB (prim.mapIndex (a ^^^ ~~~rotr64 s.result (cursor s.r))))
  ⟨a, b, load s.mem s.r⟩

/-- One turn of the straight-line loop. -/
def straightTurn (i j : UInt32) (s : Walk) : Walk :=
  let r := nextCursor s.r
  let (v, seed, result) := mix prim i j r s.result (s.reads prim)
  let t := nextWord prim s.mem v seed result
  let ia := writeIndexA prim t result
  let ib := writeIndexB prim ia result
  let old := load s.mem (inA ia)
  let oldB := load s.mem (inB ib)
  let mem := store s.mem (inA ia) t
  ⟨store mem (inB ib) (oldB ^^^ old ^^^ rotr64 t (i + j)), result, r⟩

/-- The first `count` turns of the straight-line loop. -/
def straightTurns (i : UInt32) (count : ℕ) (s : Walk) : Walk :=
  (List.range count).foldl (fun s j => straightTurn prim i (UInt32.ofNat j) s) s

def straightInner (i : UInt32) (s : Walk) : Walk :=
  straightTurns prim i half s

/-! ## The pipelined loop -/

/-- The stores that a turn has left to the next one: `pending_t`, `write_a`, `write_b` and
`pending_ij`. -/
structure Pending where
  t : UInt64
  writeA : Fin half
  writeB : Fin half
  ij : UInt32

/-- `pending_b`, from the words that are still in the scratchpad. -/
def Pending.b (w : Pending) (mem : Scratch) : UInt64 :=
  let oldA := load mem (inA w.writeA)
  let oldB := load mem (inB w.writeB)
  oldB ^^^ oldA ^^^ rotr64 w.t w.ij

/-- Make the two stores. -/
def Pending.flush (w : Pending) (mem : Scratch) : Scratch :=
  store (store mem (inB w.writeB) (w.b mem)) (inA w.writeA) w.t

/-- What a turn of the pipelined loop starts from. There is no pending store in the first one. -/
structure Pipeline where
  mem : Scratch
  result : UInt64
  r : Fin words
  readA : Fin half
  nextA : UInt64
  pending : Option Pending

/-- The state before the first turn: its word of the first half is already read. -/
def Pipeline.start (s : Walk) : Pipeline :=
  let readA := prim.mapIndex s.result
  ⟨s.mem, s.result, s.r, readA, load s.mem (inA readA), none⟩

/-- The word of the first half, forwarded from the pending store. -/
def Pipeline.a (p : Pipeline) : UInt64 :=
  match p.pending with
  | some w => if w.writeA = p.readA then w.t else p.nextA
  | none => p.nextA

/-- The word of the second half, forwarded from the pending store. -/
def Pipeline.b (p : Pipeline) (baddr : Fin half) : UInt64 :=
  let b := load p.mem (inB baddr)
  match p.pending with
  | some w => if w.writeB = baddr then w.b p.mem else b
  | none => b

/-- The word at the cursor, forwarded from either pending store. -/
def Pipeline.c (p : Pipeline) : UInt64 :=
  let c := load p.mem p.r
  match p.pending with
  | some w => if inA w.writeA = p.r then w.t else if inB w.writeB = p.r then w.b p.mem else c
  | none => c

def Pipeline.reads (p : Pipeline) : Reads :=
  ⟨p.a, p.b (prim.mapIndex (p.a ^^^ ~~~rotr64 p.result (cursor p.r))), p.c⟩

/-- The scratchpad after the pending stores. -/
def Pipeline.flushed (p : Pipeline) : Scratch :=
  match p.pending with
  | some w => w.flush p.mem
  | none => p.mem

/-- One turn of the pipelined loop. -/
def pipelinedTurn (i j : UInt32) (p : Pipeline) : Pipeline :=
  let r := nextCursor p.r
  let (v, seed, result) := mix prim i j r p.result (p.reads prim)
  let mem := p.flushed
  let readA := prim.mapIndex result
  let nextA := load mem (inA readA)
  let t := nextWord prim mem v seed result
  let writeA := writeIndexA prim t result
  let writeB := writeIndexB prim writeA result
  ⟨mem, result, r, readA, nextA, some ⟨t, writeA, writeB, i + j⟩⟩

/-- The first `count` turns of the pipelined loop. -/
def pipelinedTurns (i : UInt32) (count : ℕ) (s : Walk) : Pipeline :=
  (List.range count).foldl (fun p j => pipelinedTurn prim i (UInt32.ofNat j) p)
    (Pipeline.start prim s)

/-- The pipelined loop with its final flush. -/
def pipelinedInner (i : UInt32) (s : Walk) : Walk :=
  let p := pipelinedTurns prim i half s
  ⟨p.flushed, p.result, p.r⟩

/-! ## The outer loop -/

/-- What the outer loop carries, with the `result` of its last turn. -/
structure Stage where
  mem : Scratch
  addrA : UInt64
  addrB : UInt64
  r : Fin words
  result : UInt64

/-- One turn of the outer loop around either inner loop. -/
def outerTurn (inner : UInt32 → Walk → Walk) (i : UInt32) (s : Stage) : Stage :=
  let ma := load s.mem (inA (prim.mapIndex s.addrA))
  let mb := load s.mem (inB (prim.mapIndex (ma ^^^ s.addrB)))
  let (mb, ma) := prim.aesRound mb ma
  let w := inner i ⟨s.mem, ~~~(mb ^^^ ma), s.r⟩
  let addrA := prim.modpow s.addrA s.addrB w.result
  let addrB := prim.isqrt64 w.result * (cursor w.r + 1).toUInt64 * prim.isqrt64 addrA
  ⟨w.mem, addrA, addrB, w.r, w.result⟩

/-- The state before the outer loop. -/
def Stage.start (mem : Scratch) : Stage :=
  let last : Fin half := ⟨half - 1, by decide⟩
  ⟨mem, load mem (inB last), load mem (inA last) >>> 32, ⟨0, by decide⟩, 0⟩

/-- The first `count` turns of the outer loop. -/
def outerTurns (inner : UInt32 → Walk → Walk) (count : ℕ) (mem : Scratch) : Stage :=
  (List.range count).foldl (fun s i => outerTurn prim inner (UInt32.ofNat i) s) (Stage.start mem)

/-- The mixing loop over the scratchpad of one nonce. -/
def stage3 (inner : UInt32 → Walk → Walk) (mem : Scratch) : Scratch :=
  (outerTurns prim inner 2 mem).mem

/-! ## The pipeline hides its delay -/

/-- A word read after the pending stores: one of them, or what the scratchpad still holds. -/
theorem load_flush (w : Pending) (mem : Scratch) (i : Fin words) :
    load (w.flush mem) i =
      if inA w.writeA = i then w.t else if inB w.writeB = i then w.b mem else load mem i := by
  rw [Pending.flush, load_store, load_store]

/-- The pipelined state stands for a straight-line one: its scratchpad with the pending stores is
the straight-line scratchpad, and the prefetched word is the one at `read_a`. -/
structure Simulates (p : Pipeline) (s : Walk) : Prop where
  flushed : p.flushed = s.mem
  result : p.result = s.result
  r : p.r = s.r
  readA : p.readA = prim.mapIndex p.result
  nextA : p.nextA = load p.mem (inA p.readA)

theorem simulates_start (s : Walk) : Simulates prim (Pipeline.start prim s) s :=
  ⟨rfl, rfl, rfl, rfl, rfl⟩

section

variable {prim} {p : Pipeline} {s : Walk}

theorem Simulates.a_eq (h : Simulates prim p s) :
    p.a = load s.mem (inA (prim.mapIndex s.result)) := by
  rw [← h.result, ← h.readA, ← h.flushed, Pipeline.a, Pipeline.flushed, h.nextA]
  cases p.pending with
  | none => rfl
  | some w =>
    -- The second half cannot hold the word, so one test is enough.
    simp only [load_flush, inA_inj, (inA_ne_inB _ _).symm, if_false]

theorem Simulates.b_eq (h : Simulates prim p s) (baddr : Fin half) :
    p.b baddr = load s.mem (inB baddr) := by
  rw [← h.flushed, Pipeline.b, Pipeline.flushed]
  cases p.pending with
  | none => rfl
  | some w => simp only [load_flush, inB_inj, inA_ne_inB, if_false]

theorem Simulates.c_eq (h : Simulates prim p s) : p.c = load s.mem s.r := by
  rw [← h.flushed, ← h.r, Pipeline.c, Pipeline.flushed]
  cases p.pending with
  | none => rfl
  | some w => simp only [load_flush]

/-- Every forwarded read sees all stores of the earlier turns. -/
theorem Simulates.reads_eq (h : Simulates prim p s) : p.reads prim = s.reads prim := by
  rw [Pipeline.reads, Walk.reads, h.b_eq, h.a_eq, h.c_eq, h.result, h.r]

/-- The step lemma: a pipelined turn does what a straight-line turn does, and leaves its stores to
the next one. -/
theorem Simulates.turn (h : Simulates prim p s) (i j : UInt32) :
    Simulates prim (pipelinedTurn prim i j p) (straightTurn prim i j s) := by
  simp only [pipelinedTurn, straightTurn, h.reads_eq, h.result, h.r, h.flushed]
  refine ⟨?_, rfl, rfl, rfl, rfl⟩
  simp only [Pipeline.flushed, Pending.flush, Pending.b]
  exact store_comm (inA_ne_inB _ _).symm _ _ _

end

/-- The run lemma, over the turns of the inner loop. -/
theorem simulates_turns (i : UInt32) (count : ℕ) (s : Walk) :
    Simulates prim (pipelinedTurns prim i count s) (straightTurns prim i count s) := by
  induction count with
  | zero => exact simulates_start prim s
  | succ count ih =>
    rw [pipelinedTurns, straightTurns, List.range_succ, List.foldl_append, List.foldl_append]
    exact ih.turn i (UInt32.ofNat count)

theorem Simulates.walk_eq {p : Pipeline} {s : Walk} (h : Simulates prim p s) :
    (⟨p.flushed, p.result, p.r⟩ : Walk) = s := by
  rw [h.flushed, h.result, h.r]

theorem pipelinedInner_eq : pipelinedInner prim = straightInner prim := by
  funext i s
  exact (simulates_turns prim i half s).walk_eq

/-- **The pipelined walk is the straight-line walk.** After every outer turn the two loops leave the
same scratchpad, `result`, `r`, `addr_a` and `addr_b`; inside one, before every turn, the pipelined
loop reads the words that the straight-line loop reads, and its scratchpad differs from the other
by the pending stores only. -/
theorem pipelined_walk_eq (mem : Scratch) :
    (∀ count, outerTurns prim (pipelinedInner prim) count mem =
      outerTurns prim (straightInner prim) count mem) ∧
    stage3 prim (pipelinedInner prim) mem = stage3 prim (straightInner prim) mem ∧
    ∀ (i : UInt32) (s : Walk) (count : ℕ),
      (pipelinedTurns prim i count s).reads prim = (straightTurns prim i count s).reads prim ∧
      (pipelinedTurns prim i count s).flushed = (straightTurns prim i count s).mem := by
  refine ⟨fun count => by rw [pipelinedInner_eq], by rw [pipelinedInner_eq], ?_⟩
  intro i s count
  have h := simulates_turns prim i count s
  exact ⟨h.reads_eq, h.flushed⟩

end MoMiner.Xelis
