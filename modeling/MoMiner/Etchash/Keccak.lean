import MoMiner.Lib.Keccak
import Mathlib.Data.Fintype.Basic
import Mathlib.Tactic.FinCases

/-!
# The two Keccak forms of the Etchash kernels

The device code hashes with 64-bit lanes or with lanes split into two 32-bit halves. The first form
walks the permutation of the lanes in place, the second scatters rotated lanes into a snapshot.

**Main results.** On halves, the second form yields the halves of the first, for a round and for the
permutation, and the seed and the final hash are the same in both (`pair_keccak`).
-/

namespace MoMiner.Etchash

open MoMiner.Keccak

/-! ## 64-bit lanes -/

def rotl64Dev (value : BitVec 64) (shift : ℕ) : BitVec 64 :=
  (value <<< shift) ||| (value >>> (64 - shift))

local instance laneNeZero : @NeZero ℕ Zero.ofOfNat0 25 := ⟨Nat.succ_ne_zero 24⟩

def lane (k : ℕ) : Fin 25 := Fin.ofNat 25 k

def rndc : Vector (BitVec 64) 24 := #v[
  0x0000000000000001, 0x0000000000008082, 0x800000000000808a, 0x8000000080008000,
  0x000000000000808b, 0x0000000080000001, 0x8000000080008081, 0x8000000000008009,
  0x000000000000008a, 0x0000000000000088, 0x0000000080008009, 0x000000008000000a,
  0x000000008000808b, 0x800000000000008b, 0x8000000000008089, 0x8000000000008003,
  0x8000000000008002, 0x8000000000000080, 0x000000000000800a, 0x800000008000000a,
  0x8000000080008081, 0x8000000000008080, 0x0000000080000001, 0x8000000080008008]

def rotc : List ℕ := [1, 3, 6, 10, 15, 21, 28, 36, 45, 55, 2, 14,
  27, 41, 56, 8, 25, 43, 62, 18, 39, 61, 20, 44]

def piln : List ℕ := [10, 7, 11, 17, 18, 3, 5, 16, 8, 21, 24, 4,
  15, 23, 19, 13, 12, 2, 20, 14, 22, 9, 6, 1]

/-- The values of a loop variable that goes through the rows. -/
def rowStarts : List ℕ := [0, 5, 10, 15, 20]

def u64Theta (st : State (BitVec 64)) : State (BitVec 64) :=
  let bc := fun i => st (lane i) ^^^ st (lane (i + 5)) ^^^ st (lane (i + 10)) ^^^
    st (lane (i + 15)) ^^^ st (lane (i + 20))
  (List.range 5).foldl (fun st i =>
    let t := bc ((i + 4) % 5) ^^^ rotl64Dev (bc ((i + 1) % 5)) 1
    rowStarts.foldl (fun st j => put st (lane (j + i)) (st (lane (j + i)) ^^^ t)) st) st

/-- The walk along the permutation, with the lane that was overwritten last. -/
def u64RhoPi (st : State (BitVec 64)) : State (BitVec 64) :=
  ((piln.zip rotc).foldl
    (fun (s : State (BitVec 64) × BitVec 64) (step : ℕ × ℕ) =>
      (put s.1 (lane step.1) (rotl64Dev s.2 step.2), s.1 (lane step.1)))
    (st, st 1)).1

def u64Chi (st : State (BitVec 64)) : State (BitVec 64) :=
  rowStarts.foldl (fun st j =>
    let bc := fun i => st (lane (j + i))
    (List.range 5).foldl (fun st i => put st (lane (j + i))
      (st (lane (j + i)) ^^^ (~~~bc ((i + 1) % 5) &&& bc ((i + 2) % 5)))) st) st

def keccakf1600U64RoundDev (st : State (BitVec 64)) (round : Fin 24) : State (BitVec 64) :=
  let st := u64Chi (u64RhoPi (u64Theta st))
  put st 0 (st 0 ^^^ rndc.get round)

def keccakf1600U64Dev (st : State (BitVec 64)) : State (BitVec 64) :=
  (List.finRange 24).foldl keccakf1600U64RoundDev st

/-! ## Lanes in halves -/

@[ext]
structure Uint2 where
  x : BitVec 32
  y : BitVec 32
  deriving DecidableEq

instance Uint2.instXor : XorOp Uint2 := ⟨fun a b => ⟨a.x ^^^ b.x, a.y ^^^ b.y⟩⟩

instance Uint2.instAnd : AndOp Uint2 := ⟨fun a b => ⟨a.x &&& b.x, a.y &&& b.y⟩⟩

instance Uint2.instNot : Complement Uint2 := ⟨fun a => ⟨~~~a.x, ~~~a.y⟩⟩

def rotl64PairDev (value : Uint2) (shift : ℕ) : Uint2 :=
  let s := shift &&& 63
  if s = 0 then value
  else if s < 32 then
    ⟨(value.x <<< s) ||| (value.y >>> (32 - s)), (value.y <<< s) ||| (value.x >>> (32 - s))⟩
  else if s = 32 then ⟨value.y, value.x⟩
  else
    ⟨(value.y <<< (s - 32)) ||| (value.x >>> (64 - s)),
      (value.x <<< (s - 32)) ||| (value.y >>> (64 - s))⟩

def pairRndc : Vector Uint2 24 := #v[
  ⟨0x00000001, 0x00000000⟩, ⟨0x00008082, 0x00000000⟩, ⟨0x0000808a, 0x80000000⟩,
  ⟨0x80008000, 0x80000000⟩, ⟨0x0000808b, 0x00000000⟩, ⟨0x80000001, 0x00000000⟩,
  ⟨0x80008081, 0x80000000⟩, ⟨0x00008009, 0x80000000⟩, ⟨0x0000008a, 0x00000000⟩,
  ⟨0x00000088, 0x00000000⟩, ⟨0x80008009, 0x00000000⟩, ⟨0x8000000a, 0x00000000⟩,
  ⟨0x8000808b, 0x00000000⟩, ⟨0x0000008b, 0x80000000⟩, ⟨0x00008089, 0x80000000⟩,
  ⟨0x00008003, 0x80000000⟩, ⟨0x00008002, 0x80000000⟩, ⟨0x00000080, 0x80000000⟩,
  ⟨0x0000800a, 0x00000000⟩, ⟨0x8000000a, 0x80000000⟩, ⟨0x80008081, 0x80000000⟩,
  ⟨0x00008080, 0x80000000⟩, ⟨0x80000001, 0x00000000⟩, ⟨0x80008008, 0x80000000⟩]

/-- `st[k] ^= u` for some lanes. -/
def xorLanes (st : State Uint2) (lanes : List (Fin 25)) (u : Uint2) : State Uint2 :=
  lanes.foldl (fun st k => put st k (st k ^^^ u)) st

def pairTheta (st : State Uint2) : State Uint2 :=
  let t0 := st 0 ^^^ st 5 ^^^ st 10 ^^^ st 15 ^^^ st 20
  let t1 := st 1 ^^^ st 6 ^^^ st 11 ^^^ st 16 ^^^ st 21
  let t2 := st 2 ^^^ st 7 ^^^ st 12 ^^^ st 17 ^^^ st 22
  let t3 := st 3 ^^^ st 8 ^^^ st 13 ^^^ st 18 ^^^ st 23
  let t4 := st 4 ^^^ st 9 ^^^ st 14 ^^^ st 19 ^^^ st 24
  let st := xorLanes st [0, 5, 10, 15, 20] (t4 ^^^ rotl64PairDev t1 1)
  let st := xorLanes st [1, 6, 11, 16, 21] (t0 ^^^ rotl64PairDev t2 1)
  let st := xorLanes st [2, 7, 12, 17, 22] (t1 ^^^ rotl64PairDev t3 1)
  let st := xorLanes st [3, 8, 13, 18, 23] (t2 ^^^ rotl64PairDev t4 1)
  xorLanes st [4, 9, 14, 19, 24] (t3 ^^^ rotl64PairDev t0 1)

/-- `t[to] = rotl64_pair_dev(st[from], shift)` in the order of the source. -/
def pairScatter : List (Fin 25 × Fin 25 × ℕ) := [
  (10, 1, 1), (20, 2, 62), (5, 3, 28), (15, 4, 27),
  (16, 5, 36), (1, 6, 44), (11, 7, 6), (21, 8, 55), (6, 9, 20),
  (7, 10, 3), (17, 11, 10), (2, 12, 43), (12, 13, 25), (22, 14, 39),
  (23, 15, 41), (8, 16, 45), (18, 17, 15), (3, 18, 21), (13, 19, 8),
  (14, 20, 18), (24, 21, 2), (9, 22, 61), (19, 23, 56), (4, 24, 14)]

/-- The snapshot of rotated lanes; every lane of `t` is written. -/
def pairRhoPi (t st : State Uint2) : State Uint2 :=
  pairScatter.foldl (fun t write => put t write.1 (rotl64PairDev (st write.2.1) write.2.2))
    (put t 0 (st 0))

def keccakf1600PairChiDev (st : State Uint2) (row : ℕ) (t : State Uint2) : State Uint2 :=
  let t := fun i => t (lane (row + i))
  let st := put st (lane (row + 0)) (t 0 ^^^ (~~~t 1 &&& t 2))
  let st := put st (lane (row + 1)) (t 1 ^^^ (~~~t 2 &&& t 3))
  let st := put st (lane (row + 2)) (t 2 ^^^ (~~~t 3 &&& t 4))
  let st := put st (lane (row + 3)) (t 3 ^^^ (~~~t 4 &&& t 0))
  put st (lane (row + 4)) (t 4 ^^^ (~~~t 0 &&& t 1))

def keccakf1600PairRoundDev (st : State Uint2) (round : Fin 24) : State Uint2 :=
  let st := pairTheta st
  let t := pairRhoPi st st
  let st := keccakf1600PairChiDev st 0 t
  let st := put st 0 (st 0 ^^^ pairRndc.get round)
  let st := keccakf1600PairChiDev st 5 t
  let st := keccakf1600PairChiDev st 10 t
  let st := keccakf1600PairChiDev st 15 t
  keccakf1600PairChiDev st 20 t

def keccakf1600PairDev (st : State Uint2) : State Uint2 :=
  (List.finRange 24).foldl keccakf1600PairRoundDev st

/-- The rounds in place, or the function out of line. -/
def keccakf1600PairSelDev (inlinePair : Bool) (st : State Uint2) : State Uint2 :=
  if inlinePair then (List.finRange 24).foldl keccakf1600PairRoundDev st else keccakf1600PairDev st

/-! ## The hashes -/

def load32LeDev (input : ℕ → BitVec 8) : BitVec 32 :=
  (input 0).setWidth 32 ||| ((input 1).setWidth 32 <<< 8) ||| ((input 2).setWidth 32 <<< 16) |||
    ((input 3).setWidth 32 <<< 24)

def load64LeDev (input : ℕ → BitVec 8) : BitVec 64 :=
  (load32LeDev input).setWidth 64 ||| ((load32LeDev fun k => input (4 + k)).setWidth 64 <<< 32)

/-- Four bytes of an output from a place on. -/
def store32LeDev (output : ℕ → BitVec 8) (place : ℕ) (value : BitVec 32) : ℕ → BitVec 8 :=
  let output := Function.update output place (value.setWidth 8)
  let output := Function.update output (place + 1) ((value >>> 8).setWidth 8)
  let output := Function.update output (place + 2) ((value >>> 16).setWidth 8)
  Function.update output (place + 3) ((value >>> 24).setWidth 8)

def store64WordsLeDev (output : ℕ → BitVec 32) (lane : ℕ) (value : BitVec 64) : ℕ → BitVec 32 :=
  let output := Function.update output (lane * 2) (value.setWidth 32)
  Function.update output (lane * 2 + 1) ((value >>> 32).setWidth 32)

def storePairWordsDev (out : ℕ → BitVec 32) (lane : ℕ) (value : Uint2) : ℕ → BitVec 32 :=
  let out := Function.update out (lane * 2) value.x
  Function.update out (lane * 2 + 1) value.y

def keccak512HeaderNonceDev (headerHash : ℕ → BitVec 8) (nonce : BitVec 64)
    (out : ℕ → BitVec 32) : ℕ → BitVec 32 :=
  let st : State (BitVec 64) := fun _ => 0
  let st := (List.range 4).foldl
    (fun st i => put st (lane i) (load64LeDev fun k => headerHash (i * 8 + k))) st
  let st := put st 4 nonce
  let st := put st 5 0x0000000000000001
  let st := put st 8 0x8000000000000000
  let st := keccakf1600U64Dev st
  (List.range 8).foldl (fun out i => store64WordsLeDev out i (st (lane i))) out

def keccak512HeaderNoncePairDev (inlinePair : Bool) (headerHash : ℕ → BitVec 8)
    (nonce : BitVec 64) (out : ℕ → BitVec 32) : ℕ → BitVec 32 :=
  let st : State Uint2 := fun _ => ⟨0, 0⟩
  let st := (List.range 4).foldl
    (fun st i => put st (lane i) ⟨load32LeDev fun k => headerHash (i * 8 + k),
      load32LeDev fun k => headerHash (i * 8 + (4 + k))⟩) st
  let st := put st 4 ⟨nonce.setWidth 32, (nonce >>> 32).setWidth 32⟩
  let st := put st 5 ⟨0x00000001, 0x00000000⟩
  let st := put st 8 ⟨0x00000000, 0x80000000⟩
  let st := keccakf1600PairSelDev inlinePair st
  (List.range 8).foldl (fun out i => storePairWordsDev out i (st (lane i))) out

def keccak256SeedMixDev (seed mix : ℕ → BitVec 32) (out : ℕ → BitVec 8) : ℕ → BitVec 8 :=
  let st : State (BitVec 64) := fun _ => 0
  let st := (List.range 8).foldl (fun st i => put st (lane i)
    ((seed (i * 2)).setWidth 64 ||| ((seed (i * 2 + 1)).setWidth 64 <<< 32))) st
  let st := (List.range 4).foldl (fun st i => put st (lane (8 + i))
    ((mix (i * 2)).setWidth 64 ||| ((mix (i * 2 + 1)).setWidth 64 <<< 32))) st
  let st := put st 12 0x0000000000000001
  let st := put st 16 0x8000000000000000
  let st := keccakf1600U64Dev st
  (List.range 4).foldl (fun out i =>
    let out := store32LeDev out (i * 8) ((st (lane i)).setWidth 32)
    store32LeDev out (i * 8 + 4) ((st (lane i) >>> 32).setWidth 32)) out

def keccak256SeedMixPairDev (inlinePair : Bool) (seed mix : ℕ → BitVec 32)
    (out : ℕ → BitVec 8) : ℕ → BitVec 8 :=
  let st : State Uint2 := fun _ => ⟨0, 0⟩
  let st := (List.range 8).foldl
    (fun st i => put st (lane i) ⟨seed (i * 2), seed (i * 2 + 1)⟩) st
  let st := (List.range 4).foldl
    (fun st i => put st (lane (8 + i)) ⟨mix (i * 2), mix (i * 2 + 1)⟩) st
  let st := put st 12 ⟨0x00000001, 0x00000000⟩
  let st := put st 16 ⟨0x00000000, 0x80000000⟩
  let st := keccakf1600PairSelDev inlinePair st
  (List.range 4).foldl (fun out i =>
    let out := store32LeDev out (i * 8) (st (lane i)).x
    store32LeDev out (i * 8 + 4) (st (lane i)).y) out

/-! ## Both forms are the permutation -/

def u64Ops : LaneOps (BitVec 64) :=
  ⟨(· ^^^ ·), (· &&& ·), (~~~ ·), fun n v => rotl64Dev v n⟩

def pairOps : LaneOps Uint2 := ⟨(· ^^^ ·), (· &&& ·), (~~~ ·), fun n v => rotl64PairDev v n⟩

theorem rotl64Dev_zero (v : BitVec 64) : rotl64Dev v 0 = v := by
  rw [rotl64Dev, BitVec.shiftLeft_zero, Nat.sub_zero, BitVec.ushiftRight_eq_zero le_rfl,
    BitVec.or_zero]

theorem rotl64PairDev_zero (v : Uint2) : rotl64PairDev v 0 = v := rfl

theorem u64Theta_eq (st : State (BitVec 64)) : u64Theta st = theta u64Ops st := by
  funext k
  fin_cases k <;> rfl

theorem u64RhoPi_eq (st : State (BitVec 64)) : u64RhoPi st = rhoPi u64Ops st := by
  funext k
  fin_cases k
  · exact (rotl64Dev_zero (st 0)).symm
  all_goals rfl

theorem u64Chi_eq (st : State (BitVec 64)) : u64Chi st = chi u64Ops st := by
  funext k
  fin_cases k <;> rfl

theorem u64Round_eq (st : State (BitVec 64)) (r : Fin 24) :
    keccakf1600U64RoundDev st r = fullRound u64Ops (rndc.get r) st := by
  rw [keccakf1600U64RoundDev, u64Theta_eq, u64RhoPi_eq, u64Chi_eq]
  rfl

theorem pairTheta_eq (st : State Uint2) : pairTheta st = theta pairOps st := by
  funext k
  fin_cases k <;> rfl

/-- What was in the snapshot before does not matter. -/
theorem pairRhoPi_eq (t st : State Uint2) : pairRhoPi t st = rhoPi pairOps st := by
  funext k
  fin_cases k <;> rfl

theorem pairRound_eq (st : State Uint2) (r : Fin 24) :
    keccakf1600PairRoundDev st r = fullRound pairOps (pairRndc.get r) st := by
  rw [keccakf1600PairRoundDev, pairTheta_eq, pairRhoPi_eq]
  funext k
  fin_cases k <;> rfl

/-! ## Halves -/

/-- The low and the high half of a lane. -/
def halves (v : BitVec 64) : Uint2 := ⟨v.setWidth 32, (v >>> 32).setWidth 32⟩

/-- The bits of a rotated lane. -/
theorem getLsbD_rotl64Dev (v : BitVec 64) (n : ℕ) {i : ℕ} (hi : i < 64) :
    (rotl64Dev v n).getLsbD i = if i < n then v.getLsbD (64 - n + i) else v.getLsbD (i - n) :=
  getLsbD_rotate v hi

theorem getLsbD_halves_x (v : BitVec 64) (i : ℕ) :
    (halves v).x.getLsbD i = (decide (i < 32) && v.getLsbD i) := by
  rw [halves, BitVec.getLsbD_setWidth]

theorem getLsbD_halves_y (v : BitVec 64) (i : ℕ) :
    (halves v).y.getLsbD i = (decide (i < 32) && v.getLsbD (32 + i)) := by
  rw [halves, BitVec.getLsbD_setWidth, BitVec.getLsbD_ushiftRight]

theorem halves_rotl (n : ℕ) (hn : n < 64) (v : BitVec 64) :
    halves (rotl64Dev v n) = rotl64PairDev (halves v) n := by
  have hmask : n &&& 63 = n := by
    rw [show (63 : ℕ) = 2 ^ 6 - 1 from rfl, Nat.and_two_pow_sub_one_eq_mod, Nat.mod_eq_of_lt hn]
  -- A bit of a half comes from one of two places, by whether the rotation carried it around.
  have hlow {i : ℕ} (hi : i < 32) : (halves (rotl64Dev v n)).x.getLsbD i =
      if i < n then v.getLsbD (64 - n + i) else v.getLsbD (i - n) := by
    rw [getLsbD_halves_x, getLsbD_rotl64Dev v n (by omega), decide_eq_true hi, Bool.true_and]
  have hhigh {i : ℕ} (hi : i < 32) : (halves (rotl64Dev v n)).y.getLsbD i =
      if 32 + i < n then v.getLsbD (64 - n + (32 + i)) else v.getLsbD (32 + i - n) := by
    rw [getLsbD_halves_y, getLsbD_rotl64Dev v n (by omega), decide_eq_true hi, Bool.true_and]
  rw [rotl64PairDev]
  simp only [hmask]
  split_ifs with h0 h32 heq
  · rw [h0, rotl64Dev_zero]
  all_goals
    refine Uint2.ext (BitVec.eq_of_getLsbD_eq fun i hi => ?_)
      (BitVec.eq_of_getLsbD_eq fun i hi => ?_)
  all_goals
    first | rw [hlow hi] | rw [hhigh hi]
    simp only [BitVec.getLsbD_or, BitVec.getLsbD_shiftLeft, BitVec.getLsbD_ushiftRight,
      getLsbD_halves_x, getLsbD_halves_y]
    clear hlow hhigh hmask
    grind

/-- The halves of a lane that is joined from two words. -/
theorem halves_join (low high : BitVec 32) :
    halves (low.setWidth 64 ||| (high.setWidth 64 <<< 32)) = ⟨low, high⟩ :=
  Uint2.ext (low_join low high) (high_join low high)

theorem halves_hom : u64Ops.Hom pairOps halves where
  xor a b := by
    change (⟨(a ^^^ b).setWidth 32, ((a ^^^ b) >>> 32).setWidth 32⟩ : Uint2) = _
    rw [BitVec.ushiftRight_xor_distrib, BitVec.setWidth_xor, BitVec.setWidth_xor]
    rfl
  and a b := by
    change (⟨(a &&& b).setWidth 32, ((a &&& b) >>> 32).setWidth 32⟩ : Uint2) = _
    rw [BitVec.ushiftRight_and_distrib, BitVec.setWidth_and, BitVec.setWidth_and]
    rfl
  not a := by
    refine Uint2.ext (BitVec.eq_of_getLsbD_eq fun i hi => ?_)
      (BitVec.eq_of_getLsbD_eq fun i hi => ?_)
    · change (halves (~~~a)).x.getLsbD i = (~~~(halves a).x).getLsbD i
      rw [BitVec.getLsbD_not, getLsbD_halves_x, getLsbD_halves_x, BitVec.getLsbD_not]
      simp [hi, show i < 64 by omega]
    · change (halves (~~~a)).y.getLsbD i = (~~~(halves a).y).getLsbD i
      rw [BitVec.getLsbD_not, getLsbD_halves_y, getLsbD_halves_y, BitVec.getLsbD_not]
      simp [hi, show 32 + i < 64 by omega]
  rotl n hn v := halves_rotl n hn v

theorem halves_rndc (r : Fin 24) : halves (rndc.get r) = pairRndc.get r := by
  revert r
  decide

/-- **A round on halves.** -/
theorem pairRound_halves (st : State (BitVec 64)) (r : Fin 24) :
    keccakf1600PairRoundDev (halves ∘ st) r = halves ∘ keccakf1600U64RoundDev st r := by
  rw [pairRound_eq, u64Round_eq, ← halves_rndc, fullRound_map halves_hom]

theorem pairSel_halves (inlinePair : Bool) (st : State (BitVec 64)) :
    keccakf1600PairSelDev inlinePair (halves ∘ st) = halves ∘ keccakf1600U64Dev st := by
  have hrounds : (List.finRange 24).foldl keccakf1600PairRoundDev (halves ∘ st) =
      halves ∘ keccakf1600U64Dev st :=
    List.foldl_hom (halves ∘ ·) fun st r => pairRound_halves st r
  cases inlinePair <;> exact hrounds

/-! ## The hashes agree -/

theorem halves_zero : (fun _ => ⟨0, 0⟩ : State Uint2) = halves ∘ fun _ => 0 := by
  have hzero : (⟨0, 0⟩ : Uint2) = halves 0 := by decide
  rw [hzero]
  rfl

/-- Lanes that are written one after the other. -/
theorem foldl_put_halves (lanes : List ℕ) (at' : ℕ → Fin 25) (v : ℕ → BitVec 64)
    (w : ℕ → Uint2) (hw : ∀ i, w i = halves (v i)) (st : State (BitVec 64)) :
    lanes.foldl (fun st i => put st (at' i) (w i)) (halves ∘ st) =
      halves ∘ lanes.foldl (fun st i => put st (at' i) (v i)) st :=
  List.foldl_hom (halves ∘ ·) fun st i => by rw [hw, put_map]

theorem keccak512_eq (inlinePair : Bool) (headerHash : ℕ → BitVec 8) (nonce : BitVec 64)
    (out : ℕ → BitVec 32) :
    keccak512HeaderNoncePairDev inlinePair headerHash nonce out =
      keccak512HeaderNonceDev headerHash nonce out := by
  have hnonce : (⟨nonce.setWidth 32, (nonce >>> 32).setWidth 32⟩ : Uint2) = halves nonce := rfl
  have hone : (⟨0x00000001, 0x00000000⟩ : Uint2) = halves 0x0000000000000001 := by decide
  have hlast : (⟨0x00000000, 0x80000000⟩ : Uint2) = halves 0x8000000000000000 := by decide
  simp only [keccak512HeaderNoncePairDev, keccak512HeaderNonceDev, halves_zero, hnonce, hone, hlast,
    foldl_put_halves _ _ (fun i => load64LeDev fun k => headerHash (i * 8 + k)) _
      fun i => (halves_join _ _).symm, put_map, pairSel_halves]
  rfl

theorem keccak256_eq (inlinePair : Bool) (seed mix : ℕ → BitVec 32) (out : ℕ → BitVec 8) :
    keccak256SeedMixPairDev inlinePair seed mix out = keccak256SeedMixDev seed mix out := by
  have hone : (⟨0x00000001, 0x00000000⟩ : Uint2) = halves 0x0000000000000001 := by decide
  have hlast : (⟨0x00000000, 0x80000000⟩ : Uint2) = halves 0x8000000000000000 := by decide
  have hwords (words : ℕ → BitVec 32) (i : ℕ) : (⟨words (i * 2), words (i * 2 + 1)⟩ : Uint2) =
      halves ((words (i * 2)).setWidth 64 ||| ((words (i * 2 + 1)).setWidth 64 <<< 32)) :=
    (halves_join _ _).symm
  simp only [keccak256SeedMixPairDev, keccak256SeedMixDev, halves_zero, hone, hlast,
    foldl_put_halves _ _ _ _ (hwords _), put_map, pairSel_halves]
  rfl

/-- **Paired-lane Keccak is 64-bit Keccak**: a round on halves yields the halves of a round, so do
the 24 rounds in either selection, and the seed and the final hash are the same. -/
theorem pair_keccak :
    (∀ (st : State (BitVec 64)) (round : Fin 24),
      keccakf1600PairRoundDev (halves ∘ st) round = halves ∘ keccakf1600U64RoundDev st round) ∧
    (∀ st : State (BitVec 64), keccakf1600PairDev (halves ∘ st) = halves ∘ keccakf1600U64Dev st) ∧
    (∀ (inlinePair : Bool) (headerHash : ℕ → BitVec 8) (nonce : BitVec 64) (out : ℕ → BitVec 32),
      keccak512HeaderNoncePairDev inlinePair headerHash nonce out =
        keccak512HeaderNonceDev headerHash nonce out) ∧
    ∀ (inlinePair : Bool) (seed mix : ℕ → BitVec 32) (out : ℕ → BitVec 8),
      keccak256SeedMixPairDev inlinePair seed mix out = keccak256SeedMixDev seed mix out :=
  ⟨pairRound_halves, pairSel_halves false, keccak512_eq, keccak256_eq⟩

end MoMiner.Etchash
