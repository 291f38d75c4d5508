import MoMiner.Lib.Keccak
import Mathlib.Data.Fintype.Basic
import Mathlib.Tactic.FinCases
import Mathlib.Tactic.IntervalCases

/-!
# The packed SHA3 of WalaHash

WalaHash hashes 32 bytes with SHA3-256. The plain form has 64-bit lanes. The packed form keeps the
even and the odd bits of a lane in two words; without ESIMD it also keeps six lanes complemented
between rounds and cuts the last round down to the lanes of the digest, as the plain form with 23
full rounds does.

**Main results.** Packing and unpacking are inverse, a packed round is a round, and all forms give
the same 32 bytes (`packed_sha3`).
-/

namespace MoMiner.WalaHash.Sha3

open MoMiner.Keccak

/-! ## 64-bit lanes -/

def rotl64 (v : BitVec 64) (n : ℕ) : BitVec 64 := (v <<< n) ||| (v >>> (64 - n))

def sha3RcWords : Array (BitVec 64) := #[
  0x1, 0x8082, 0x800000000000808a, 0x8000000080008000, 0x808b, 0x80000001,
  0x8000000080008081, 0x8000000000008009, 0x8a, 0x88, 0x80008009, 0x8000000a,
  0x8000808b, 0x800000000000008b, 0x8000000000008089, 0x8000000000008003,
  0x8000000000008002, 0x8000000000000080, 0x800a, 0x800000008000000a,
  0x8000000080008081, 0x8000000000008080, 0x80000001, 0x8000000080008008]

theorem sha3RcWords_size : sha3RcWords.size = 24 := rfl

def sha3Rc : Vector (BitVec 64) 24 := ⟨sha3RcWords, sha3RcWords_size⟩

local instance sha3LaneNeZero : NeZero 25 := ⟨Nat.succ_ne_zero 24⟩

def lane (k : ℕ) : Fin 25 := Fin.ofNat 25 k

def sha3Columns {L : Type} [XorOp L] (st : State L) : ℕ → L
  | 0 => st 0 ^^^ st 5 ^^^ st 10 ^^^ st 15 ^^^ st 20
  | 1 => st 1 ^^^ st 6 ^^^ st 11 ^^^ st 16 ^^^ st 21
  | 2 => st 2 ^^^ st 7 ^^^ st 12 ^^^ st 17 ^^^ st 22
  | 3 => st 3 ^^^ st 8 ^^^ st 13 ^^^ st 18 ^^^ st 23
  | _ => st 4 ^^^ st 9 ^^^ st 14 ^^^ st 19 ^^^ st 24

/-- `st[k] ^= u` for some lanes. -/
def xorLanes {L : Type} [XorOp L] (st : State L) (lanes : List (Fin 25)) (u : L) : State L :=
  lanes.foldl (fun st k => put st k (st k ^^^ u)) st

def sha3Theta (st : State (BitVec 64)) : State (BitVec 64) :=
  let b := sha3Columns st
  (List.range 5).foldl (fun st i =>
    let t := b ((i + 4) % 5) ^^^ rotl64 (b ((i + 1) % 5)) 1
    xorLanes st [lane i, lane (i + 5), lane (i + 10), lane (i + 15), lane (i + 20)] t) st

/-- The lines `st[to] = rotl64(st[from], n)` in turn; the same lines stand in the packed round. -/
def rhoPiLines : List (Fin 25 × Fin 25 × ℕ) := [
  (1, 6, 44), (6, 9, 20), (9, 22, 61), (22, 14, 39), (14, 20, 18), (20, 2, 62), (2, 12, 43),
  (12, 13, 25), (13, 19, 8), (19, 23, 56), (23, 15, 41), (15, 4, 27), (4, 24, 14), (24, 21, 2),
  (21, 8, 55), (8, 16, 45), (16, 5, 36), (5, 3, 28), (3, 18, 21), (18, 17, 15), (17, 11, 10),
  (11, 7, 6), (7, 10, 3)]

/-- The lines in place, and the saved lane last. -/
def rhoPiInPlace {L : Type} (rotl : L → ℕ → L) (st : State L) : State L :=
  let t := st 1
  let st := rhoPiLines.foldl (fun st line => put st line.1 (rotl (st line.2.1) line.2.2)) st
  put st 10 (rotl t 1)

/-- Chi in place, row by row, where the lines of the source are a table: the line of a lane gets the
lane and the two lanes after it in its row. The first two lanes of a row are saved. -/
def chiInPlace {L : Type} (line : Fin 25 → L → L → L → L) (st : State L) : State L :=
  [0, 5, 10, 15, 20].foldl (fun st j =>
    let b0 := st (lane j)
    let b1 := st (lane (j + 1))
    let st := put st (lane j) (line (lane j) (st (lane j)) (st (lane (j + 1))) (st (lane (j + 2))))
    let st := put st (lane (j + 1))
      (line (lane (j + 1)) (st (lane (j + 1))) (st (lane (j + 2))) (st (lane (j + 3))))
    let st := put st (lane (j + 2))
      (line (lane (j + 2)) (st (lane (j + 2))) (st (lane (j + 3))) (st (lane (j + 4))))
    let st := put st (lane (j + 3))
      (line (lane (j + 3)) (st (lane (j + 3))) (st (lane (j + 4))) b0)
    put st (lane (j + 4)) (line (lane (j + 4)) (st (lane (j + 4))) b0 b1)) st

/-- `st[j] ^= (~st[j + 1]) & st[j + 2]` and so on. -/
def sha3Chi (st : State (BitVec 64)) : State (BitVec 64) :=
  chiInPlace (fun _ x y z => x ^^^ (~~~y &&& z)) st

/-- The body of the loop of `sha3f`. -/
def sha3fRound (st : State (BitVec 64)) (r : Fin 24) : State (BitVec 64) :=
  let st := sha3Chi (rhoPiInPlace rotl64 (sha3Theta st))
  put st 0 (st 0 ^^^ sha3Rc.get r)

/-- The four lanes of the digest from the row that chi starts from. -/
def sha3fDigest (st : State (BitVec 64)) (x0 x1 x2 x3 x4 : BitVec 64) : State (BitVec 64) :=
  let st := put st 0 (x0 ^^^ (~~~x1 &&& x2) ^^^ sha3Rc.get 23)
  let st := put st 1 (x1 ^^^ (~~~x2 &&& x3))
  let st := put st 2 (x2 ^^^ (~~~x3 &&& x4))
  put st 3 (x3 ^^^ (~~~x4 &&& x0))

/-- The last round for these four lanes only. -/
def sha3fLast (st : State (BitVec 64)) : State (BitVec 64) :=
  let c := sha3Columns st
  let x0 := st 0 ^^^ c 4 ^^^ rotl64 (c 1) 1
  let x1 := rotl64 (st 6 ^^^ c 0 ^^^ rotl64 (c 2) 1) 44
  let x2 := rotl64 (st 12 ^^^ c 1 ^^^ rotl64 (c 3) 1) 43
  let x3 := rotl64 (st 18 ^^^ c 2 ^^^ rotl64 (c 4) 1) 21
  let x4 := rotl64 (st 24 ^^^ c 3 ^^^ rotl64 (c 0) 1) 14
  sha3fDigest st x0 x1 x2 x3 x4

/-- `sha3f<24>` and `sha3f<23>`. -/
def sha3f (st : State (BitVec 64)) : State (BitVec 64) := (List.finRange 24).foldl sha3fRound st

def sha3f23 (st : State (BitVec 64)) : State (BitVec 64) :=
  sha3fLast (((List.finRange 24).take 23).foldl sha3fRound st)

def load64le (p : ℕ → BitVec 8) : BitVec 64 :=
  (List.range 8).foldl (fun v i => v ||| ((p i).setWidth 64 <<< (8 * i))) 0

def sha3_256 (input : ℕ → BitVec 8) : Fin 32 → BitVec 8 :=
  let st : State (BitVec 64) := fun _ => 0
  let st := (List.range 4).foldl
    (fun st i => put st (lane i) (load64le fun k => input (8 * i + k))) st
  let st := put st 4 (st 4 ^^^ 0x06)
  let st := put st 16 (st 16 ^^^ 0x8000000000000000)
  let st := sha3f st
  fun i => (st (lane (i / 8)) >>> (8 * (i.val % 8))).setWidth 8

/-- The four words pairs of a buffer after a state. -/
def sha3Words64 (io : ℕ → BitVec 32) : ℕ → BitVec 32 :=
  let st : State (BitVec 64) := fun _ => 0
  let st := (List.range 4).foldl (fun st i => put st (lane i)
    ((io (2 * i)).setWidth 64 ||| ((io (2 * i + 1)).setWidth 64 <<< 32))) st
  let st := put st 4 0x06
  let st := put st 16 0x8000000000000000
  let st := sha3f23 st
  (List.range 4).foldl (fun io i =>
    let io := Function.update io (2 * i) ((st (lane i)).setWidth 32)
    Function.update io (2 * i + 1) ((st (lane i) >>> 32).setWidth 32)) io

/-! ## Packed lanes -/

@[ext]
structure KeccakWord where
  lo : BitVec 32
  hi : BitVec 32
  deriving DecidableEq

instance KeccakWord.instXor : XorOp KeccakWord := ⟨fun a b => ⟨a.lo ^^^ b.lo, a.hi ^^^ b.hi⟩⟩

instance KeccakWord.instAnd : AndOp KeccakWord := ⟨fun a b => ⟨a.lo &&& b.lo, a.hi &&& b.hi⟩⟩

instance KeccakWord.instOr : OrOp KeccakWord := ⟨fun a b => ⟨a.lo ||| b.lo, a.hi ||| b.hi⟩⟩

instance KeccakWord.instNot : Complement KeccakWord := ⟨fun a => ⟨~~~a.lo, ~~~a.hi⟩⟩

def keccakChi (a b c : KeccakWord) : KeccakWord := a ^^^ (~~~b &&& c)

def keccakRotl (a : KeccakWord) (n : ℕ) : KeccakWord :=
  if n &&& 1 = 0 then ⟨a.lo.rotateLeft (n / 2), a.hi.rotateLeft (n / 2)⟩
  else ⟨a.hi.rotateLeft ((n + 1) / 2), a.lo.rotateLeft (n / 2)⟩

def keccakCompact (x : BitVec 32) : BitVec 32 :=
  let x := x &&& 0x55555555
  let x := (x ||| (x >>> 1)) &&& 0x33333333
  let x := (x ||| (x >>> 2)) &&& 0x0f0f0f0f
  let x := (x ||| (x >>> 4)) &&& 0x00ff00ff
  (x ||| (x >>> 8)) &&& 0xffff

def keccakExpand (x : BitVec 32) : BitVec 32 :=
  let x := x &&& 0xffff
  let x := (x ||| (x <<< 8)) &&& 0x00ff00ff
  let x := (x ||| (x <<< 4)) &&& 0x0f0f0f0f
  let x := (x ||| (x <<< 2)) &&& 0x33333333
  (x ||| (x <<< 1)) &&& 0x55555555

def keccakPack (lo hi : BitVec 32) : KeccakWord :=
  ⟨keccakCompact lo ||| (keccakCompact hi <<< 16),
    keccakCompact (lo >>> 1) ||| (keccakCompact (hi >>> 1) <<< 16)⟩

/-- The words `lo` and `hi`. -/
def keccakUnpack (a : KeccakWord) : BitVec 32 × BitVec 32 :=
  (keccakExpand a.lo ||| (keccakExpand a.hi <<< 1),
    keccakExpand (a.lo >>> 16) ||| (keccakExpand (a.hi >>> 16) <<< 1))

def keccakRcLo : Vector (BitVec 32) 24 := #v[
  1, 0, 0, 0, 1, 1, 1, 1, 0, 0, 1, 0, 1, 1, 1, 1, 0, 0, 0, 0, 1, 0, 1, 0]

def keccakRcHi : Vector (BitVec 32) 24 := #v[
  0, 0x89, 0x8000008b, 0x80008080, 0x8b, 0x8000, 0x80008088, 0x80000082,
  0xb, 0xa, 0x8082, 0x8003, 0x808b, 0x8000000b, 0x8000008a, 0x80000081,
  0x80000081, 0x80000008, 0x83, 0x80008003, 0x80008088, 0x80000088, 0x8000, 0x80008082]

def keccakRc (r : Fin 24) : KeccakWord := ⟨keccakRcLo.get r, keccakRcHi.get r⟩

def keccakTheta (a : State KeccakWord) : State KeccakWord :=
  let c := sha3Columns a
  let d0 := c 4 ^^^ keccakRotl (c 1) 1
  let d1 := c 0 ^^^ keccakRotl (c 2) 1
  let d2 := c 1 ^^^ keccakRotl (c 3) 1
  let d3 := c 2 ^^^ keccakRotl (c 4) 1
  let d4 := c 3 ^^^ keccakRotl (c 0) 1
  let a := xorLanes a [0, 5, 10, 15, 20] d0
  let a := xorLanes a [1, 6, 11, 16, 21] d1
  let a := xorLanes a [2, 7, 12, 17, 22] d2
  let a := xorLanes a [3, 8, 13, 18, 23] d3
  xorLanes a [4, 9, 14, 19, 24] d4

/-- The lines of chi with ESIMD. -/
def keccakChiEsimd (a : State KeccakWord) : State KeccakWord := chiInPlace (fun _ => keccakChi) a

/-- The lines of chi where lanes 1, 2, 8, 12, 17 and 20 are kept complemented. -/
def maskedLines : Fin 25 → KeccakWord → KeccakWord → KeccakWord → KeccakWord := ![
  fun x y z => x ^^^ (y ||| z),
  fun x y z => x ^^^ (~~~y ||| z),
  fun x y z => x ^^^ (y &&& z),
  fun x y z => x ^^^ (y ||| z),
  fun x y z => x ^^^ (y &&& z),
  fun x y z => x ^^^ (y ||| z),
  fun x y z => x ^^^ (y &&& z),
  fun x y z => x ^^^ (y ||| ~~~z),
  fun x y z => x ^^^ (y ||| z),
  fun x y z => x ^^^ (y &&& z),
  fun x y z => x ^^^ (y ||| z),
  fun x y z => x ^^^ (y &&& z),
  fun x y z => x ^^^ (~~~y &&& z),
  fun x y z => ~~~x ^^^ (y ||| z),
  fun x y z => x ^^^ (y &&& z),
  fun x y z => x ^^^ (y &&& z),
  fun x y z => x ^^^ (y ||| z),
  fun x y z => x ^^^ (~~~y ||| z),
  fun x y z => ~~~x ^^^ (y &&& z),
  fun x y z => x ^^^ (y ||| z),
  fun x y z => x ^^^ (~~~y &&& z),
  fun x y z => ~~~x ^^^ (y ||| z),
  fun x y z => x ^^^ (y &&& z),
  fun x y z => x ^^^ (y ||| z),
  fun x y z => x ^^^ (y &&& z)]

def keccakChiMasked (a : State KeccakWord) : State KeccakWord := chiInPlace maskedLines a

def keccakRound (esimd : Bool) (a : State KeccakWord) (rc : KeccakWord) : State KeccakWord :=
  let a := rhoPiInPlace keccakRotl (keccakTheta a)
  let a := if esimd then keccakChiEsimd a else keccakChiMasked a
  put a 0 (a 0 ^^^ rc)

def sha3WordsInit (a : State KeccakWord) (io : ℕ → BitVec 32) : State KeccakWord :=
  let ones : KeccakWord := ⟨0xffffffff, 0xffffffff⟩
  let a := put a 0 (keccakPack (io 0) (io 1))
  let a := put a 1 (~~~keccakPack (io 2) (io 3))
  let a := put a 2 (~~~keccakPack (io 4) (io 5))
  let a := put a 3 (keccakPack (io 6) (io 7))
  let a := put a 4 ⟨2, 1⟩
  let a := put a 8 ones
  let a := put a 12 ones
  let a := put a 16 ⟨0, 0x80000000⟩
  let a := put a 17 ones
  put a 20 ones

/-- The first four lanes, unpacked into the buffer. -/
def unpackDigest (a : State KeccakWord) (io : ℕ → BitVec 32) : ℕ → BitVec 32 :=
  (List.range 4).foldl (fun io i =>
    let io := Function.update io (2 * i) (keccakUnpack (a (lane i))).1
    Function.update io (2 * i + 1) (keccakUnpack (a (lane i))).2) io

/-- The four lanes of the digest from a row with lanes 0, 2 and 3 complemented. -/
def maskedDigest (a : State KeccakWord) (x0 x1 x2 x3 x4 : KeccakWord) : State KeccakWord :=
  let a := put a 0 (x0 ^^^ (x1 ||| x2) ^^^ keccakRc 23)
  let a := put a 1 (~~~(x1 ^^^ (~~~x2 ||| x3)))
  let a := put a 2 (~~~(x2 ^^^ (x3 &&& x4)))
  put a 3 (x3 ^^^ (x4 ||| x0))

def sha3WordsFinish (a : State KeccakWord) (io : ℕ → BitVec 32) : ℕ → BitVec 32 :=
  let c := sha3Columns a
  let x0 := a 0 ^^^ c 4 ^^^ keccakRotl (c 1) 1
  let x1 := keccakRotl (a 6 ^^^ c 0 ^^^ keccakRotl (c 2) 1) 44
  let x2 := keccakRotl (a 12 ^^^ c 1 ^^^ keccakRotl (c 3) 1) 43
  let x3 := keccakRotl (a 18 ^^^ c 2 ^^^ keccakRotl (c 4) 1) 21
  let x4 := keccakRotl (a 24 ^^^ c 3 ^^^ keccakRotl (c 0) 1) 14
  unpackDigest (maskedDigest a x0 x1 x2 x3 x4) io

/-- `sha3_words`, with ESIMD or without. -/
def sha3Words (esimd : Bool) (io : ℕ → BitVec 32) : ℕ → BitVec 32 :=
  let a : State KeccakWord := fun _ => ⟨0, 0⟩
  if esimd then
    let a := put a 0 (keccakPack (io 0) (io 1))
    let a := put a 1 (keccakPack (io 2) (io 3))
    let a := put a 2 (keccakPack (io 4) (io 5))
    let a := put a 3 (keccakPack (io 6) (io 7))
    let a := put a 4 ⟨2, 1⟩
    let a := put a 16 ⟨0, 0x80000000⟩
    let a := (List.finRange 24).foldl (fun a r => keccakRound true a (keccakRc r)) a
    unpackDigest a io
  else
    let a := sha3WordsInit a io
    let a := ((List.finRange 24).take 23).foldl (fun a r => keccakRound false a (keccakRc r)) a
    sha3WordsFinish a io

/-! ## Bits of packed lanes -/

/-- The packed form of a lane. -/
def pack64 (v : BitVec 64) : KeccakWord := keccakPack (v.setWidth 32) ((v >>> 32).setWidth 32)

theorem KeccakWord.ext_bits {a b : KeccakWord} (hlo : ∀ i < 32, a.lo.getLsbD i = b.lo.getLsbD i)
    (hhi : ∀ i < 32, a.hi.getLsbD i = b.hi.getLsbD i) : a = b :=
  KeccakWord.ext (BitVec.eq_of_getLsbD_eq hlo) (BitVec.eq_of_getLsbD_eq hhi)

theorem getLsbD_compact (x : BitVec 32) {j : ℕ} (hj : j < 32) :
    (keccakCompact x).getLsbD j = (decide (j < 16) && x.getLsbD (2 * j)) := by
  interval_cases j <;> simp [keccakCompact]

theorem getLsbD_expand (x : BitVec 32) {j : ℕ} (hj : j < 32) :
    (keccakExpand x).getLsbD j = (decide (j % 2 = 0) && x.getLsbD (j / 2)) := by
  interval_cases j <;> simp [keccakExpand]

/-- The even bits of two words. -/
theorem getLsbD_pack_lo (lo hi : BitVec 32) {j : ℕ} (hj : j < 32) :
    (keccakPack lo hi).lo.getLsbD j =
      if j < 16 then lo.getLsbD (2 * j) else hi.getLsbD (2 * j - 32) := by
  simp only [keccakPack, BitVec.getLsbD_or, BitVec.getLsbD_shiftLeft, getLsbD_compact _ hj,
    getLsbD_compact _ (show j - 16 < 32 by omega), hj, decide_true, Bool.true_and]
  split_ifs with h
  · simp [h]
  · simp [h, show j - 16 < 16 by omega, show 2 * (j - 16) = 2 * j - 32 by omega]

/-- The odd bits of two words. -/
theorem getLsbD_pack_hi (lo hi : BitVec 32) {j : ℕ} (hj : j < 32) :
    (keccakPack lo hi).hi.getLsbD j =
      if j < 16 then lo.getLsbD (2 * j + 1) else hi.getLsbD (2 * j + 1 - 32) := by
  have hshift : (keccakPack lo hi).hi = (keccakPack (lo >>> 1) (hi >>> 1)).lo := rfl
  rw [hshift, getLsbD_pack_lo _ _ hj, BitVec.getLsbD_ushiftRight, BitVec.getLsbD_ushiftRight,
    Nat.add_comm 1, Nat.add_comm 1]
  split_ifs with h
  · rfl
  · rw [show 2 * j - 32 + 1 = 2 * j + 1 - 32 by omega]

theorem getLsbD_unpack_fst (a : KeccakWord) {i : ℕ} (hi : i < 32) :
    (keccakUnpack a).1.getLsbD i =
      if i % 2 = 0 then a.lo.getLsbD (i / 2) else a.hi.getLsbD (i / 2) := by
  simp only [keccakUnpack, BitVec.getLsbD_or, BitVec.getLsbD_shiftLeft, getLsbD_expand _ hi,
    getLsbD_expand _ (show i - 1 < 32 by omega), hi, decide_true, Bool.true_and]
  split_ifs with h
  · have hodd : i < 1 ∨ (i - 1) % 2 ≠ 0 := by omega
    rcases hodd with hodd | hodd <;> simp [h, hodd]
  · simp [h, show ¬ i < 1 by omega, show (i - 1) % 2 = 0 by omega,
      show (i - 1) / 2 = i / 2 by omega]

theorem getLsbD_unpack_snd (a : KeccakWord) {i : ℕ} (hi : i < 32) :
    (keccakUnpack a).2.getLsbD i =
      if i % 2 = 0 then a.lo.getLsbD (16 + i / 2) else a.hi.getLsbD (16 + i / 2) := by
  have hshift : (keccakUnpack a).2 = (keccakUnpack ⟨a.lo >>> 16, a.hi >>> 16⟩).1 := rfl
  rw [hshift, getLsbD_unpack_fst _ hi, BitVec.getLsbD_ushiftRight, BitVec.getLsbD_ushiftRight]

/-- **Unpacking undoes packing.** -/
theorem unpack_pack (lo hi : BitVec 32) : keccakUnpack (keccakPack lo hi) = (lo, hi) := by
  refine Prod.ext (BitVec.eq_of_getLsbD_eq fun i hlt => ?_)
    (BitVec.eq_of_getLsbD_eq fun i hlt => ?_)
  · rw [getLsbD_unpack_fst _ hlt, getLsbD_pack_lo _ _ (by omega), getLsbD_pack_hi _ _ (by omega)]
    grind
  · rw [getLsbD_unpack_snd _ hlt, getLsbD_pack_lo _ _ (by omega), getLsbD_pack_hi _ _ (by omega)]
    grind

/-- **Packing undoes unpacking.** -/
theorem pack_unpack (a : KeccakWord) : keccakPack (keccakUnpack a).1 (keccakUnpack a).2 = a := by
  refine KeccakWord.ext_bits (fun j hj => ?_) (fun j hj => ?_)
  · rw [getLsbD_pack_lo _ _ hj]
    split_ifs with h
    · rw [getLsbD_unpack_fst _ (by omega), if_pos (by omega), show 2 * j / 2 = j by omega]
    · rw [getLsbD_unpack_snd _ (by omega), if_pos (by omega),
        show 16 + (2 * j - 32) / 2 = j by omega]
  · rw [getLsbD_pack_hi _ _ hj]
    split_ifs with h
    · rw [getLsbD_unpack_fst _ (by omega), if_neg (by omega), show (2 * j + 1) / 2 = j by omega]
    · rw [getLsbD_unpack_snd _ (by omega), if_neg (by omega),
        show 16 + (2 * j + 1 - 32) / 2 = j by omega]

theorem getLsbD_pack64_lo (v : BitVec 64) {j : ℕ} (hj : j < 32) :
    (pack64 v).lo.getLsbD j = v.getLsbD (2 * j) := by
  rw [pack64, getLsbD_pack_lo _ _ hj]
  split_ifs with h
  · simp [show 2 * j < 32 by omega]
  · simp [show 2 * j - 32 < 32 by omega, show 32 + (2 * j - 32) = 2 * j by omega]

theorem getLsbD_pack64_hi (v : BitVec 64) {j : ℕ} (hj : j < 32) :
    (pack64 v).hi.getLsbD j = v.getLsbD (2 * j + 1) := by
  rw [pack64, getLsbD_pack_hi _ _ hj]
  split_ifs with h
  · simp [show 2 * j + 1 < 32 by omega]
  · rw [BitVec.getLsbD_setWidth, BitVec.getLsbD_ushiftRight,
      decide_eq_true (show 2 * j + 1 - 32 < 32 by omega), Bool.true_and,
      show 32 + (2 * j + 1 - 32) = 2 * j + 1 by omega]

/-! ## The operations -/

def wordOps : LaneOps (BitVec 64) := ⟨(· ^^^ ·), (· &&& ·), (~~~ ·), fun n v => rotl64 v n⟩

def packedOps : LaneOps KeccakWord := ⟨(· ^^^ ·), (· &&& ·), (~~~ ·), fun n a => keccakRotl a n⟩

theorem rotl64_zero (v : BitVec 64) : rotl64 v 0 = v := by
  rw [rotl64, BitVec.shiftLeft_zero, Nat.sub_zero, BitVec.ushiftRight_eq_zero le_rfl,
    BitVec.or_zero]

theorem getLsbD_rotl64 (v : BitVec 64) (n : ℕ) {i : ℕ} (hi : i < 64) :
    (rotl64 v n).getLsbD i = if i < n then v.getLsbD (64 - n + i) else v.getLsbD (i - n) :=
  getLsbD_rotate v hi

/-- The bits of a rotated word, also for a full turn. -/
theorem getLsbD_rotateLeft_of_le (x : BitVec 32) {m j : ℕ} (hm : m ≤ 32) (hj : j < 32) :
    (x.rotateLeft m).getLsbD j =
      if j < m then x.getLsbD (32 - m + j) else x.getLsbD (j - m) := by
  rw [BitVec.getLsbD_rotateLeft, decide_eq_true hj, Bool.true_and]
  rcases Nat.lt_or_eq_of_le hm with hlt | rfl
  · rw [Nat.mod_eq_of_lt hlt, Bool.cond_decide]
  · simp [hj]

theorem pack64_rotl (n : ℕ) (hn : n < 64) (v : BitVec 64) :
    pack64 (rotl64 v n) = keccakRotl (pack64 v) n := by
  have hparity : n &&& 1 = n % 2 := Nat.and_one_is_mod n
  rw [keccakRotl, hparity]
  split_ifs with heven <;> refine KeccakWord.ext_bits (fun j hj => ?_) (fun j hj => ?_)
  · rw [getLsbD_pack64_lo _ hj, getLsbD_rotl64 _ _ (by omega),
      getLsbD_rotateLeft_of_le _ (by omega) hj]
    split_ifs with hwrap hhalf hhalf
    · rw [getLsbD_pack64_lo _ (by omega), show 2 * (32 - n / 2 + j) = 64 - n + 2 * j by omega]
    · omega
    · omega
    · rw [getLsbD_pack64_lo _ (by omega), show 2 * (j - n / 2) = 2 * j - n by omega]
  · rw [getLsbD_pack64_hi _ hj, getLsbD_rotl64 _ _ (by omega),
      getLsbD_rotateLeft_of_le _ (by omega) hj]
    split_ifs with hwrap hhalf hhalf
    · rw [getLsbD_pack64_hi _ (by omega),
        show 2 * (32 - n / 2 + j) + 1 = 64 - n + (2 * j + 1) by omega]
    · omega
    · omega
    · rw [getLsbD_pack64_hi _ (by omega), show 2 * (j - n / 2) + 1 = 2 * j + 1 - n by omega]
  -- An odd rotation takes odd bits to even ones.
  · rw [getLsbD_pack64_lo _ hj, getLsbD_rotl64 _ _ (by omega),
      getLsbD_rotateLeft_of_le _ (by omega) hj]
    split_ifs with hwrap hhalf hhalf
    · rw [getLsbD_pack64_hi _ (by omega),
        show 2 * (32 - (n + 1) / 2 + j) + 1 = 64 - n + 2 * j by omega]
    · omega
    · omega
    · rw [getLsbD_pack64_hi _ (by omega), show 2 * (j - (n + 1) / 2) + 1 = 2 * j - n by omega]
  · rw [getLsbD_pack64_hi _ hj, getLsbD_rotl64 _ _ (by omega),
      getLsbD_rotateLeft_of_le _ (by omega) hj]
    split_ifs with hwrap hhalf hhalf
    · rw [getLsbD_pack64_lo _ (by omega),
        show 2 * (32 - n / 2 + j) = 64 - n + (2 * j + 1) by omega]
    · omega
    · omega
    · rw [getLsbD_pack64_lo _ (by omega), show 2 * (j - n / 2) = 2 * j + 1 - n by omega]

theorem pack64_hom : wordOps.Hom packedOps pack64 where
  xor a b := by
    change pack64 (a ^^^ b) = ⟨(pack64 a).lo ^^^ (pack64 b).lo, (pack64 a).hi ^^^ (pack64 b).hi⟩
    refine KeccakWord.ext_bits (fun j hj => ?_) (fun j hj => ?_)
    · simp only [BitVec.getLsbD_xor, getLsbD_pack64_lo _ hj]
    · simp only [BitVec.getLsbD_xor, getLsbD_pack64_hi _ hj]
  and a b := by
    change pack64 (a &&& b) = ⟨(pack64 a).lo &&& (pack64 b).lo, (pack64 a).hi &&& (pack64 b).hi⟩
    refine KeccakWord.ext_bits (fun j hj => ?_) (fun j hj => ?_)
    · simp only [BitVec.getLsbD_and, getLsbD_pack64_lo _ hj]
    · simp only [BitVec.getLsbD_and, getLsbD_pack64_hi _ hj]
  not a := by
    change pack64 (~~~a) = ⟨~~~(pack64 a).lo, ~~~(pack64 a).hi⟩
    refine KeccakWord.ext_bits (fun j hj => ?_) (fun j hj => ?_)
    · simp only [BitVec.getLsbD_not, getLsbD_pack64_lo _ hj, hj, show 2 * j < 64 by omega]
    · simp only [BitVec.getLsbD_not, getLsbD_pack64_hi _ hj, hj, show 2 * j + 1 < 64 by omega]
  rotl n hn v := pack64_rotl n hn v

theorem pack64_rc (r : Fin 24) : pack64 (sha3Rc.get r) = keccakRc r := by
  revert r
  decide

/-! ## Both forms are the permutation -/

theorem sha3Theta_eq (st : State (BitVec 64)) : sha3Theta st = theta wordOps st := by
  funext k
  fin_cases k <;> rfl

theorem keccakTheta_eq (a : State KeccakWord) : keccakTheta a = theta packedOps a := by
  funext k
  fin_cases k <;> rfl

/-- The lines of the source are rho and pi, for any lanes. -/
theorem rhoPiInPlace_eq {L : Type} (o : LaneOps L) (hzero : ∀ a, o.rotl 0 a = a) (st : State L) :
    rhoPiInPlace (fun a n => o.rotl n a) st = rhoPi o st := by
  funext k
  fin_cases k
  · exact (hzero (st 0)).symm
  all_goals rfl

/-- A row is overwritten only after it was read. -/
theorem chiInPlace_apply {L : Type} (line : Fin 25 → L → L → L → L) (st : State L) (k : Fin 25) :
    chiInPlace line st k =
      line k (st k) (st (index (column k + 1) (row k))) (st (index (column k + 2) (row k))) := by
  fin_cases k <;> rfl

theorem sha3Chi_eq (st : State (BitVec 64)) : sha3Chi st = chi wordOps st := by
  funext k
  exact chiInPlace_apply _ st k

theorem keccakChiEsimd_eq (a : State KeccakWord) : keccakChiEsimd a = chi packedOps a := by
  funext k
  exact chiInPlace_apply _ a k

theorem keccakRotl_zero (a : KeccakWord) : keccakRotl a 0 = a := by
  refine KeccakWord.ext_bits (fun j hj => ?_) (fun j hj => ?_)
  · change (a.lo.rotateLeft 0).getLsbD j = _
    rw [getLsbD_rotateLeft_of_le _ (Nat.zero_le 32) hj, if_neg (Nat.not_lt_zero j), Nat.sub_zero]
  · change (a.hi.rotateLeft 0).getLsbD j = _
    rw [getLsbD_rotateLeft_of_le _ (Nat.zero_le 32) hj, if_neg (Nat.not_lt_zero j), Nat.sub_zero]

theorem sha3RhoPi_eq (st : State (BitVec 64)) : rhoPiInPlace rotl64 st = rhoPi wordOps st :=
  rhoPiInPlace_eq wordOps rotl64_zero st

theorem keccakRhoPi_eq (a : State KeccakWord) : rhoPiInPlace keccakRotl a = rhoPi packedOps a :=
  rhoPiInPlace_eq packedOps keccakRotl_zero a

theorem sha3fRound_eq (st : State (BitVec 64)) (r : Fin 24) :
    sha3fRound st r = fullRound wordOps (sha3Rc.get r) st := by
  rw [sha3fRound, sha3Theta_eq, sha3RhoPi_eq, sha3Chi_eq]
  rfl

theorem keccakRound_esimd (a : State KeccakWord) (rc : KeccakWord) :
    keccakRound true a rc = fullRound packedOps rc a := by
  rw [keccakRound, keccakTheta_eq, keccakRhoPi_eq, if_pos rfl, keccakChiEsimd_eq]
  rfl

/-! ## Lanes that are kept complemented -/

theorem packed_not_not (a : KeccakWord) : ~~~(~~~a) = a :=
  KeccakWord.ext (@BitVec.not_not _ a.lo) (@BitVec.not_not _ a.hi)

theorem packed_not_xor (a b : KeccakWord) : ~~~a ^^^ b = ~~~(a ^^^ b) :=
  KeccakWord.ext (@BitVec.not_xor_left _ a.lo b.lo).symm (@BitVec.not_xor_left _ a.hi b.hi).symm

theorem packed_xor_not (a b : KeccakWord) : a ^^^ ~~~b = ~~~(a ^^^ b) :=
  KeccakWord.ext (@BitVec.not_xor_right _ a.lo b.lo).symm (@BitVec.not_xor_right _ a.hi b.hi).symm

/-- A disjunction with a complemented operand is a complemented conjunction. -/
theorem packed_or_not (y z : KeccakWord) : y ||| ~~~z = ~~~(~~~y &&& z) := by
  have hword (y z : BitVec 32) : y ||| ~~~z = ~~~(~~~y &&& z) := by
    rw [BitVec.not_and, BitVec.not_not]
  exact KeccakWord.ext (hword y.lo z.lo) (hword y.hi z.hi)

theorem rotateLeft_not (x : BitVec 32) (m : ℕ) :
    (~~~x).rotateLeft m = ~~~(x.rotateLeft m) := by
  have hm : m % 32 < 32 := Nat.mod_lt m (by decide)
  refine BitVec.eq_of_getLsbD_eq fun i hi => ?_
  rw [BitVec.getLsbD_not, BitVec.getLsbD_rotateLeft, BitVec.getLsbD_rotateLeft, Bool.cond_decide,
    Bool.cond_decide]
  split_ifs with h
  · simp [hi, show 32 - m % 32 + i < 32 by omega]
  · simp [hi, show i - m % 32 < 32 by omega]

theorem packedOps_complements : packedOps.Complements where
  not_not := packed_not_not
  not_xor := packed_not_xor
  xor_not := packed_xor_not
  rotl_not n a := by
    change keccakRotl ⟨~~~a.lo, ~~~a.hi⟩ n = ~~~keccakRotl a n
    rw [keccakRotl, keccakRotl]
    split_ifs
    · exact KeccakWord.ext (rotateLeft_not _ _) (rotateLeft_not _ _)
    · exact KeccakWord.ext (rotateLeft_not _ _) (rotateLeft_not _ _)

/-- The lanes that are complemented between rounds. -/
def kept : State Bool := fun k => k ∈ [1, 2, 8, 12, 17, 20]

/-- The lanes that are complemented when chi starts. -/
def arrived : State Bool := rhoPi bits (theta bits kept)

theorem kept_eq : kept = ![
    false, true, true, false, false,
    false, false, false, true, false,
    false, false, true, false, false,
    false, false, true, false, false,
    true, false, false, false, false] := by
  funext k
  revert k
  decide

theorem arrived_eq : arrived = ![
    true, false, true, true, false,
    true, false, true, false, false,
    true, false, true, false, false,
    false, true, false, true, true,
    true, false, false, true, false] := by
  funext k
  revert k
  decide

/-- A line of the rewritten chi on lanes as they arrive. -/
theorem maskedLines_arrived (k : Fin 25) (x y z : KeccakWord) :
    maskedLines k (packedOps.notIf (arrived k) x)
        (packedOps.notIf (arrived (index (column k + 1) (row k))) y)
        (packedOps.notIf (arrived (index (column k + 2) (row k))) z) =
      packedOps.notIf (kept k) (x ^^^ (~~~y &&& z)) := by
  -- The ways in which a lane and its two neighbours arrive.
  have hand : ~~~x ^^^ (~~~y &&& z) = ~~~(x ^^^ (~~~y &&& z)) := packed_not_xor x _
  have hor : x ^^^ (y ||| ~~~z) = ~~~(x ^^^ (~~~y &&& z)) := by
    rw [packed_or_not, packed_xor_not]
  have hboth : ~~~x ^^^ (y ||| ~~~z) = x ^^^ (~~~y &&& z) := by
    rw [packed_not_xor x, hor, packed_not_not]
  have hor' : x ^^^ (~~~(~~~y) ||| ~~~z) = ~~~(x ^^^ (~~~y &&& z)) := by
    rw [packed_not_not y, hor]
  have hand' : ~~~(~~~x) ^^^ (~~~y &&& z) = x ^^^ (~~~y &&& z) := by
    rw [packed_not_not x]
  rw [arrived_eq, kept_eq]
  fin_cases k
  · exact hboth
  · exact hor'
  · exact hand
  · exact hboth
  · rfl
  · exact hboth
  · rfl
  · exact hboth
  · exact hor
  · rfl
  · exact hboth
  · rfl
  · exact hand
  · exact hboth
  · rfl
  · rfl
  · exact hboth
  · exact hor'
  · exact hand'
  · exact hboth
  · exact hand
  · exact hboth
  · rfl
  · exact hboth
  · rfl

/-- **The rewritten chi of a state as it arrives** is chi of the plain state, with the lanes
complemented that are to be kept so. -/
theorem keccakChiMasked_hide (b : State KeccakWord) :
    keccakChiMasked (hide packedOps arrived b) = hide packedOps kept (chi packedOps b) := by
  funext k
  rw [keccakChiMasked, chiInPlace_apply]
  exact maskedLines_arrived k _ _ _

/-- **A round on lanes that are kept complemented.** -/
theorem keccakRound_masked (a : State KeccakWord) (rc : KeccakWord) :
    keccakRound false (hide packedOps kept a) rc = hide packedOps kept (fullRound packedOps rc a) := by
  have hchi : keccakChiMasked (rhoPi packedOps (theta packedOps (hide packedOps kept a))) =
      hide packedOps kept (chi packedOps (rhoPi packedOps (theta packedOps a))) := by
    rw [linear_hide packedOps_complements]
    exact keccakChiMasked_hide _
  rw [keccakRound, keccakTheta_eq, keccakRhoPi_eq, if_neg (by decide), hchi]
  funext k
  by_cases hk : k = 0
  · rw [hk]
    rfl
  · simp [hide, fullRound, iota, put, hk]

/-! ## The last round -/

theorem word_xor_assoc (a b c : BitVec 64) : a ^^^ b ^^^ c = a ^^^ (b ^^^ c) :=
  BitVec.xor_assoc a b c

theorem packed_xor_assoc (a b c : KeccakWord) : a ^^^ b ^^^ c = a ^^^ (b ^^^ c) :=
  KeccakWord.ext (BitVec.xor_assoc _ _ _) (BitVec.xor_assoc _ _ _)

theorem sha3fLast_eq (st : State (BitVec 64)) :
    sha3fLast st = sha3fDigest st (rhoPi wordOps (theta wordOps st) 0)
      (rhoPi wordOps (theta wordOps st) 1) (rhoPi wordOps (theta wordOps st) 2)
      (rhoPi wordOps (theta wordOps st) 3) (rhoPi wordOps (theta wordOps st) 4) := by
  have hx := rhoPi_theta wordOps word_xor_assoc st
  have h0 : rhoPi wordOps (theta wordOps st) 0 =
      st 0 ^^^ sha3Columns st 4 ^^^ rotl64 (sha3Columns st 1) 1 := (hx 0).trans (rotl64_zero _)
  rw [h0, hx 1, hx 2, hx 3, hx 4]
  rfl

theorem sha3WordsFinish_eq (a : State KeccakWord) (io : ℕ → BitVec 32) :
    sha3WordsFinish a io = unpackDigest (maskedDigest a (rhoPi packedOps (theta packedOps a) 0)
      (rhoPi packedOps (theta packedOps a) 1) (rhoPi packedOps (theta packedOps a) 2)
      (rhoPi packedOps (theta packedOps a) 3) (rhoPi packedOps (theta packedOps a) 4)) io := by
  have hx := rhoPi_theta packedOps packed_xor_assoc a
  have h0 : rhoPi packedOps (theta packedOps a) 0 =
      a 0 ^^^ sha3Columns a 4 ^^^ keccakRotl (sha3Columns a 1) 1 :=
    (hx 0).trans (keccakRotl_zero _)
  rw [h0, hx 1, hx 2, hx 3, hx 4]
  rfl

theorem first_lanes {k : Fin 25} (hk : k.val < 4) : k = 0 ∨ k = 1 ∨ k = 2 ∨ k = 3 := by
  revert k
  decide

/-- The cut last round has the first four lanes of a round. -/
theorem sha3fLast_lane (st : State (BitVec 64)) {k : Fin 25} (hk : k.val < 4) :
    sha3fLast st k = sha3fRound st 23 k := by
  rw [sha3fLast_eq, sha3fRound_eq, fullRound]
  generalize rhoPi wordOps (theta wordOps st) = x
  obtain rfl | rfl | rfl | rfl := first_lanes hk
  all_goals rfl

/-- So has the packed one, when the lanes that are kept complemented are complemented back. -/
theorem maskedDigest_lane (a : State KeccakWord) {k : Fin 25} (hk : k.val < 4) :
    maskedDigest a (rhoPi packedOps (theta packedOps a) 0)
        (rhoPi packedOps (theta packedOps a) 1) (rhoPi packedOps (theta packedOps a) 2)
        (rhoPi packedOps (theta packedOps a) 3) (rhoPi packedOps (theta packedOps a) 4) k =
      hide packedOps kept (keccakRound false a (keccakRc 23)) k := by
  rw [keccakRound, keccakTheta_eq, keccakRhoPi_eq, if_neg (by decide), kept_eq]
  generalize rhoPi packedOps (theta packedOps a) = x
  obtain rfl | rfl | rfl | rfl := first_lanes hk
  all_goals rfl

/-- The digest has the first four lanes of a state. -/
theorem unpackDigest_congr {a b : State KeccakWord} (h : ∀ k : Fin 25, k.val < 4 → a k = b k)
    (io : ℕ → BitVec 32) : unpackDigest a io = unpackDigest b io := by
  refine List.foldl_ext _ _ io fun io i hi => ?_
  have hlane : (lane i).val < 4 := by
    rw [lane, Fin.val_ofNat]
    exact (Nat.mod_le i 25).trans_lt (List.mem_range.mp hi)
  rw [h _ hlane]

/-! ## The sponge -/

/-- The padded state of 32 bytes in words. -/
def padded (io : ℕ → BitVec 32) : State (BitVec 64) :=
  let st : State (BitVec 64) := fun _ => 0
  let st := (List.range 4).foldl (fun st i => put st (lane i)
    ((io (2 * i)).setWidth 64 ||| ((io (2 * i + 1)).setWidth 64 <<< 32))) st
  let st := put st 4 0x06
  put st 16 0x8000000000000000

/-- The first four lanes of a state as words. -/
def storeDigest (st : State (BitVec 64)) (io : ℕ → BitVec 32) : ℕ → BitVec 32 :=
  (List.range 4).foldl (fun io i =>
    let io := Function.update io (2 * i) ((st (lane i)).setWidth 32)
    Function.update io (2 * i + 1) ((st (lane i) >>> 32).setWidth 32)) io

theorem storeDigest_congr {st st' : State (BitVec 64)}
    (h : ∀ k : Fin 25, k.val < 4 → st k = st' k) (io : ℕ → BitVec 32) :
    storeDigest st io = storeDigest st' io := by
  refine List.foldl_ext _ _ io fun io i hi => ?_
  have hlane : (lane i).val < 4 := by
    rw [lane, Fin.val_ofNat]
    exact (Nat.mod_le i 25).trans_lt (List.mem_range.mp hi)
  rw [h _ hlane]

theorem unpackDigest_pack64 (st : State (BitVec 64)) (io : ℕ → BitVec 32) :
    unpackDigest (pack64 ∘ st) io = storeDigest st io := by
  refine List.foldl_ext _ _ io fun io i _ => ?_
  rw [Function.comp_apply, pack64, unpack_pack]

theorem sha3f_succ (st : State (BitVec 64)) :
    sha3f st = sha3fRound (((List.finRange 24).take 23).foldl sha3fRound st) 23 := by
  have hsplit : List.finRange 24 = (List.finRange 24).take 23 ++ [23] := by decide
  rw [sha3f, hsplit, List.foldl_append]
  rfl

/-- **23 rounds and the cut last one.** -/
theorem sha3Words64_eq (io : ℕ → BitVec 32) :
    sha3Words64 io = storeDigest (sha3f (padded io)) io := by
  have hlanes : sha3Words64 io = storeDigest (sha3f23 (padded io)) io := rfl
  rw [hlanes, sha3f_succ]
  exact storeDigest_congr (fun k hk => sha3fLast_lane _ hk) io

theorem pack64_join (low high : BitVec 32) :
    pack64 (low.setWidth 64 ||| (high.setWidth 64 <<< 32)) = keccakPack low high := by
  rw [pack64, low_join, high_join]

/-- Rounds on packed lanes. -/
theorem rounds_esimd (rounds : List (Fin 24)) (st : State (BitVec 64)) :
    rounds.foldl (fun a r => keccakRound true a (keccakRc r)) (pack64 ∘ st) =
      pack64 ∘ rounds.foldl sha3fRound st :=
  List.foldl_hom (pack64 ∘ ·) fun st r => by
    rw [keccakRound_esimd, ← pack64_rc, fullRound_map pack64_hom, sha3fRound_eq]

/-- Rounds on packed lanes that are kept complemented. -/
theorem rounds_masked (rounds : List (Fin 24)) (st : State (BitVec 64)) :
    rounds.foldl (fun a r => keccakRound false a (keccakRc r))
        (hide packedOps kept (pack64 ∘ st)) =
      hide packedOps kept (pack64 ∘ rounds.foldl sha3fRound st) :=
  List.foldl_hom (fun st => hide packedOps kept (pack64 ∘ st)) fun st r => by
    rw [keccakRound_masked, ← pack64_rc, fullRound_map pack64_hom, sha3fRound_eq]

/-- The packed form of the padded state. -/
def packedInit (io : ℕ → BitVec 32) : State KeccakWord :=
  let a : State KeccakWord := fun _ => ⟨0, 0⟩
  let a := put a 0 (keccakPack (io 0) (io 1))
  let a := put a 1 (keccakPack (io 2) (io 3))
  let a := put a 2 (keccakPack (io 4) (io 5))
  let a := put a 3 (keccakPack (io 6) (io 7))
  let a := put a 4 ⟨2, 1⟩
  put a 16 ⟨0, 0x80000000⟩

theorem packedInit_eq (io : ℕ → BitVec 32) : packedInit io = pack64 ∘ padded io := by
  have hzero : (⟨0, 0⟩ : KeccakWord) = pack64 0 := by decide
  have hsix : (⟨2, 1⟩ : KeccakWord) = pack64 0x06 := by decide
  have hlast : (⟨0, 0x80000000⟩ : KeccakWord) = pack64 0x8000000000000000 := by decide
  have hstart : (fun _ => pack64 0 : State KeccakWord) = pack64 ∘ fun _ => 0 := rfl
  rw [packedInit, hzero, hsix, hlast, hstart]
  simp only [← pack64_join, put_map]
  rfl

theorem sha3WordsInit_eq (io : ℕ → BitVec 32) :
    sha3WordsInit (fun _ => ⟨0, 0⟩) io = hide packedOps kept (packedInit io) := by
  have hones : (⟨0xffffffff, 0xffffffff⟩ : KeccakWord) = ~~~⟨0, 0⟩ := by decide
  rw [sha3WordsInit, packedInit, hones]
  generalize (⟨0, 0⟩ : KeccakWord) = zero
  generalize (⟨2, 1⟩ : KeccakWord) = six
  generalize (⟨0, 0x80000000⟩ : KeccakWord) = last
  generalize keccakPack (io 0) (io 1) = a0
  generalize keccakPack (io 2) (io 3) = a1
  generalize keccakPack (io 4) (io 5) = a2
  generalize keccakPack (io 6) (io 7) = a3
  funext k
  fin_cases k <;> simp [hide, put, kept, LaneOps.notIf, packedOps]

theorem sha3Words_esimd (io : ℕ → BitVec 32) :
    sha3Words true io = storeDigest (sha3f (padded io)) io := by
  have hrun : sha3Words true io = unpackDigest
      ((List.finRange 24).foldl (fun a r => keccakRound true a (keccakRc r)) (packedInit io)) io :=
    rfl
  rw [hrun, packedInit_eq, rounds_esimd, unpackDigest_pack64]
  rfl

theorem sha3Words_masked (io : ℕ → BitVec 32) :
    sha3Words false io = storeDigest (sha3f (padded io)) io := by
  have hrun : sha3Words false io = sha3WordsFinish
      (((List.finRange 24).take 23).foldl (fun a r => keccakRound false a (keccakRc r))
        (sha3WordsInit (fun _ => ⟨0, 0⟩) io)) io := rfl
  rw [hrun, sha3WordsInit_eq, packedInit_eq, rounds_masked, sha3WordsFinish_eq, sha3f_succ,
    unpackDigest_congr fun k hk => maskedDigest_lane _ hk]
  rw [keccakRound_masked, ← pack64_rc, fullRound_map pack64_hom, ← sha3fRound_eq,
    hide_hide packedOps_complements, unpackDigest_pack64]

/-! ## Bytes -/

/-- The words of a buffer of bytes. -/
def wordsOf (bytes : ℕ → BitVec 8) (i : ℕ) : BitVec 32 :=
  (bytes (4 * i)).setWidth 32 ||| ((bytes (4 * i + 1)).setWidth 32 <<< 8) |||
    ((bytes (4 * i + 2)).setWidth 32 <<< 16) ||| ((bytes (4 * i + 3)).setWidth 32 <<< 24)

/-- The bytes of a buffer of words. -/
def bytesOf (words : ℕ → BitVec 32) (i : Fin 32) : BitVec 8 :=
  (words (i / 4) >>> (8 * (i.val % 4))).setWidth 8

theorem setWidth_shift (b : BitVec 8) {s : ℕ} (hs : s ≤ 24) :
    (b.setWidth 32 <<< s).setWidth 64 = b.setWidth 64 <<< s := by
  refine BitVec.eq_of_getLsbD_eq fun i hi => ?_
  simp only [BitVec.getLsbD_setWidth, BitVec.getLsbD_shiftLeft, hi, decide_true, Bool.true_and]
  by_cases hsmall : i < 32
  · simp [hsmall, show i - s < 32 by omega, show i - s < 64 by omega]
  · simp [hsmall, BitVec.getLsbD_of_ge b (i - s) (by omega)]

/-- Eight bytes are a lane of two words. -/
theorem load64le_eq (bytes : ℕ → BitVec 8) (i : ℕ) :
    load64le (fun k => bytes (8 * i + k)) =
      (wordsOf bytes (2 * i)).setWidth 64 ||| ((wordsOf bytes (2 * i + 1)).setWidth 64 <<< 32) := by
  have hlow : 4 * (2 * i) = 8 * i := by omega
  have hfirst : 4 * (2 * i + 1) = 8 * i + 4 := by omega
  simp only [wordsOf, BitVec.setWidth_or, setWidth_shift _ (show 8 ≤ 24 by decide),
    setWidth_shift _ (show 16 ≤ 24 by decide), setWidth_shift _ (le_refl 24),
    BitVec.shiftLeft_or_distrib, hlow, hfirst, ← BitVec.shiftLeft_add]
  simp [load64le, List.range_succ, BitVec.or_assoc]

theorem low_byte (v : BitVec 64) {s : ℕ} (hs : s ≤ 24) :
    ((v.setWidth 32) >>> s).setWidth 8 = (v >>> s).setWidth 8 := by
  refine BitVec.eq_of_getLsbD_eq fun i hi => ?_
  simp [hi, show s + i < 32 by omega]

theorem high_byte (v : BitVec 64) {s : ℕ} (hs : s ≤ 24) :
    (((v >>> 32).setWidth 32) >>> s).setWidth 8 = (v >>> (32 + s)).setWidth 8 := by
  refine BitVec.eq_of_getLsbD_eq fun i hi => ?_
  simp [hi, show s + i < 32 by omega, Nat.add_assoc]

/-- The plain hash starts from the padded state of its words. -/
theorem sha3_256_eq (input : ℕ → BitVec 8) (i : Fin 32) :
    sha3_256 input i =
      (sha3f (padded (wordsOf input)) (lane (i / 8)) >>> (8 * (i.val % 8))).setWidth 8 := by
  have hstate : padded (wordsOf input) = put (put ((List.range 4).foldl
      (fun st i => put st (lane i) (load64le fun k => input (8 * i + k))) fun _ => 0) 4 0x06) 16
      0x8000000000000000 := by
    simp only [load64le_eq]
    rfl
  have hzero (v : BitVec 64) : (0 : BitVec 64) ^^^ v = v := BitVec.zero_xor
  have hrun : sha3_256 input i = (sha3f (put (put ((List.range 4).foldl
      (fun st i => put st (lane i) (load64le fun k => input (8 * i + k))) fun _ => 0) 4
      ((0 : BitVec 64) ^^^ 0x06)) 16 ((0 : BitVec 64) ^^^ 0x8000000000000000)) (lane (i / 8)) >>>
      (8 * (i.val % 8))).setWidth 8 := rfl
  rw [hrun, hzero, hzero, hstate]

theorem storeDigest_apply (st : State (BitVec 64)) (io : ℕ → BitVec 32) {l : ℕ} (hl : l < 4) :
    storeDigest st io (2 * l) = (st (lane l)).setWidth 32 ∧
      storeDigest st io (2 * l + 1) = (st (lane l) >>> 32).setWidth 32 := by
  interval_cases l <;> exact ⟨rfl, rfl⟩

theorem bytesOf_storeDigest (st : State (BitVec 64)) (io : ℕ → BitVec 32) (i : Fin 32) :
    bytesOf (storeDigest st io) i = (st (lane (i / 8)) >>> (8 * (i.val % 8))).setWidth 8 := by
  obtain ⟨hlow, hhigh⟩ := storeDigest_apply st io (show i.val / 8 < 4 by omega)
  rw [bytesOf]
  rcases lt_or_ge (i.val % 8) 4 with h | h
  · rw [show i.val / 4 = 2 * (i.val / 8) by omega, show i.val % 4 = i.val % 8 by omega, hlow,
      low_byte _ (by omega)]
  · rw [show i.val / 4 = 2 * (i.val / 8) + 1 by omega, hhigh, high_byte _ (by omega),
      show 32 + 8 * (i.val % 4) = 8 * (i.val % 8) by omega]

/-- **Packed SHA3 is SHA3-256.** Packing and unpacking are inverse; a round on packed lanes, plain
or with six lanes kept complemented, is the packed round; the forms without and with ESIMD and the
one with 23 full rounds give the same words for every input, and these have the bytes of the plain
hash. -/
theorem packed_sha3 :
    (∀ lo hi : BitVec 32, keccakUnpack (keccakPack lo hi) = (lo, hi)) ∧
    (∀ a : KeccakWord, keccakPack (keccakUnpack a).1 (keccakUnpack a).2 = a) ∧
    (∀ (st : State (BitVec 64)) (r : Fin 24),
      keccakRound false (hide packedOps kept (pack64 ∘ st)) (keccakRc r) =
        hide packedOps kept (pack64 ∘ sha3fRound st r)) ∧
    (∀ (st : State (BitVec 64)) (r : Fin 24),
      keccakRound true (pack64 ∘ st) (keccakRc r) = pack64 ∘ sha3fRound st r) ∧
    (∀ (esimd : Bool) (io : ℕ → BitVec 32), sha3Words esimd io = sha3Words64 io) ∧
    ∀ input : ℕ → BitVec 8, bytesOf (sha3Words64 (wordsOf input)) = sha3_256 input := by
  refine ⟨unpack_pack, pack_unpack, fun st r => ?_, fun st r => ?_, fun esimd io => ?_,
    fun input => ?_⟩
  · rw [keccakRound_masked, ← pack64_rc, fullRound_map pack64_hom, ← sha3fRound_eq]
  · rw [keccakRound_esimd, ← pack64_rc, fullRound_map pack64_hom, ← sha3fRound_eq]
  · rw [sha3Words64_eq]
    cases esimd
    · exact sha3Words_masked io
    · exact sha3Words_esimd io
  · funext i
    rw [sha3Words64_eq, bytesOf_storeDigest, sha3_256_eq]

end MoMiner.WalaHash.Sha3
