import Mathlib.Data.List.Basic
import Mathlib.Data.Nat.Bitwise

/-!
# Big-endian bit strings

A list of bytes as a string of bits, the most significant bit of a byte first. `ofBits` reads a
number from such bits, `setBits` sets some of them.

Main results: `testBit_ofBits`, `bitAt_setBits` and `ext_bitAt`, with which a packing and its
unpacking are compared bit by bit.
-/

namespace MoMiner.BitString

/-- The bit at a place of a byte string; there are only zeros after its end. -/
def bitAt (bytes : List UInt8) (p : ℕ) : Bool := (bytes.getD (p / 8) 0).toNat.testBit (7 - p % 8)

/-- Set the bit at a place if `v` is one. -/
def setBit (bytes : List UInt8) (p v : ℕ) : List UInt8 :=
  bytes.modify (p / 8) fun byte => byte ||| UInt8.ofNat ((v &&& 1) <<< (7 - p % 8))

/-- The number that `n` bits write, the most significant first. -/
def ofBits (bit : ℕ → ℕ) (n : ℕ) : ℕ := (List.range n).foldl (fun v i => (v <<< 1) ||| bit i) 0

theorem testBit_ofBits {bit : ℕ → Bool} {n : ℕ} (j : ℕ) :
    (ofBits (fun i => (bit i).toNat) n).testBit j = (decide (j < n) && bit (n - 1 - j)) := by
  induction n generalizing j with
  | zero => simp [ofBits]
  | succ n ih =>
    have hstep : ofBits (fun i => (bit i).toNat) (n + 1) =
        (ofBits (fun i => (bit i).toNat) n <<< 1) ||| (bit n).toNat := by
      simp [ofBits, List.range_succ]
    rw [hstep, Nat.testBit_or, Nat.testBit_shiftLeft]
    cases j with
    | zero => cases h : bit n <;> simp [h]
    | succ j =>
      have hlow : ((bit n).toNat).testBit (j + 1) = false := by
        cases bit n <;> simp [Nat.testBit_succ]
      rw [hlow, Bool.or_false, Nat.add_sub_cancel, ih, show n + 1 - 1 - (j + 1) = n - 1 - j by omega]
      simp

theorem length_setBit (bytes : List UInt8) (p v : ℕ) : (setBit bytes p v).length = bytes.length := by
  simp [setBit]

theorem testBit_single {v s t : ℕ} :
    ((v &&& 1) <<< s).testBit t = (decide (t = s) && v.testBit 0) := by
  rw [Nat.testBit_shiftLeft, Nat.testBit_and]
  rcases lt_trichotomy t s with h | rfl | h
  · simp [h.ne, Nat.not_le.mpr h]
  · simp
  · have hone : Nat.testBit 1 (t - s) = false := by
      rw [Bool.eq_false_iff, ne_eq, Nat.testBit_one_eq_true_iff_self_eq_zero]
      omega
    simp [hone, h.ne']

theorem bitAt_setBit {bytes : List UInt8} {p : ℕ} (v q : ℕ) (hp : p / 8 < bytes.length) :
    bitAt (setBit bytes p v) q = (bitAt bytes q || (decide (q = p) && v.testBit 0)) := by
  rw [bitAt, bitAt, setBit, List.getD_eq_getElem?_getD, List.getElem?_modify,
    List.getD_eq_getElem?_getD]
  by_cases hbyte : p / 8 = q / 8
  · have hlt : q / 8 < bytes.length := hbyte ▸ hp
    have hsmall : (v &&& 1) <<< (7 - p % 8) < 2 ^ 8 := by
      refine Nat.lt_pow_two_of_testBit _ fun t ht => ?_
      rw [testBit_single, decide_eq_false (by omega), Bool.false_and]
    have hplace : decide (7 - q % 8 = 7 - p % 8) = decide (q = p) := by
      refine decide_eq_decide.mpr ?_
      omega
    simp only [hbyte, if_true, List.getElem?_eq_getElem hlt, Option.map_eq_map, Option.map_some,
      Option.getD_some, UInt8.toNat_or, UInt8.toNat_ofNat', Nat.testBit_or,
      Nat.mod_eq_of_lt hsmall, testBit_single, hplace]
  · have hne : q ≠ p := fun h => hbyte (congrArg (· / 8) h.symm)
    simp [hbyte, hne]

/-- Set the bits of a list of places. -/
def setBits (bytes : List UInt8) (places : List (ℕ × ℕ)) : List UInt8 :=
  places.foldl (fun bytes place => setBit bytes place.1 place.2) bytes

theorem length_setBits (bytes : List UInt8) (places : List (ℕ × ℕ)) :
    (setBits bytes places).length = bytes.length := by
  induction places generalizing bytes with
  | nil => rfl
  | cons place places ih => exact (ih _).trans (length_setBit _ _ _)

theorem bitAt_setBits {bytes : List UInt8} {places : List (ℕ × ℕ)} (q : ℕ)
    (h : ∀ place ∈ places, place.1 / 8 < bytes.length) :
    bitAt (setBits bytes places) q =
      (bitAt bytes q || places.any fun place => decide (q = place.1) && place.2.testBit 0) := by
  induction places generalizing bytes with
  | nil => simp [setBits]
  | cons place places ih =>
    obtain ⟨hplace, hplaces⟩ := List.forall_mem_cons.mp h
    rw [setBits, List.foldl_cons, ← setBits, ih fun p hp => ?_, bitAt_setBit _ _ hplace,
      List.any_cons, Bool.or_assoc]
    rw [length_setBit]
    exact hplaces p hp

theorem bitAt_replicate (n q : ℕ) : bitAt (List.replicate n 0) q = false := by
  have hzero : (List.replicate n (0 : UInt8)).getD (q / 8) 0 = 0 := by
    rw [List.getD_eq_getElem?_getD, List.getElem?_replicate]
    split_ifs <;> rfl
  rw [bitAt, hzero]
  simp

/-- Byte strings of one length with the same bits are the same. -/
theorem ext_bitAt {a b : List UInt8} (hlen : a.length = b.length)
    (h : ∀ q < 8 * b.length, bitAt a q = bitAt b q) : a = b := by
  refine List.ext_getElem hlen fun i ha hb => ?_
  refine UInt8.toNat_inj.mp (Nat.eq_of_testBit_eq fun j => ?_)
  by_cases hj : j < 8
  · have hbit := h (8 * i + (7 - j)) (by omega)
    rw [bitAt, bitAt, show (8 * i + (7 - j)) / 8 = i by omega,
      show 7 - (8 * i + (7 - j)) % 8 = j by omega] at hbit
    simpa [List.getD_eq_getElem?_getD, ha, hb] using hbit
  · rw [Nat.testBit_lt_two_pow, Nat.testBit_lt_two_pow]
    · exact (UInt8.toNat_lt _).trans_le (Nat.pow_le_pow_right (by decide) (by omega))
    · exact (UInt8.toNat_lt _).trans_le (Nat.pow_le_pow_right (by decide) (by omega))

end MoMiner.BitString
