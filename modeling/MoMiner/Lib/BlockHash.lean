import MoMiner.Lib.Bytes

/-!
# Hashing by blocks

A hash that compresses the full blocks of its data into a state. `absorb` compresses a number of
blocks from the front of the data, and `padded` ends the data by a marker, zeros and its length in
bits. Stores into a buffer fail outside it.

Main results: `absorb_add` and `storeBE`.
-/

namespace MoMiner.BlockHash

open MoMiner.Bytes

/-! ## Full blocks -/

section Blocks

variable {S α : Type*} (compress : S → List α → S) (size : ℕ)

/-- The state after the first `n` blocks of `data`. -/
def absorb (s : S) : ℕ → List α → S
  | 0, _ => s
  | n + 1, data => absorb (compress s (data.take size)) n (data.drop size)

variable {compress size}

theorem absorb_add (s : S) (n m : ℕ) (data : List α) :
    absorb compress size s (n + m) data =
      absorb compress size (absorb compress size s n data) m (data.drop (n * size)) := by
  induction n generalizing s data with
  | zero => simp [absorb]
  | succ n ih =>
    have hdrop : (data.drop size).drop (n * size) = data.drop ((n + 1) * size) := by
      rw [List.drop_drop, Nat.succ_mul, Nat.add_comm]
    rw [Nat.succ_add, absorb, absorb, ih, hdrop]

theorem absorb_succ (s : S) (n : ℕ) (data : List α) :
    absorb compress size s (n + 1) data =
      compress (absorb compress size s n data) ((data.drop (n * size)).take size) := by
  rw [absorb_add, absorb, absorb]

/-- The blocks do not depend on what comes after them. -/
theorem absorb_append {s : S} {n : ℕ} {data : List α} (h : n * size ≤ data.length)
    (more : List α) :
    absorb compress size s n (data ++ more) = absorb compress size s n data := by
  induction n generalizing s data with
  | zero => rfl
  | succ n ih =>
    rw [Nat.succ_mul] at h
    rw [absorb, absorb, List.take_append_of_le_length (by omega),
      List.drop_append_of_le_length (by omega)]
    apply ih
    rw [List.length_drop]
    omega

end Blocks

/-! ## Buffers -/

/-- Store bytes at `off` of a buffer: a failure unless they fit. -/
def store (buf : List UInt8) (off : ℕ) (bs : List UInt8) : Option (List UInt8) :=
  if off + bs.length ≤ buf.length then some (patch buf off bs) else none

/-- Store zeros from `first` up to `last`: a failure unless this is a range of the buffer. -/
def fillZero (buf : List UInt8) (first last : ℕ) : Option (List UInt8) :=
  if first ≤ last then store buf first (List.replicate (last - first) 0) else none

/-- Store byte `i` of `v` at `i` before the place `last`, for each `i < n`. -/
def storeBE (last : ℕ) (v : UInt64) (n : ℕ) (buf : List UInt8) : Option (List UInt8) :=
  (List.range n).foldlM (fun buf i =>
    store buf (last - i) [(v >>> UInt64.ofNat (8 * i)).toUInt8]) buf

theorem store_append {front old back bs : List UInt8} {off : ℕ} (hoff : front.length = off)
    (hlen : old.length = bs.length) :
    store (front ++ old ++ back) off bs = some (front ++ bs ++ back) := by
  have hfit : off + bs.length ≤ (front ++ old ++ back).length := by
    simp only [List.length_append]
    omega
  have htake : (front ++ old ++ back).take off = front := by
    rw [List.append_assoc, List.take_left' hoff]
  have hdrop : (front ++ old ++ back).drop (off + bs.length) = back :=
    List.drop_left' (by rw [List.length_append, hoff, hlen])
  rw [store, if_pos hfit, patch, htake, hdrop]

theorem fillZero_append {front old back : List UInt8} {first last : ℕ}
    (hfirst : front.length = first) (hlast : first + old.length = last) :
    fillZero (front ++ old ++ back) first last =
      some (front ++ List.replicate (last - first) 0 ++ back) := by
  rw [fillZero, if_pos (by omega)]
  exact store_append hfirst (by rw [List.length_replicate]; omega)

theorem leBytes_succ (n v : ℕ) :
    leBytes (n + 1) v = leBytes n v ++ [UInt8.ofNat (v / 256 ^ n)] := by
  induction n generalizing v with
  | zero => simp [leBytes]
  | succ n ih =>
    rw [leBytes, ih, leBytes, Nat.div_div_eq_div_mul, ← pow_succ', List.cons_append]

theorem toUInt8_shiftRight {v : UInt64} {i : ℕ} (hi : i < 8) :
    (v >>> UInt64.ofNat (8 * i)).toUInt8 = UInt8.ofNat (v.toNat / 256 ^ i) := by
  apply UInt8.toNat_inj.mp
  have hshift : (UInt64.ofNat (8 * i)).toNat % 64 = 8 * i := by
    rw [UInt64.toNat_ofNat']
    omega
  rw [UInt64.toNat_toUInt8, UInt64.toNat_shiftRight, hshift, UInt8.toNat_ofNat',
    Nat.shiftRight_eq_div_pow, pow_mul]
  norm_num

/-- **Bytes stored backwards from a place are the big-endian bytes of the word.** -/
theorem storeBE_eq {front old back : List UInt8} {last n : ℕ} {v : UInt64}
    (hlast : front.length + old.length = last + 1) (hold : old.length = n) (hn : n ≤ 8) :
    storeBE last v n (front ++ old ++ back) = some (front ++ beBytes n v.toNat ++ back) := by
  induction n generalizing old front with
  | zero =>
    obtain rfl := List.eq_nil_of_length_eq_zero hold
    simp [storeBE, beBytes, leBytes]
  | succ n ih =>
    obtain ⟨b, old, rfl⟩ := List.exists_cons_of_length_eq_add_one hold
    rw [List.length_cons] at hlast hold
    have hstart : front ++ b :: old ++ back = (front ++ [b]) ++ old ++ back := by simp
    have hrest := @ih (front ++ [b]) old (by rw [List.length_append, List.length_singleton]; omega)
      (by omega) (by omega)
    have hstep : storeBE last v (n + 1) (front ++ b :: old ++ back) =
        (storeBE last v n (front ++ b :: old ++ back)).bind fun buf =>
          store buf (last - n) [(v >>> UInt64.ofNat (8 * n)).toUInt8] := by
      simp [storeBE, List.range_succ, List.foldlM_append]
    rw [hstep, hstart, hrest, Option.bind_some, toUInt8_shiftRight (by omega), List.append_assoc,
      List.append_assoc, ← List.append_assoc, store_append (by omega) (by simp), beBytes, beBytes,
      leBytes_succ, List.reverse_append]
    simp

/-- The last block of a message: zeros up to the length, then the length. -/
theorem close_eq {front back : List UInt8} {first : ℕ} (hfront : front.length = first)
    (hfirst : first ≤ 56) (hback : first + back.length = 64) (v : UInt64) :
    (fillZero (front ++ back) first 56).bind (storeBE 63 v 8) =
      some (front ++ List.replicate (56 - first) 0 ++ beBytes 8 v.toNat) := by
  have hsplit : front ++ back =
      front ++ back.take (56 - first) ++ back.drop (56 - first) := by
    rw [List.append_assoc, List.take_append_drop]
  have htake : (back.take (56 - first)).length = 56 - first := by
    rw [List.length_take]
    omega
  have hdrop : (back.drop (56 - first)).length = 8 := by
    rw [List.length_drop]
    omega
  have hfill := @fillZero_append _ _ (back.drop (56 - first)) _ 56 hfront
    (show first + (back.take (56 - first)).length = 56 by omega)
  have hlength := @storeBE_eq (front ++ List.replicate (56 - first) 0) (back.drop (56 - first)) []
    63 8 v (by rw [List.length_append, List.length_replicate]; omega) hdrop le_rfl
  rw [List.append_nil, List.append_nil] at hlength
  rw [hsplit, hfill, Option.bind_some, hlength]

/-! ## Padding -/

/-- The bytes that end a message of `length` bytes: a marker, zeros up to a multiple of 64, and the
number of bits. -/
def ending (length : ℕ) : List UInt8 :=
  [0x80] ++ List.replicate (((length + 8) / 64 + 1) * 64 - length - 9) 0 ++
    beBytes 8 ((UInt64.ofNat length * 8).toNat)

theorem length_ending (length : ℕ) :
    length + (ending length).length = ((length + 8) / 64 + 1) * 64 := by
  simp only [ending, List.length_append, List.length_singleton, List.length_replicate,
    length_beBytes]
  omega

end MoMiner.BlockHash
