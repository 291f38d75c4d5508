import Mathlib.Data.Nat.Bitwise
import MoMiner.Lib.Bytes

/-!
# Writing bits through an accumulator

Numbers of a fixed width are shifted into a 32-bit accumulator, and whole bytes are written from its
pending bits, the most significant first. A shift loses the bits above the word, which does no harm
as long as they are not pending.

`Holds` relates the bytes written and the pending bits to the number they make together. Main
results: `Writer.Holds.push` and `Writer.Holds.drain`.

A second way of writing sets the bits of a little-endian string of bytes one by one (`setBit`); a run
of it adds a number above what is there (`ofLE_setBits`).
-/

namespace MoMiner.BitWriter

open MoMiner.Bytes

structure Writer where
  acc : UInt32
  bits : ℕ
  out : List UInt8

namespace Writer

def start : Writer := ⟨0, 0, []⟩

/-- Shift a number of a width into the accumulator. -/
def push (width : ℕ) (v : UInt32) (w : Writer) : Writer :=
  { w with acc := (w.acc <<< UInt32.ofNat width) ||| v, bits := w.bits + width }

/-- Write the pending bytes, at most `outLen` in all. -/
def drain (outLen : ℕ) (w : Writer) : Writer :=
  if 8 ≤ w.bits ∧ w.out.length < outLen then
    drain outLen
      { w with bits := w.bits - 8, out := w.out ++ [(w.acc >>> UInt32.ofNat (w.bits - 8)).toUInt8] }
  else w
termination_by w.bits

/-- The bytes and the pending bits write a number of `total` bits. -/
structure Holds (w : Writer) (total value : ℕ) : Prop where
  length : 8 * w.out.length + w.bits = total
  value : ofBE w.out * 2 ^ w.bits + w.acc.toNat % 2 ^ w.bits = value

theorem holds_start : start.Holds 0 0 := ⟨rfl, rfl⟩

variable {w : Writer} {total value outLen width : ℕ} {v : UInt32}

theorem ofBE_snoc (bs : List UInt8) (b : UInt8) : ofBE (bs ++ [b]) = ofBE bs * 256 + b.toNat := by
  simp [ofBE]

/-- The accumulator after a shift: what fits above the new number. -/
theorem toNat_push (hwidth : width < 32) (hv : v.toNat < 2 ^ width) :
    (w.push width v).acc.toNat = 2 ^ width * (w.acc.toNat % 2 ^ (32 - width)) + v.toNat := by
  have hsplit : 2 ^ 32 = 2 ^ width * 2 ^ (32 - width) := by
    rw [← pow_add, Nat.add_sub_cancel' hwidth.le]
  have hshift : w.acc.toNat <<< width % 2 ^ 32 = 2 ^ width * (w.acc.toNat % 2 ^ (32 - width)) := by
    rw [Nat.shiftLeft_eq, hsplit, Nat.mul_comm, Nat.mul_mod_mul_left]
  have hamount : width % 2 ^ 32 % 32 = width := by omega
  rw [push, UInt32.toNat_or, UInt32.toNat_shiftLeft, UInt32.toNat_ofNat', hamount, hshift,
    Nat.two_pow_add_eq_or_of_lt hv]

/-- **A shift.** Nothing is lost as long as the pending bits and the new number fit the word. -/
theorem Holds.push (h : w.Holds total value) (hwidth : width < 32) (hbits : w.bits + width ≤ 32)
    (hv : v.toNat < 2 ^ width) :
    (w.push width v).Holds (total + width) (value * 2 ^ width + v.toNat) := by
  refine ⟨?_, ?_⟩
  · have hlength := h.length
    simp only [Writer.push]
    omega
  · have hpow : 2 ^ (w.bits + width) = 2 ^ width * 2 ^ w.bits := by rw [pow_add, Nat.mul_comm]
    have hlow : (2 ^ width * (w.acc.toNat % 2 ^ (32 - width)) + v.toNat) % 2 ^ (w.bits + width) =
        2 ^ width * (w.acc.toNat % 2 ^ w.bits) + v.toNat := by
      rw [hpow, Nat.mod_mul, Nat.mul_add_mod, Nat.mod_eq_of_lt hv,
        Nat.mul_add_div (Nat.two_pow_pos width), Nat.div_eq_of_lt hv, Nat.add_zero,
        Nat.mod_mod_of_dvd _ (Nat.pow_dvd_pow 2 (by omega)), Nat.add_comm]
    have hacc : (w.push width v).acc.toNat % 2 ^ (w.bits + width) =
        2 ^ width * (w.acc.toNat % 2 ^ w.bits) + v.toNat := by
      rw [toNat_push hwidth hv, hlow]
    calc ofBE w.out * 2 ^ (w.bits + width) + (w.push width v).acc.toNat % 2 ^ (w.bits + width)
        = 2 ^ width * (ofBE w.out * 2 ^ w.bits + w.acc.toNat % 2 ^ w.bits) + v.toNat := by
          rw [hacc, hpow]
          ring
      _ = value * 2 ^ width + v.toNat := by rw [h.value, Nat.mul_comm]

/-- One byte from the pending bits to the bytes written. -/
theorem Holds.byte (h : w.Holds total value) (hbits : 8 ≤ w.bits) (hbits' : w.bits ≤ 32) :
    Holds { w with
      bits := w.bits - 8, out := w.out ++ [(w.acc >>> UInt32.ofNat (w.bits - 8)).toUInt8] }
      total value := by
  obtain ⟨m, hm⟩ := Nat.exists_eq_add_of_le' hbits
  have hpow : 2 ^ (m + 8) = 2 ^ m * 256 := pow_add 2 m 8
  have hbyte : (w.acc >>> UInt32.ofNat m).toUInt8.toNat = w.acc.toNat / 2 ^ m % 256 := by
    rw [UInt32.toNat_toUInt8, UInt32.toNat_shiftRight, UInt32.toNat_ofNat',
      show m % 2 ^ 32 % 32 = m by omega, Nat.shiftRight_eq_div_pow]
  have hlength := h.length
  have hvalue := h.value
  refine ⟨?_, ?_⟩
  · simp only [List.length_append, List.length_singleton]
    omega
  · simp only [hm, Nat.add_sub_cancel, ofBE_snoc, hbyte] at hvalue ⊢
    rw [← hvalue, hpow, Nat.mod_mul]
    ring

/-- What every byte keeps is kept until less than a byte is pending or the output is full. -/
theorem drain_run {P : Writer → Prop} (h : P w)
    (hbyte : ∀ w, P w → 8 ≤ w.bits → w.out.length < outLen → P { w with
      bits := w.bits - 8, out := w.out ++ [(w.acc >>> UInt32.ofNat (w.bits - 8)).toUInt8] }) :
    P (w.drain outLen) ∧ ((w.drain outLen).bits < 8 ∨ outLen ≤ (w.drain outLen).out.length) := by
  induction w using drain.induct outLen with
  | case1 w hmore ih =>
    rw [Writer.drain, if_pos hmore]
    exact ih (hbyte w h hmore.1 hmore.2)
  | case2 w hend =>
    rw [Writer.drain, if_neg hend]
    exact ⟨h, by omega⟩

/-- **The bytes that are written.** They and the pending bits stay the same number, and it goes on
until less than a byte is pending or the output is full. -/
theorem Holds.drain (h : w.Holds total value) (hbits : w.bits ≤ 32) :
    (w.drain outLen).Holds total value ∧
      ((w.drain outLen).bits < 8 ∨ outLen ≤ (w.drain outLen).out.length) := by
  obtain ⟨⟨hholds, -⟩, hend⟩ := drain_run (P := fun w => w.Holds total value ∧ w.bits ≤ 32)
    ⟨h, hbits⟩ fun w hw hbits (_ : w.out.length < outLen) =>
      ⟨hw.1.byte hbits hw.2, le_trans (Nat.sub_le _ _) hw.2⟩
  exact ⟨hholds, hend⟩

theorem length_drain_le (h : w.out.length ≤ outLen) : (w.drain outLen).out.length ≤ outLen := by
  refine (drain_run (P := fun w => w.out.length ≤ outLen) h fun w _ _ hlt => ?_).1
  rw [List.length_append, List.length_singleton]
  omega

end Writer

/-! ## Setting bits -/

/-- Set the bit at a place of a string of bytes, the least significant bit of a byte first. -/
def setBit (out : List UInt8) (pos : ℕ) : List UInt8 :=
  out.modify (pos >>> 3) fun byte => byte ||| (1 <<< UInt32.ofNat (pos &&& 7)).toUInt8

theorem length_setBit (out : List UInt8) (pos : ℕ) : (setBit out pos).length = out.length := by
  simp [setBit]

theorem testBit_ofLE (bs : List UInt8) (p : ℕ) :
    (ofLE bs).testBit p = (bs.getD (p / 8) 0).toNat.testBit (p % 8) := by
  induction bs generalizing p with
  | nil => simp [ofLE]
  | cons b bs ih =>
    rw [ofLE, Nat.add_comm, show 256 = 2 ^ 8 from rfl,
      Nat.testBit_two_pow_mul_add _ (UInt8.toNat_lt b)]
    split_ifs with hp
    · rw [Nat.div_eq_of_lt hp, Nat.mod_eq_of_lt hp, List.getD_cons_zero]
    · rw [ih, show p / 8 = (p - 8) / 8 + 1 by omega, List.getD_cons_succ,
        show p % 8 = (p - 8) % 8 by omega]

theorem ofLE_cleared (n : ℕ) : ofLE (List.replicate n 0) = 0 := by
  induction n with
  | zero => rfl
  | succ n ih => simp [List.replicate_succ, ofLE, ih]

theorem ofLE_setBit {out : List UInt8} {pos : ℕ} (hpos : pos / 8 < out.length) :
    ofLE (setBit out pos) = ofLE out ||| 2 ^ pos := by
  refine Nat.eq_of_testBit_eq fun p => ?_
  have hbyte : ((1 <<< UInt32.ofNat (pos &&& 7)).toUInt8).toNat = 2 ^ (pos % 8) := by
    have hlow : pos &&& 7 = pos % 8 := Nat.and_two_pow_sub_one_eq_mod pos 3
    have hlt := Nat.mod_lt pos (show 0 < 8 by decide)
    rw [hlow]
    interval_cases pos % 8 <;> rfl
  rw [Nat.testBit_or, testBit_ofLE, testBit_ofLE, setBit, Nat.shiftRight_eq_div_pow,
    List.getD_eq_getElem?_getD, List.getElem?_modify, List.getD_eq_getElem?_getD,
    Nat.testBit_two_pow]
  by_cases hsame : pos / 2 ^ 3 = p / 8
  · have hlt : p / 8 < out.length := by omega
    rw [List.getElem?_eq_getElem hlt]
    simp only [hsame, if_true, Option.map_eq_map, Option.map_some, Option.getD_some,
      UInt8.toNat_or, hbyte, Nat.testBit_or, Nat.testBit_two_pow]
    congr 1
    exact decide_eq_decide.mpr (by omega)
  · rw [decide_eq_false (by rintro rfl; exact hsame rfl), Bool.or_false]
    have hid : (fun a : UInt8 => if pos / 2 ^ 3 = p / 8 then
        a ||| (1 <<< UInt32.ofNat (pos &&& 7)).toUInt8 else a) = id := by
      funext a
      exact if_neg hsame
    rw [hid, id_map]

/-- Set the bits of a number above a place. -/
def setBits (out : List UInt8) (base : ℕ) (v : UInt32) (n : ℕ) : List UInt8 :=
  (List.range n).foldl (fun out b =>
    if v &&& (1 <<< UInt32.ofNat b) ≠ 0 then setBit out (base + b) else out) out

theorem and_bit_ne_zero (v : UInt32) {b : ℕ} (hb : b < 32) :
    v &&& (1 <<< UInt32.ofNat b) ≠ 0 ↔ v.toNat.testBit b = true := by
  have hamount : (UInt32.ofNat b).toNat % 32 = b := by
    rw [UInt32.toNat_ofNat']
    omega
  have hbit : ((1 : UInt32) <<< UInt32.ofNat b).toNat = 2 ^ b := by
    rw [UInt32.toNat_shiftLeft, hamount]
    change 1 <<< b % 2 ^ 32 = 2 ^ b
    rw [Nat.one_shiftLeft, Nat.mod_eq_of_lt (Nat.pow_lt_pow_right (by decide) hb)]
  rw [ne_eq, ← UInt32.toNat_inj, UInt32.toNat_and, hbit, Nat.and_comm, Nat.two_pow_and]
  cases v.toNat.testBit b <;> simp

/-- **A number on top.** Setting the bits of a number above all that is there adds the number. -/
theorem ofLE_setBits {out : List UInt8} {base n : ℕ} (v : UInt32) (hout : ofLE out < 2 ^ base)
    (hn : n ≤ 32) (hend : base + n ≤ 8 * out.length) :
    ofLE (setBits out base v n) = ofLE out + v.toNat % 2 ^ n * 2 ^ base ∧
      (setBits out base v n).length = out.length := by
  induction n with
  | zero => simp [setBits, Nat.mod_one]
  | succ n ih =>
    obtain ⟨ih, hlength⟩ := ih (by omega) (by omega)
    have hstep : setBits out base v (n + 1) =
        if v &&& (1 <<< UInt32.ofNat n) ≠ 0 then setBit (setBits out base v n) (base + n)
        else setBits out base v n := by
      simp [setBits, List.range_succ]
    have hmod : v.toNat % 2 ^ (n + 1) = v.toNat % 2 ^ n + 2 ^ n * (v.toNat.testBit n).toNat := by
      rw [Nat.toNat_testBit, pow_succ, Nat.mod_mul]
    have hlow : ofLE (setBits out base v n) < 2 ^ (base + n) := by
      rw [ih, pow_add]
      have := Nat.mod_lt v.toNat (Nat.two_pow_pos n)
      nlinarith [Nat.two_pow_pos base]
    rw [hstep]
    by_cases hbit : v.toNat.testBit n = true
    · rw [if_pos ((and_bit_ne_zero v (by omega)).mpr hbit), length_setBit,
        ofLE_setBit (by omega), hlength, hmod, hbit]
      refine ⟨?_, rfl⟩
      have hor := Nat.two_pow_add_eq_or_of_lt hlow 1
      rw [Nat.mul_one] at hor
      rw [Nat.or_comm, ← hor, ih, pow_add]
      simp only [Bool.toNat_true]
      ring
    · rw [if_neg (mt (and_bit_ne_zero v (by omega)).mp hbit), hmod,
        Bool.eq_false_iff.mpr hbit]
      exact ⟨by simpa using ih, hlength⟩

end MoMiner.BitWriter
