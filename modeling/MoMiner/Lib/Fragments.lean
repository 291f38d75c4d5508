import Mathlib.Algebra.BigOperators.Intervals
import Mathlib.Algebra.BigOperators.Ring.Finset

/-!
# Matrix instructions

A matrix instruction adds products of two fragments to an accumulator. What the lanes hold is a
function of an index: the accumulator, and the entries of both fragments as integers.

**The instructions.** `xmxDpas` multiplies 8 rows by `width` columns, the second operand packed by
fours; `wmma` multiplies 16 rows by 16 columns, spread over 32 lanes.

Main results: `foldl_blocks`, `dpas8x16x32_eq` and `wmma_eq`.
-/

namespace MoMiner.Fragments

open Finset (range sum_congr)

/-! ## Accumulators -/

/-- A place of an accumulator that a loop adds to. -/
theorem foldl_accumulate {α ι : Type*} (step : α → ι → α) {term : ι → ℤ} (place : α → ℤ)
    (hstep : ∀ acc c, place (step acc c) = place acc + term c) (l : List ι) (acc : α) :
    place (l.foldl step acc) = l.foldl (fun x c => x + term c) (place acc) := by
  induction l generalizing acc with
  | nil => rfl
  | cons c l ih => rw [List.foldl_cons, ih, hstep, List.foldl_cons]

/-- **Sums of blocks.** A sum that is taken block by block. -/
theorem foldl_blocks (g : ℕ → ℤ) (w t : ℕ) :
    (List.range t).foldl (fun x c => x + ∑ k ∈ range w, g (w * c + k)) 0 =
      ∑ k ∈ range (w * t), g k := by
  induction t with
  | zero => simp
  | succ t ih =>
    rw [List.range_succ, List.foldl_append, ih, Nat.mul_succ, Finset.sum_range_add]
    rfl

/-! ## Columns packed by fours -/

/-- `xmx::dpas` of depth 32, for 8 rows and `width` columns. -/
def xmxDpas (width : ℕ) (acc b a : ℕ → ℤ) (i : ℕ) : ℤ :=
  acc i + ∑ k ∈ range 32,
    a (i / width * 32 + k) * b (k / 4 * (4 * width) + i % width * 4 + k % 4)

/-- Sixteen columns, on an instruction of as many or of half as many. -/
def dpas8x16x32 (wide : Bool) (acc b a : ℕ → ℤ) (i : ℕ) : ℤ :=
  if wide then xmxDpas 16 acc b a i
  else
    let column := i % 16 / 8 * 8
    let halfB := fun byte => b ((byte / 32 * 16 + column + byte / 4 % 8) * 4 + byte % 4)
    let halfAcc := fun j => acc (j / 8 * 16 + column + j % 8)
    xmxDpas 8 halfAcc halfB a (i / 16 * 8 + i % 8)

/-- **Both widths** give the same products. -/
theorem dpas8x16x32_eq (wide : Bool) (acc b a : ℕ → ℤ) (i : ℕ) :
    dpas8x16x32 wide acc b a i =
      acc i + ∑ k ∈ range 32, a (i / 16 * 32 + k) * b (k / 4 * 64 + i % 16 * 4 + k % 4) := by
  cases wide with
  | true => rfl
  | false =>
    have hrow : (i / 16 * 8 + i % 8) / 8 = i / 16 := by omega
    have hcol : (i / 16 * 8 + i % 8) % 8 = i % 8 := by omega
    simp only [dpas8x16x32, xmxDpas, Bool.false_eq_true, if_false, hrow, hcol]
    congr 1
    · exact congrArg acc (by omega)
    · refine sum_congr rfl fun k hk => ?_
      have hk' := Finset.mem_range.mp hk
      refine congrArg (a (i / 16 * 32 + k) * ·) (congrArg b ?_)
      have hbyte : (k / 4 * (4 * 8) + i % 8 * 4 + k % 4) / 32 = k / 4 := by omega
      have hquad : (k / 4 * (4 * 8) + i % 8 * 4 + k % 4) / 4 % 8 = i % 8 := by omega
      have hin : (k / 4 * (4 * 8) + i % 8 * 4 + k % 4) % 4 = k % 4 := by omega
      rw [hbyte, hquad, hin]
      omega

/-! ## Fragments over lanes -/

/-- The 16 by 16 by 16 instruction. A lane has 8 entries of a row of `a` and of a column of `b`, and
8 rows of a column of the accumulator; the upper half of the lanes has the later ones. -/
def wmma (a b : ℕ → ℕ → ℤ) (acc : ℕ → ℕ → ℤ) (lane e : ℕ) : ℤ :=
  acc lane e + ∑ k ∈ range 16,
    a (k / 8 * 16 + (lane / 16 * 8 + e)) (k % 8) * b (k / 8 * 16 + lane % 16) (k % 8)

/-- The products, when the lanes have the entries of two matrices. -/
theorem wmma_eq {a b : ℕ → ℕ → ℤ} (entryA entryB : ℕ → ℕ → ℤ) (acc : ℕ → ℕ → ℤ) {lane e : ℕ}
    (hlane : lane < 32) (he : e < 8)
    (ha : ∀ l < 32, ∀ i < 8, a l i = entryA (l % 16) (l / 16 * 8 + i))
    (hb : ∀ l < 32, ∀ i < 8, b l i = entryB (l % 16) (l / 16 * 8 + i)) :
    wmma a b acc lane e =
      acc lane e + ∑ k ∈ range 16, entryA (lane / 16 * 8 + e) k * entryB (lane % 16) k := by
  rw [wmma]
  refine congrArg (acc lane e + ·) (sum_congr rfl fun k hk => ?_)
  have hk' := Finset.mem_range.mp hk
  have hrow : (k / 8 * 16 + (lane / 16 * 8 + e)) % 16 = lane / 16 * 8 + e := by omega
  have hrow' : (k / 8 * 16 + (lane / 16 * 8 + e)) / 16 * 8 + k % 8 = k := by omega
  have hcol : (k / 8 * 16 + lane % 16) % 16 = lane % 16 := by omega
  have hcol' : (k / 8 * 16 + lane % 16) / 16 * 8 + k % 8 = k := by omega
  rw [ha _ (by omega) _ (by omega), hb _ (by omega) _ (by omega), hrow, hrow', hcol, hcol']

end MoMiner.Fragments
