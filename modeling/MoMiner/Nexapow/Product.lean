import MoMiner.Nexapow.Portable

/-!
# Products in columns

An accumulator stands for a number, and its carries are exact as long as a column has few terms.

Main results: `multiplyWide_spec`, `squareWide_spec` and `subtractProductWide_spec`.
-/

namespace MoMiner.Nexapow

open MoMiner.Limbs

/-! ## Words -/

theorem toNat_ofBool (b : Bool) : (ofBool b).toNat = if b then 1 else 0 := by
  cases b <;> rfl

theorem eq_zero_or_eq_one {b : UInt32} (h : b.toNat ≤ 1) : b = 0 ∨ b = 1 := by
  rcases Nat.le_one_iff_eq_zero_or_eq_one.mp h with h | h
  · exact .inl (UInt32.toNat_inj.mp h)
  · exact .inr (UInt32.toNat_inj.mp h)

/-- A sum wraps exactly when it is below a summand. -/
theorem toNat_add_ofBool (x y : UInt32) :
    (x + y).toNat + 2 ^ 32 * (ofBool (x + y < x)).toNat = x.toNat + y.toNat := by
  have hx := x.toNat_lt
  have hy := y.toNat_lt
  rw [toNat_ofBool]
  simp only [UInt32.lt_iff_toNat_lt, UInt32.toNat_add, decide_eq_true_eq]
  split_ifs <;> omega

theorem toNat_add_of_lt {x y : UInt32} (h : x.toNat + y.toNat < 2 ^ 32) :
    (x + y).toNat = x.toNat + y.toNat := by
  rw [UInt32.toNat_add, Nat.mod_eq_of_lt h]

/-- The two words of a product. -/
theorem toNat_product (a b : UInt32) :
    (a.toUInt64 * b.toUInt64).toUInt32.toNat +
        2 ^ 32 * ((a.toUInt64 * b.toUInt64) >>> 32).toUInt32.toNat = a.toNat * b.toNat := by
  have ha := a.toNat_lt
  have hb := b.toNat_lt
  have hab : a.toNat * b.toNat < 2 ^ 64 := by nlinarith
  have hprod : (a.toUInt64 * b.toUInt64).toNat = a.toNat * b.toNat := by
    rw [UInt64.toNat_mul, UInt32.toNat_toUInt64, UInt32.toNat_toUInt64, Nat.mod_eq_of_lt hab]
  have hshift : ((a.toUInt64 * b.toUInt64) >>> 32).toNat = a.toNat * b.toNat / 2 ^ 32 := by
    rw [UInt64.toNat_shiftRight, hprod, Nat.shiftRight_eq_div_pow]
    rfl
  rw [UInt64.toNat_toUInt32, UInt64.toNat_toUInt32, hshift, hprod]
  omega

/-! ## Accumulators -/

namespace Accumulator

def toNat (acc : Accumulator) : ℕ :=
  acc.low.toNat + 2 ^ 32 * (acc.middle.toNat + acc.lowCarry.toNat) + 2 ^ 64 * acc.high.toNat

/-- The carries after `n` terms. -/
def Bounded (acc : Accumulator) (n : ℕ) : Prop := acc.lowCarry.toNat ≤ n ∧ acc.high.toNat ≤ 2 * n

end Accumulator

theorem ofBool_le (b : Bool) : (ofBool b).toNat ≤ 1 := by
  rw [toNat_ofBool]
  split_ifs <;> decide

theorem addValue_spec {acc : Accumulator} {low middle high : UInt32} {n : ℕ} (hn : n < 2 ^ 16)
    (hacc : acc.Bounded n) (hhigh : high.toNat ≤ 1) :
    (addValue acc low middle high).toNat =
        acc.toNat + (low.toNat + 2 ^ 32 * middle.toNat + 2 ^ 64 * high.toNat) ∧
      (addValue acc low middle high).Bounded (n + 1) := by
  obtain ⟨hcarry, hacc⟩ := hacc
  have hlow := toNat_add_ofBool acc.low low
  have hmiddle := toNat_add_ofBool acc.middle middle
  have hlowBit := ofBool_le (acc.low + low < acc.low)
  have hmiddleBit := ofBool_le (acc.middle + middle < acc.middle)
  have hlowCarry : (addValue acc low middle high).lowCarry.toNat =
      acc.lowCarry.toNat + (ofBool (acc.low + low < acc.low)).toNat :=
    toNat_add_of_lt (by omega)
  have hsum : (high + ofBool (acc.middle + middle < acc.middle)).toNat =
      high.toNat + (ofBool (acc.middle + middle < acc.middle)).toNat := toNat_add_of_lt (by omega)
  have hhighSum : (addValue acc low middle high).high.toNat =
      acc.high.toNat + (high + ofBool (acc.middle + middle < acc.middle)).toNat :=
    toNat_add_of_lt (by omega)
  constructor
  · rw [Accumulator.toNat, Accumulator.toNat, hlowCarry, hhighSum, hsum]
    simp only [addValue]
    omega
  · rw [Accumulator.Bounded, hlowCarry, hhighSum, hsum]
    omega

theorem addProduct_spec {acc : Accumulator} {a b : UInt32} {n : ℕ} (hn : n < 2 ^ 16)
    (hacc : acc.Bounded n) : (addProduct acc a b).toNat = acc.toNat + a.toNat * b.toNat ∧
      (addProduct acc a b).Bounded (n + 1) := by
  have hzero : (0 : UInt32).toNat ≤ 1 := by decide
  obtain ⟨hvalue, hbounded⟩ := addValue_spec hn hacc hzero
  refine ⟨?_, hbounded⟩
  rw [addProduct, hvalue, ← toNat_product a b]
  rfl

/-- A number of two words, doubled into three. -/
theorem toNat_doubled (low high : UInt32) :
    (low <<< 1).toNat + 2 ^ 32 * ((high <<< 1) ||| (low >>> 31)).toNat +
        2 ^ 64 * (high >>> 31).toNat =
      2 * (low.toNat + 2 ^ 32 * high.toNat) ∧ (high >>> 31).toNat ≤ 1 := by
  have hlow := low.toNat_lt
  have hhigh := high.toNat_lt
  have hleft : ∀ x : UInt32, (x <<< 1).toNat = 2 * x.toNat % 2 ^ 32 := by
    intro x
    rw [UInt32.toNat_shiftLeft, show (1 : UInt32).toNat % 32 = 1 from rfl, Nat.shiftLeft_eq,
      Nat.mul_comm, pow_one]
  have hright : ∀ x : UInt32, (x >>> 31).toNat = x.toNat / 2 ^ 31 := by
    intro x
    rw [UInt32.toNat_shiftRight, show (31 : UInt32).toNat % 32 = 31 from rfl,
      Nat.shiftRight_eq_div_pow]
  -- The low bit of the middle word is free for the bit that leaves the low word.
  have hor : ((high <<< 1) ||| (low >>> 31)).toNat =
      2 * high.toNat % 2 ^ 32 + low.toNat / 2 ^ 31 := by
    have hbit : low.toNat / 2 ^ 31 < 2 ^ 1 := by omega
    rw [UInt32.toNat_or, hleft, hright,
      show 2 * high.toNat % 2 ^ 32 = 2 ^ 1 * (high.toNat % 2 ^ 31) by omega,
      ← Nat.two_pow_add_eq_or_of_lt hbit]
  rw [hleft, hor, hright]
  omega

theorem addDoubledProduct_spec {acc : Accumulator} {a b : UInt32} {n : ℕ} (hn : n < 2 ^ 16)
    (hacc : acc.Bounded n) :
    (addDoubledProduct acc a b).toNat = acc.toNat + 2 * (a.toNat * b.toNat) ∧
      (addDoubledProduct acc a b).Bounded (n + 1) := by
  obtain ⟨hdoubled, hbit⟩ := toNat_doubled (a.toUInt64 * b.toUInt64).toUInt32
    ((a.toUInt64 * b.toUInt64) >>> 32).toUInt32
  obtain ⟨hvalue, hbounded⟩ := addValue_spec hn hacc hbit
  refine ⟨?_, hbounded⟩
  rw [addDoubledProduct, hvalue, hdoubled, toNat_product]

/-- **The end of a column.** -/
theorem outputLimb_spec {acc : Accumulator} {n : ℕ} (hn : n < 2 ^ 16) (hacc : acc.Bounded n) :
    (outputLimb acc).2.toNat + 2 ^ 32 * (outputLimb acc).1.toNat = acc.toNat ∧
      (outputLimb acc).1.Bounded 0 := by
  obtain ⟨hcarry, hacc⟩ := hacc
  have hlow := toNat_add_ofBool acc.middle acc.lowCarry
  have hbit := ofBool_le (acc.middle + acc.lowCarry < acc.middle)
  have hmiddle : (acc.high + ofBool (acc.middle + acc.lowCarry < acc.middle)).toNat =
      acc.high.toNat + (ofBool (acc.middle + acc.lowCarry < acc.middle)).toNat :=
    toNat_add_of_lt (by omega)
  refine ⟨?_, le_rfl, le_rfl⟩
  simp only [outputLimb, Accumulator.toNat, hmiddle, UInt32.toNat_zero]
  omega

/-! ## Columns -/

/-- **The terms of a column.** -/
theorem foldl_terms {α : Type} {add : Accumulator → α → Accumulator} (amount : α → ℕ)
    (hadd : ∀ {acc : Accumulator} {n : ℕ} (t : α), n < 2 ^ 16 → acc.Bounded n →
      (add acc t).toNat = acc.toNat + amount t ∧ (add acc t).Bounded (n + 1))
    (terms : List α) {acc : Accumulator} {n : ℕ} (hn : n + terms.length ≤ 2 ^ 16)
    (hacc : acc.Bounded n) :
    (terms.foldl add acc).toNat = acc.toNat + (terms.map amount).sum ∧
      (terms.foldl add acc).Bounded (n + terms.length) := by
  induction terms generalizing acc n with
  | nil => exact ⟨rfl, hacc⟩
  | cons t terms ih =>
    rw [List.length_cons] at hn
    obtain ⟨hvalue, hbounded⟩ := hadd t (by omega) hacc
    obtain ⟨hvalue', hbounded'⟩ := ih (by omega) hbounded
    refine ⟨?_, ?_⟩
    · rw [List.foldl_cons, hvalue', hvalue, List.map_cons, List.sum_cons, Nat.add_assoc]
    · rw [List.foldl_cons, List.length_cons, ← Nat.add_assoc, Nat.add_right_comm]
      exact hbounded'

theorem length_columnPairs_le : ∀ column < 15, (columnPairs 8 column).length ≤ 8 := by
  decide

/-- A column of a product, with the carry of the column before. -/
theorem multiplyColumn_spec (a b : Number 8) {acc : Accumulator} {column : ℕ}
    (hcolumn : column < 15)
    (hacc : acc.Bounded 0) :
    (multiplyColumn a b acc column).1.Bounded 0 ∧
      (multiplyColumn a b acc column).2.toNat + 2 ^ 32 * (multiplyColumn a b acc column).1.toNat =
        columnSum a b column + acc.toNat := by
  have hlength := length_columnPairs_le column hcolumn
  obtain ⟨hvalue, hbounded⟩ := foldl_terms
    (fun p : Fin 8 × Fin 8 => (a.get p.1).toNat * (b.get p.2).toNat)
    (fun p hn hacc => addProduct_spec hn hacc) (columnPairs 8 column) (by omega) hacc
  obtain ⟨hout, hnext⟩ := outputLimb_spec (by omega) hbounded
  refine ⟨hnext, ?_⟩
  rw [multiplyColumn, hout, hvalue, Nat.add_comm, columnSum]

/-- **A product from its columns.** The last limb is what is left of the accumulator. -/
theorem value_columns {step : Accumulator → ℕ → Accumulator × UInt32} {a b : Number 8}
    (hstep : ∀ {acc : Accumulator} {column : ℕ}, column < 15 → acc.Bounded 0 →
      (step acc column).1.Bounded 0 ∧
        (step acc column).2.toNat + 2 ^ 32 * (step acc column).1.toNat =
        columnSum a b column + acc.toNat) :
    (scan step {} (List.range 15)).1.toNat = (scan step {} (List.range 15)).1.low.toNat ∧
      value ((scan step {} (List.range 15)).2 ++ [(scan step {} (List.range 15)).1.low]) =
        a.toNat * b.toNat := by
  have hzero : ({} : Accumulator).Bounded 0 := ⟨le_rfl, le_rfl⟩
  obtain ⟨-, hsum⟩ := value_scan step (fun acc => (acc.toNat : ℤ))
    (fun column => (columnSum a b column : ℤ)) (fun acc => acc.Bounded 0) (l := List.range 15) hzero
    fun acc column hcolumn hacc => by
      obtain ⟨hnext, hlimb⟩ := hstep (List.mem_range.mp hcolumn) hacc
      exact ⟨hnext, by exact_mod_cast hlimb⟩
  rw [weigh_columns a b (by decide), List.length_range] at hsum
  have hlength : (scan step {} (List.range 15)).2.length = 15 := length_scan _ _ _
  generalize scan step {} (List.range 15) = r at hsum hlength ⊢
  have hproduct : value r.2 + (2 ^ 32) ^ 15 * r.1.toNat = a.toNat * b.toNat := by
    exact_mod_cast hsum
  have hlt : a.toNat * b.toNat < (2 ^ 32) ^ 15 * 2 ^ 32 :=
    (Nat.mul_lt_mul'' a.toNat_lt b.toNat_lt).trans_eq (by decide)
  have hlast : r.1.toNat < 2 ^ 32 := by omega
  have hlow : r.1.toNat = r.1.low.toNat := by
    rw [Accumulator.toNat] at hlast ⊢
    omega
  refine ⟨hlow, ?_⟩
  rw [value_append, value_cons, value_nil, hlength, ← hlow]
  omega

theorem multiplyWide_spec (a b : Number 8) : (multiplyWide a b).toNat = a.toNat * b.toNat :=
  (value_columns (multiplyColumn_spec a b)).2

theorem addSquareTerm_spec (a : Number 8) {acc : Accumulator} {n : ℕ} (p : Fin 8 × Fin 8)
    (hn : n < 2 ^ 16) (hacc : acc.Bounded n) :
    (addSquareTerm a acc p).toNat = acc.toNat + squareAmount a p ∧
      (addSquareTerm a acc p).Bounded (n + 1) := by
  rw [addSquareTerm, squareAmount]
  split_ifs with h
  · exact addProduct_spec hn hacc
  · exact addDoubledProduct_spec hn hacc

theorem squareColumn_spec (a : Number 8) {acc : Accumulator} {column : ℕ} (hcolumn : column < 15)
    (hacc : acc.Bounded 0) :
    (squareColumn a acc column).1.Bounded 0 ∧
      (squareColumn a acc column).2.toNat + 2 ^ 32 * (squareColumn a acc column).1.toNat =
        columnSum a a column + acc.toNat := by
  have hlength : ((columnPairs 8 column).filter fun p => p.1 ≤ p.2).length ≤ 8 :=
    (List.length_filter_le _ _).trans (length_columnPairs_le column hcolumn)
  obtain ⟨hvalue, hbounded⟩ := foldl_terms (squareAmount a) (addSquareTerm_spec a)
    ((columnPairs 8 column).filter fun p => p.1 ≤ p.2) (by omega) hacc
  obtain ⟨hout, hnext⟩ := outputLimb_spec (by omega) hbounded
  refine ⟨hnext, ?_⟩
  rw [squareColumn, hout, hvalue, sum_squareAmount, Nat.add_comm]

/-- The limbs of a square are those of the product. -/
theorem squareWide_eq (a : Number 8) : squareWide a = multiplyWide a a := by
  refine Number.eq_of_toNat_eq ?_
  rw [multiplyWide_spec]
  exact (value_columns (squareColumn_spec a)).2

/-! ## Differences -/

/-- A limb of a difference. -/
theorem subtractProductLimb_spec {borrow : UInt32} (hborrow : borrow.toNat ≤ 1)
    (output product : UInt32) :
    (subtractProductLimb borrow output product).1.toNat ≤ 1 ∧
      ((subtractProductLimb borrow output product).2.toNat : ℤ) +
          2 ^ 32 * -((subtractProductLimb borrow output product).1.toNat : ℤ) =
        output.toNat - product.toNat - borrow.toNat := by
  have hout := output.toNat_lt
  have hproduct := product.toNat_lt
  have hbits : ∀ p q : Bool, (ofBool p ||| ofBool q).toNat = if p || q then 1 else 0 := by decide
  simp only [subtractProductLimb, hbits, Bool.or_eq_true, decide_eq_true_eq, UInt32.lt_iff_toNat_lt,
    UInt32.toNat_sub]
  split_ifs with h
  · refine ⟨le_rfl, ?_⟩
    push_cast
    omega
  · refine ⟨by decide, ?_⟩
    push_cast
    omega

/-- The product limbs do not depend on what they are subtracted from. -/
theorem scan_subtractColumn (a b : Number 8) {l : List UInt32} {columns : List ℕ}
    (h : l.length = columns.length) (acc : Accumulator) (borrow : UInt32) :
    (scan (subtractColumn a b) (acc, borrow) (l.zip columns)).1.1 =
      (scan (multiplyColumn a b) acc columns).1 := by
  induction l generalizing columns acc borrow with
  | nil =>
    rw [List.length_eq_zero_iff.mp h.symm]
    rfl
  | cons w l ih =>
    cases columns with
    | nil => cases h
    | cons column columns => exact ih (Nat.succ.inj h) _ _

theorem subtractColumn_spec (a b : Number 8) {s : Accumulator × UInt32} {limb : UInt32 × ℕ}
    (hcolumn : limb.2 < 15) (hs : s.1.Bounded 0 ∧ s.2.toNat ≤ 1) :
    ((subtractColumn a b s limb).1.1.Bounded 0 ∧ (subtractColumn a b s limb).1.2.toNat ≤ 1) ∧
      ((subtractColumn a b s limb).2.toNat : ℤ) + 2 ^ 32 *
          (-((subtractColumn a b s limb).1.1.toNat : ℤ) - (subtractColumn a b s limb).1.2.toNat) =
        (limb.1.toNat + -1 * columnSum a b limb.2) + (-(s.1.toNat : ℤ) - s.2.toNat) := by
  obtain ⟨hnext, hlimb⟩ := multiplyColumn_spec a b hcolumn hs.1
  obtain ⟨hborrow, hdiff⟩ := subtractProductLimb_spec hs.2 limb.1 (multiplyColumn a b s.1 limb.2).2
  refine ⟨⟨hnext, hborrow⟩, ?_⟩
  have hlimb' : ((multiplyColumn a b s.1 limb.2).2.toNat : ℤ) +
      2 ^ 32 * (multiplyColumn a b s.1 limb.2).1.toNat = columnSum a b limb.2 + s.1.toNat := by
    exact_mod_cast hlimb
  simp only [subtractColumn]
  linear_combination hdiff - hlimb'

/-- A number from all limbs but the last and the last one. -/
theorem toNat_eq_take_last {n : ℕ} (a : Number (n + 1)) :
    a.toNat = value (a.limbs.take n) + (2 ^ 32) ^ n * (a.get (Fin.last n)).toNat := by
  obtain ⟨l, hl⟩ := a
  have hsplit : l = l.take n ++ [l.get ⟨n, by omega⟩] := by
    have hdrop : l.drop n = [l.get ⟨n, by omega⟩] := by
      rw [List.drop_eq_getElem_cons (by omega), List.drop_eq_nil_of_le (by omega)]
      rfl
    rw [← hdrop, List.take_append_drop]
  have hlength : (l.take n).length = n := by
    rw [List.length_take]
    omega
  have hvalue : value l = value (l.take n ++ [l.get ⟨n, by omega⟩]) := congrArg value hsplit
  rw [value_append, hlength, value_cons, value_nil, Nat.mul_zero, Nat.add_zero] at hvalue
  exact hvalue

/-- **A product is subtracted.** The mask tells whether the difference is negative. -/
theorem subtractProductWide_spec (output : Number 16) (a b : Number 8) :
    ((subtractProductWide output a b).1 = 0 ∧
        (subtractProductWide output a b).2.toNat + a.toNat * b.toNat = output.toNat) ∨
      ((subtractProductWide output a b).1 = 0xffffffff ∧
        (subtractProductWide output a b).2.toNat + a.toNat * b.toNat =
          output.toNat + (2 ^ 32) ^ 16) := by
  have hlimbs : (output.limbs.take 15).length = (List.range 15).length := by
    rw [List.length_take, output.length_eq, List.length_range]
    rfl
  obtain ⟨⟨-, hborrow⟩, hsum⟩ := value_scan (subtractColumn a b)
    (fun s => -(s.1.toNat : ℤ) - s.2.toNat)
    (fun limb => (limb.1.toNat : ℤ) + -1 * columnSum a b limb.2)
    (fun s => s.1.Bounded 0 ∧ s.2.toNat ≤ 1) (l := (output.limbs.take 15).zip (List.range 15))
    (s := ({}, 0)) ⟨⟨le_rfl, le_rfl⟩, by decide⟩
    fun s limb hlimb hs =>
      subtractColumn_spec a b (List.mem_range.mp (List.of_mem_zip hlimb).2) hs
  have hlast := (value_columns (multiplyColumn_spec a b)).1
  rw [← scan_subtractColumn a b hlimbs {} 0] at hlast
  have hlength : (scan (subtractColumn a b) ({}, 0)
      ((output.limbs.take 15).zip (List.range 15))).2.length = 15 := by
    rw [length_scan, List.length_zip, hlimbs, List.length_range]
    rfl
  rw [weigh_map_add, weigh_map_mul, weigh_zip_fst (fun w => (w.toNat : ℤ)) hlimbs,
    weigh_zip_snd (fun column => (columnSum a b column : ℤ)) hlimbs, weigh_toNat,
    weigh_columns a b (by decide), List.length_zip, hlimbs, List.length_range, Nat.min_self] at hsum
  have houtput : output.toNat = value (output.limbs.take 15) +
      (2 ^ 32) ^ 15 * (output.get 15).toNat := toNat_eq_take_last output
  have hresult : ∀ r, scan (subtractColumn a b) ({}, 0)
      ((output.limbs.take 15).zip (List.range 15)) = r →
        (subtractProductWide output a b).1 =
          0 - (subtractProductLimb r.1.2 (output.get 15) r.1.1.low).1 ∧
        (subtractProductWide output a b).2.toNat =
          value (r.2 ++ [(subtractProductLimb r.1.2 (output.get 15) r.1.1.low).2]) := by
    rintro r rfl
    exact ⟨rfl, rfl⟩
  obtain ⟨hmask, hvalue⟩ := hresult _ rfl
  rw [hmask, hvalue]
  generalize scan (subtractColumn a b) ({}, 0) ((output.limbs.take 15).zip (List.range 15)) = r at *
  obtain ⟨hbit, hdiff⟩ := subtractProductLimb_spec hborrow (output.get 15) r.1.1.low
  generalize subtractProductLimb r.1.2 (output.get 15) r.1.1.low = d at *
  rw [value_append, hlength, value_cons, value_nil, houtput]
  have hzero : (({} : Accumulator), (0 : UInt32)).1.toNat = 0 := rfl
  have hzero' : (({} : Accumulator), (0 : UInt32)).2.toNat = 0 := rfl
  rw [hzero, hzero', hlast] at hsum
  have htotal : (value r.2 + (2 ^ 32) ^ 15 * d.2.toNat + a.toNat * b.toNat : ℤ) =
      value (output.limbs.take 15) + (2 ^ 32) ^ 15 * (output.get 15).toNat +
        (2 ^ 32) ^ 16 * d.1.toNat := by
    linear_combination hsum + (2 ^ 32) ^ 15 * hdiff
  have htotal' : value r.2 + (2 ^ 32) ^ 15 * d.2.toNat + a.toNat * b.toNat =
      value (output.limbs.take 15) + (2 ^ 32) ^ 15 * (output.get 15).toNat +
        (2 ^ 32) ^ 16 * d.1.toNat := by exact_mod_cast htotal
  rcases eq_zero_or_eq_one hbit with h | h
  · rw [h, UInt32.toNat_zero] at htotal'
    exact .inl ⟨by rw [h]; rfl, by omega⟩
  · rw [h, UInt32.toNat_one] at htotal'
    exact .inr ⟨by rw [h]; rfl, by omega⟩

end MoMiner.Nexapow
