import Mathlib.Algebra.BigOperators.Fin
import Mathlib.Algebra.BigOperators.Ring.Finset
import Mathlib.Data.Nat.Digits.Lemmas
import Mathlib.Tactic.LinearCombination
import Mathlib.Tactic.Ring

/-!
# Numbers in limbs of 32 bits

A number is stored in 32-bit limbs, least significant limb first. A loop over limbs keeps a state,
such as a carry or a column accumulator, and writes one limb per step (`scan`). When every step
writes its term plus the carry, up to a multiple of the base that goes to the next carry, the limbs
are those of the sum of all terms.

Main results: `value_scan` and `weigh_columns`.
-/

namespace MoMiner.Limbs

/-- The number of a list of limbs. -/
def value (l : List UInt32) : ℕ := Nat.ofDigits (2 ^ 32) (l.map UInt32.toNat)

@[simp] theorem value_nil : value [] = 0 := rfl

theorem value_cons (w : UInt32) (l : List UInt32) :
    value (w :: l) = w.toNat + 2 ^ 32 * value l := rfl

theorem value_append (l l' : List UInt32) :
    value (l ++ l') = value l + (2 ^ 32) ^ l.length * value l' := by
  rw [value, List.map_append, Nat.ofDigits_append, List.length_map, value, value]

theorem lt_of_mem_map {l : List UInt32} : ∀ x ∈ l.map UInt32.toNat, x < 2 ^ 32 := by
  intro x hx
  obtain ⟨w, -, rfl⟩ := List.mem_map.mp hx
  exact w.toNat_lt

theorem value_lt (l : List UInt32) : value l < (2 ^ 32) ^ l.length := by
  have h := Nat.ofDigits_lt_base_pow_length (by decide) (lt_of_mem_map (l := l))
  rwa [List.length_map] at h

/-- Limbs are determined by their number. -/
theorem eq_of_value_eq {l l' : List UInt32} (hlength : l.length = l'.length)
    (h : value l = value l') : l = l' := by
  have hmap : l.map UInt32.toNat = l'.map UInt32.toNat :=
    Nat.ofDigits_inj_of_len_eq (by decide) (by simp [hlength]) lt_of_mem_map lt_of_mem_map h
  exact List.map_injective_iff.mpr (fun a b => UInt32.toNat_inj.mp) hmap

/-! ## Loops -/

section Scan

variable {σ α : Type}

/-- Run over a list: each step takes the state and writes a limb. -/
def scan (step : σ → α → σ × UInt32) : σ → List α → σ × List UInt32
  | s, [] => (s, [])
  | s, a :: l => ((scan step (step s a).1 l).1, (step s a).2 :: (scan step (step s a).1 l).2)

/-- The sum of terms, each at the place of its limb. -/
def weigh : List ℤ → ℤ
  | [] => 0
  | x :: l => x + 2 ^ 32 * weigh l

@[simp] theorem length_scan (step : σ → α → σ × UInt32) (s : σ) (l : List α) :
    (scan step s l).2.length = l.length := by
  induction l generalizing s with
  | nil => rfl
  | cons a l ih => rw [scan, List.length_cons, ih, List.length_cons]

/-- **The sum of a loop.** Every step keeps `P` and writes its term plus the carry. -/
theorem value_scan (step : σ → α → σ × UInt32) (carry : σ → ℤ) (term : α → ℤ) (P : σ → Prop)
    {l : List α} {s : σ} (hs : P s)
    (hstep : ∀ s, ∀ a ∈ l, P s → P (step s a).1 ∧
      ((step s a).2.toNat : ℤ) + 2 ^ 32 * carry (step s a).1 = term a + carry s) :
    P (scan step s l).1 ∧
      (value (scan step s l).2 : ℤ) + (2 ^ 32) ^ l.length * carry (scan step s l).1 =
        weigh (l.map term) + carry s := by
  induction l generalizing s with
  | nil => exact ⟨hs, by simp [scan, weigh]⟩
  | cons a l ih =>
    obtain ⟨hnext, hlimb⟩ := hstep s a List.mem_cons_self hs
    obtain ⟨hlast, hsum⟩ := ih hnext fun s b hb => hstep s b (List.mem_cons_of_mem _ hb)
    refine ⟨hlast, ?_⟩
    rw [scan, value_cons, List.length_cons, List.map_cons, weigh, pow_succ _ l.length,
      Nat.cast_add, Nat.cast_mul, Nat.cast_pow, Nat.cast_ofNat]
    linear_combination hlimb + 2 ^ 32 * hsum

theorem weigh_toNat (l : List UInt32) : weigh (l.map fun w => (w.toNat : ℤ)) = value l := by
  induction l with
  | nil => rfl
  | cons w l ih =>
    rw [List.map_cons, weigh, ih, value_cons, Nat.cast_add, Nat.cast_mul, Nat.cast_pow,
      Nat.cast_ofNat]

end Scan

theorem weigh_append (l l' : List ℤ) :
    weigh (l ++ l') = weigh l + (2 ^ 32) ^ l.length * weigh l' := by
  induction l with
  | nil => simp [weigh]
  | cons x l ih =>
    rw [List.cons_append, weigh, weigh, ih, List.length_cons, pow_succ _ l.length]
    ring

theorem weigh_map_range (f : ℕ → ℤ) (n : ℕ) :
    weigh ((List.range n).map f) = ∑ c ∈ Finset.range n, (2 ^ 32) ^ c * f c := by
  induction n with
  | zero => rfl
  | succ n ih =>
    rw [List.range_succ, List.map_append, weigh_append, ih, Finset.sum_range_succ, List.length_map,
      List.length_range, List.map_singleton, weigh, weigh, mul_zero, add_zero]

theorem weigh_map_add {α : Type} (f g : α → ℤ) (l : List α) :
    weigh (l.map fun a => f a + g a) = weigh (l.map f) + weigh (l.map g) := by
  induction l with
  | nil => rfl
  | cons a l ih =>
    rw [List.map_cons, weigh, ih, List.map_cons, weigh, List.map_cons, weigh]
    ring

theorem weigh_map_mul {α : Type} (k : ℤ) (f : α → ℤ) (l : List α) :
    weigh (l.map fun a => k * f a) = k * weigh (l.map f) := by
  induction l with
  | nil => simp [weigh]
  | cons a l ih =>
    rw [List.map_cons, weigh, ih, List.map_cons, weigh]
    ring

theorem weigh_zip_fst {α β : Type} (f : α → ℤ) {l : List α} {l' : List β}
    (h : l.length = l'.length) : weigh ((l.zip l').map fun p => f p.1) = weigh (l.map f) := by
  rw [← List.map_fst_zip h.le, List.map_map, List.map_fst_zip h.le]
  rfl

theorem weigh_zip_snd {α β : Type} (g : β → ℤ) {l : List α} {l' : List β}
    (h : l.length = l'.length) : weigh ((l.zip l').map fun p => g p.2) = weigh (l'.map g) := by
  rw [← List.map_snd_zip h.ge, List.map_map, List.map_snd_zip h.ge]
  rfl

/-! ## Numbers of a fixed size -/

/-- A number of `n` limbs. -/
structure Number (n : ℕ) where
  limbs : List UInt32
  length_eq : limbs.length = n
  deriving DecidableEq

variable {n : ℕ}

def Number.toNat (a : Number n) : ℕ := value a.limbs

def Number.get (a : Number n) (i : Fin n) : UInt32 := a.limbs.get (i.cast a.length_eq.symm)

def Number.ofFn (f : Fin n → UInt32) : Number n := ⟨List.ofFn f, List.length_ofFn⟩

@[simp] theorem Number.get_ofFn (f : Fin n → UInt32) (i : Fin n) : (Number.ofFn f).get i = f i := by
  have h := List.getElem_ofFn (f := f) (i := i.val) (h := by simp)
  exact h

@[simp] theorem Number.ofFn_get (a : Number n) : Number.ofFn a.get = a := by
  obtain ⟨l, rfl⟩ := a
  rw [ofFn, Number.mk.injEq]
  exact List.ofFn_get l

theorem Number.toNat_lt (a : Number n) : a.toNat < (2 ^ 32) ^ n := by
  have h := value_lt a.limbs
  rwa [a.length_eq] at h

theorem Number.eq_of_toNat_eq {a b : Number n} (h : a.toNat = b.toNat) : a = b := by
  obtain ⟨l, hl⟩ := a
  obtain ⟨l', hl'⟩ := b
  obtain rfl : l = l' := eq_of_value_eq (hl.trans hl'.symm) h
  rfl

theorem value_eq_sum (l : List UInt32) :
    (value l : ℤ) = ∑ i : Fin l.length, (2 ^ 32) ^ i.val * ((l.get i).toNat : ℤ) := by
  induction l with
  | nil => rfl
  | cons w l ih =>
    rw [value_cons, Nat.cast_add, Nat.cast_mul, ih, Nat.cast_pow, Nat.cast_ofNat, Finset.mul_sum]
    refine (congrArg₂ (· + ·) ?_ (Finset.sum_congr rfl fun i _ => ?_)).trans
      (Fin.sum_univ_succ (n := l.length) _).symm
    · simp
    · rw [Fin.val_succ, pow_succ' _ i.val, mul_assoc]
      rfl

theorem Number.toNat_eq_sum (a : Number n) :
    (a.toNat : ℤ) = ∑ i : Fin n, (2 ^ 32) ^ i.val * ((a.get i).toNat : ℤ) := by
  obtain ⟨l, rfl⟩ := a
  exact value_eq_sum l

theorem Number.toNat_ofFn (g : ℕ → UInt32) :
    (Number.ofFn fun i : Fin n => g i.val).toNat =
      ∑ i ∈ Finset.range n, (2 ^ 32) ^ i * (g i).toNat := by
  have h := (Number.ofFn fun i : Fin n => g i.val).toNat_eq_sum
  simp only [Number.get_ofFn] at h
  rw [Fin.sum_univ_eq_sum_range (fun i => (2 ^ 32) ^ i * ((g i).toNat : ℤ)) n] at h
  exact_mod_cast h

/-! ## Columns -/

/-- The pairs of limbs of a column of a product, by the first index. -/
def columnPairs (n column : ℕ) : List (Fin n × Fin n) :=
  (List.finRange n).flatMap fun i =>
    ((List.finRange n).filter fun j => i.val + j.val = column).map fun j => (i, j)

theorem sum_map_filter {α : Type} (q : α → Bool) (g : α → ℤ) (l : List α) :
    ((l.filter q).map g).sum = (l.map fun a => if q a then g a else 0).sum := by
  induction l with
  | nil => rfl
  | cons a l ih => by_cases h : q a <;> simp [h, ih]

theorem sum_columnPairs (column : ℕ) (g : Fin n × Fin n → ℤ) :
    ((columnPairs n column).map g).sum =
      ∑ i : Fin n, ∑ j : Fin n, if i.val + j.val = column then g (i, j) else 0 := by
  have hrows : ∀ l : List (Fin n), ((l.flatMap fun i =>
      ((List.finRange n).filter fun j => i.val + j.val = column).map fun j => (i, j)).map g).sum =
        (l.map fun i => ∑ j : Fin n, if i.val + j.val = column then g (i, j) else 0).sum := by
    intro l
    induction l with
    | nil => rfl
    | cons i l ih =>
      rw [List.flatMap_cons, List.map_append, List.sum_append, List.map_map, sum_map_filter, ih,
        List.map_cons, List.sum_cons, Fin.sum_univ_def]
      simp
  rw [columnPairs, hrows, ← Fin.sum_univ_def]

/-- The sum of a column of a product. -/
def columnSum (a b : Number n) (column : ℕ) : ℕ :=
  ((columnPairs n column).map fun p => (a.get p.1).toNat * (b.get p.2).toNat).sum

/-- **The columns of a product**, each at its place, add up to the product. -/
theorem weigh_columns {m : ℕ} (a b : Number n) (hm : 2 * n ≤ m + 1) :
    weigh ((List.range m).map fun column => (columnSum a b column : ℤ)) = a.toNat * b.toNat := by
  rw [weigh_map_range, a.toNat_eq_sum, b.toNat_eq_sum, Finset.sum_mul_sum]
  simp only [columnSum, Nat.cast_list_sum, List.map_map, sum_columnPairs, Finset.mul_sum]
  rw [Finset.sum_comm]
  refine Finset.sum_congr rfl fun i _ => ?_
  rw [Finset.sum_comm]
  refine Finset.sum_congr rfl fun j _ => ?_
  have hmem : i.val + j.val ∈ Finset.range m := Finset.mem_range.mpr (by omega)
  simp only [mul_ite, mul_zero]
  rw [Finset.sum_ite_eq, if_pos hmem, pow_add, Function.comp, Nat.cast_mul]
  ring

/-- In a square the pairs of different limbs are counted twice, once in each order. -/
theorem sum_square (x : Fin n → ℤ) (column : ℕ) :
    (∑ i : Fin n, ∑ j : Fin n, if i.val + j.val = column then
        (if i ≤ j then if i = j then x i * x i else 2 * (x i * x j) else 0) else 0) =
      ∑ i : Fin n, ∑ j : Fin n, if i.val + j.val = column then x i * x j else 0 := by
  have hswap : (∑ i : Fin n, ∑ j : Fin n,
      if i.val + j.val = column ∧ j < i then x i * x j else 0) =
        ∑ i : Fin n, ∑ j : Fin n, if i.val + j.val = column ∧ i < j then x i * x j else 0 := by
    rw [Finset.sum_comm]
    refine Finset.sum_congr rfl fun i _ => Finset.sum_congr rfl fun j _ => ?_
    rw [Nat.add_comm, mul_comm]
  have hall : ∀ i j : Fin n, (if i.val + j.val = column then x i * x j else 0) =
      (if i.val + j.val = column ∧ i = j then x i * x j else 0) +
        (if i.val + j.val = column ∧ i < j then x i * x j else 0) +
        (if i.val + j.val = column ∧ j < i then x i * x j else 0) := by
    intro i j
    rcases lt_trichotomy i j with hij | hij | hij
    · simp [hij, hij.ne, hij.not_gt]
    · simp [hij]
    · simp [hij, hij.ne', hij.not_gt]
  have hhalf : ∀ i j : Fin n, (if i.val + j.val = column then
        (if i ≤ j then if i = j then x i * x i else 2 * (x i * x j) else 0) else 0) =
      (if i.val + j.val = column ∧ i = j then x i * x j else 0) +
        (if i.val + j.val = column ∧ i < j then x i * x j else 0) +
        (if i.val + j.val = column ∧ i < j then x i * x j else 0) := by
    intro i j
    rcases lt_trichotomy i j with hij | hij | hij
    · by_cases h : i.val + j.val = column <;> simp [h, hij, hij.ne, hij.le, two_mul]
    · simp [hij]
    · simp [hij.ne', hij.not_gt, hij.not_ge]
  simp only [hall, hhalf, Finset.sum_add_distrib, hswap]

/-- The amount of a pair of limbs in a square. -/
def squareAmount (a : Number n) (p : Fin n × Fin n) : ℕ :=
  if p.1 = p.2 then (a.get p.1).toNat * (a.get p.1).toNat
  else 2 * ((a.get p.1).toNat * (a.get p.2).toNat)

/-- A column of a square from half of its pairs. -/
theorem sum_squareAmount (a : Number n) (column : ℕ) :
    (((columnPairs n column).filter fun p => p.1 ≤ p.2).map (squareAmount a)).sum =
      columnSum a a column := by
  have hcast : ((((columnPairs n column).filter fun p => p.1 ≤ p.2).map (squareAmount a)).sum : ℤ) =
      columnSum a a column := by
    have h := sum_square (fun i => ((a.get i).toNat : ℤ)) column
    simp only [columnSum, Nat.cast_list_sum, List.map_map, sum_map_filter, sum_columnPairs]
    simpa [squareAmount] using h
  exact_mod_cast hcast

end MoMiner.Limbs
