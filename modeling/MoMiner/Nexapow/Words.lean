import MoMiner.Lib.LimbArray
import MoMiner.Lib.Limbs

/-!
# Numbers of the reference kernel

Numbers of eight 32-bit limbs, lowest first, with the comparison, the difference and the shift that
the reference kernel uses.

Main results: `npCmp_nonneg` and `npSubRaw_spec`.
-/

namespace MoMiner.Nexapow

open MoMiner.Limbs LimbArray

/-- A number of the kernel. -/
abbrev U256 := Number 8

/-- The limb at a place, zero above the number. -/
def limbAt {n : ℕ} (a : Number n) (i : ℕ) : UInt32 := a.limbs.getD i 0

def npZeroP (a : U256) : Bool := (List.range 8).all fun i => limbAt a i = 0

/-- The sign of the difference, by the highest limb that differs. -/
def npCmp (a b : U256) : ℤ :=
  match (List.range 8).reverse.find? fun i => limbAt a i ≠ limbAt b i with
  | none => 0
  | some i => if limbAt a i < limbAt b i then -1 else 1

/-- Subtract a limb and the borrow. -/
def subLimb (borrow : UInt32) (p : UInt32 × UInt32) : UInt32 × UInt32 :=
  let subtrahend := p.2.toUInt64 + borrow.toUInt64
  let difference := p.1.toUInt64 - subtrahend
  (if p.1.toUInt64 < subtrahend then 1 else 0, difference.toUInt32)

/-- The borrow and the difference. -/
def npSubRaw (a b : U256) : UInt32 × U256 :=
  let r := scan subLimb 0 (a.limbs.zip b.limbs)
  (r.1, ⟨r.2, by simp [r, a.length_eq, b.length_eq]⟩)

/-! ## Places -/

theorem value_eq_value (l : List UInt32) :
    Limbs.value l = LimbArray.value (2 ^ 32) (fun i => (l.getD i 0).toNat) l.length := by
  induction l with
  | nil => rfl
  | cons w l ih =>
    rw [value_cons, ih, List.length_cons, LimbArray.value, LimbArray.value,
      Finset.sum_range_succ', Finset.mul_sum, Nat.add_comm]
    refine congrArg₂ (· + ·) (Finset.sum_congr rfl fun i _ => ?_) (by simp)
    rw [List.getD_cons_succ, Nat.pow_succ]
    ring

theorem toNat_eq_value {n : ℕ} (a : Number n) :
    a.toNat = LimbArray.value (2 ^ 32) (fun i => (limbAt a i).toNat) n := by
  obtain ⟨l, rfl⟩ := a
  exact value_eq_value l

theorem U256.toNat_lt (a : U256) : a.toNat < 2 ^ 256 := Number.toNat_lt a

theorem npZeroP_iff (a : U256) : npZeroP a = true ↔ a.toNat = 0 := by
  rw [npZeroP, List.all_eq_true, toNat_eq_value]
  constructor
  · intro h
    refine value_of_all_zero fun i hi => ?_
    have hzero := of_decide_eq_true (h i (List.mem_range.mpr hi))
    rw [hzero, UInt32.toNat_zero]
  · intro h i hi
    rw [List.mem_range] at hi
    rw [decide_eq_true_iff, ← UInt32.toNat_inj, UInt32.toNat_zero]
    have hterm := (Finset.sum_eq_zero_iff.mp h) i (Finset.mem_range.mpr hi)
    exact (Nat.mul_eq_zero.mp hterm).resolve_right (by positivity)

/-! ## Comparisons -/

theorem npCmp_cases (a b : U256) :
    npCmp a b = -1 ∧ a.toNat < b.toNat ∨ npCmp a b = 0 ∧ a = b ∨
      npCmp a b = 1 ∧ b.toNat < a.toNat := by
  rw [npCmp]
  cases h : (List.range 8).reverse.find? fun i => limbAt a i ≠ limbAt b i with
  | none =>
    refine Or.inr (Or.inl ⟨rfl, Number.eq_of_toNat_eq ?_⟩)
    rw [toNat_eq_value, toNat_eq_value]
    refine value_congr fun i hi => ?_
    have hsame := List.find?_eq_none.mp h i (by simp [hi])
    rw [decide_eq_true_iff, not_not] at hsame
    rw [hsame]
  | some k =>
    rw [List.find?_eq_findSome?_guard] at h
    obtain ⟨j, hj, hguard, habove⟩ := findSome?_from_top h
    rw [Option.guard_eq_some_iff, decide_eq_true_iff] at hguard
    obtain ⟨rfl, hne⟩ := hguard
    have hsame : ∀ i < 8, j < i → (limbAt a i).toNat = (limbAt b i).toNat := by
      intro i hi hji
      have hnone := habove i hi hji
      rw [Option.guard_eq_none_iff, decide_eq_false_iff_not, not_not] at hnone
      rw [hnone]
    rw [toNat_eq_value, toNat_eq_value]
    dsimp only
    split_ifs with hlt
    · refine Or.inl ⟨rfl, ?_⟩
      exact value_lt_of_digit_lt hj (fun i _ => (limbAt a i).toNat_lt) hsame
        (UInt32.lt_iff_toNat_lt.mp hlt)
    · refine Or.inr (Or.inr ⟨rfl, ?_⟩)
      refine value_lt_of_digit_lt hj (fun i _ => (limbAt b i).toNat_lt)
        (fun i hi hji => (hsame i hi hji).symm) ?_
      have hne' : (limbAt a j).toNat ≠ (limbAt b j).toNat := fun h => hne (UInt32.toNat_inj.mp h)
      rw [UInt32.lt_iff_toNat_lt] at hlt
      omega

theorem npCmp_nonneg (a b : U256) : 0 ≤ npCmp a b ↔ b.toNat ≤ a.toNat := by
  rcases npCmp_cases a b with ⟨h, hlt⟩ | ⟨h, rfl⟩ | ⟨h, hlt⟩ <;> rw [h] <;> omega

/-! ## Differences -/

theorem subLimb_spec {borrow : UInt32} (hborrow : borrow.toNat ≤ 1) (p : UInt32 × UInt32) :
    (subLimb borrow p).1.toNat ≤ 1 ∧
      (subLimb borrow p).2.toNat + p.2.toNat + borrow.toNat =
        p.1.toNat + 2 ^ 32 * (subLimb borrow p).1.toNat := by
  have h1 := p.1.toNat_lt
  have h2 := p.2.toNat_lt
  have hsum : (p.2.toUInt64 + borrow.toUInt64).toNat = p.2.toNat + borrow.toNat := by
    rw [UInt64.toNat_add, UInt32.toNat_toUInt64, UInt32.toNat_toUInt64]
    omega
  rw [subLimb]
  dsimp only
  rw [UInt64.toNat_toUInt32, UInt64.toNat_sub, hsum, UInt32.toNat_toUInt64]
  split_ifs with hlt <;>
    rw [UInt64.lt_iff_toNat_lt, hsum, UInt32.toNat_toUInt64] at hlt
  · rw [UInt32.toNat_one]
    omega
  · rw [UInt32.toNat_zero]
    omega

/-- The difference, with its borrow. -/
theorem npSubRaw_spec (a b : U256) :
    (npSubRaw a b).1.toNat ≤ 1 ∧
      (npSubRaw a b).2.toNat + b.toNat = a.toNat + 2 ^ 256 * (npSubRaw a b).1.toNat := by
  have hlength : a.limbs.length = b.limbs.length := a.length_eq.trans b.length_eq.symm
  obtain ⟨hborrow, hsum⟩ := value_scan subLimb (fun borrow => -(borrow.toNat : ℤ))
    (fun p => (p.1.toNat + -1 * p.2.toNat : ℤ)) (fun borrow => borrow.toNat ≤ 1)
    (l := a.limbs.zip b.limbs) (s := 0) (by decide) fun borrow p _ hborrow => by
      obtain ⟨hnext, hlimb⟩ := subLimb_spec hborrow p
      refine ⟨hnext, ?_⟩
      zify at hlimb
      linear_combination hlimb
  refine ⟨hborrow, ?_⟩
  have hzero : (UInt32.toNat 0 : ℤ) = 0 := rfl
  rw [weigh_map_add, weigh_map_mul, weigh_zip_fst (fun w => (w.toNat : ℤ)) hlength,
    weigh_zip_snd (fun w => (w.toNat : ℤ)) hlength, weigh_toNat, weigh_toNat, List.length_zip,
    ← hlength, Nat.min_self, a.length_eq, hzero] at hsum
  have hvalue : (npSubRaw a b).2.toNat = Limbs.value (scan subLimb 0 (a.limbs.zip b.limbs)).2 := rfl
  have hcarry : (npSubRaw a b).1 = (scan subLimb 0 (a.limbs.zip b.limbs)).1 := rfl
  rw [hvalue, hcarry, Number.toNat, Number.toNat]
  zify
  linear_combination hsum

/-- A difference that borrows nothing. -/
theorem npSubRaw_of_le {a b : U256} (h : b.toNat ≤ a.toNat) :
    (npSubRaw a b).1 = 0 ∧ (npSubRaw a b).2.toNat = a.toNat - b.toNat := by
  obtain ⟨hborrow, hsum⟩ := npSubRaw_spec a b
  have hlt := U256.toNat_lt (npSubRaw a b).2
  have hzero : (npSubRaw a b).1.toNat = 0 := by omega
  exact ⟨UInt32.toNat_inj.mp hzero, by omega⟩

/-- A number that may have one more bit is reduced below a modulus of half of it. -/
theorem npSubRaw_of_overflow {a m : U256} {v : ℕ} (top : ℕ) (hv : v = a.toNat + 2 ^ 256 * top)
    (hm : m.toNat ≤ v) (hlt : v < 2 * m.toNat) : (npSubRaw a m).2.toNat = v - m.toNat := by
  obtain ⟨hborrow, hsum⟩ := npSubRaw_spec a m
  have ha := U256.toNat_lt a
  have hm' := U256.toNat_lt m
  have hres := U256.toNat_lt (npSubRaw a m).2
  omega

end MoMiner.Nexapow
