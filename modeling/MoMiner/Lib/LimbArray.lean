import Mathlib.Algebra.BigOperators.Group.Finset.Basic
import Mathlib.Algebra.BigOperators.Ring.Finset
import Mathlib.Algebra.Order.BigOperators.Group.Finset
import Mathlib.Tactic.Ring

/-!
# Numbers in an array of digits

An array of digits, lowest first, that is updated in place. `value` is the number it spells. A
carry that travels along the array stands at the place of the digit it is added to next.

Main results: `value_update` and `value_bounds`.
-/

namespace MoMiner.LimbArray

open Finset

variable {B : ℕ} {digit : ℕ → ℕ} {n k : ℕ}

/-- The number that the first `n` digits spell in base `B`. -/
def value (B : ℕ) (digit : ℕ → ℕ) (n : ℕ) : ℕ :=
  ∑ i ∈ range n, digit i * B ^ i

@[simp] theorem value_zero (B : ℕ) (digit : ℕ → ℕ) : value B digit 0 = 0 := rfl

theorem value_succ (B : ℕ) (digit : ℕ → ℕ) (n : ℕ) :
    value B digit (n + 1) = value B digit n + digit n * B ^ n :=
  sum_range_succ _ _

/-- The lowest digit comes off. -/
theorem value_succ' (B : ℕ) (digit : ℕ → ℕ) (n : ℕ) :
    value B digit (n + 1) = digit 0 + B * value B (fun i => digit (i + 1)) n := by
  rw [value, sum_range_succ', value, mul_sum, Nat.add_comm, Nat.pow_zero, Nat.mul_one]
  exact congrArg (digit 0 + ·) (sum_congr rfl fun i _ => by rw [pow_succ]; ring)

theorem value_add (B : ℕ) (digit : ℕ → ℕ) (m n : ℕ) :
    value B digit (m + n) = value B digit m + B ^ m * value B (fun i => digit (m + i)) n := by
  rw [value, sum_range_add, value, value, mul_sum]
  exact congrArg (∑ i ∈ range m, digit i * B ^ i + ·)
    (sum_congr rfl fun i _ => by rw [pow_add]; ring)

theorem value_congr {digit' : ℕ → ℕ} (h : ∀ i < n, digit i = digit' i) :
    value B digit n = value B digit' n :=
  sum_congr rfl fun i hi => by rw [h i (mem_range.mp hi)]

theorem value_of_all_zero (h : ∀ i < n, digit i = 0) : value B digit n = 0 :=
  sum_eq_zero fun i hi => by rw [h i (mem_range.mp hi), Nat.zero_mul]

/-- A new digit replaces the old one. -/
theorem value_update (hk : k < n) (d : ℕ) :
    value B (Function.update digit k d) n + digit k * B ^ k = value B digit n + d * B ^ k := by
  have hmem : k ∈ range n := mem_range.mpr hk
  rw [value, value, ← add_sum_erase _ _ hmem, ← add_sum_erase _ (fun i => digit i * B ^ i) hmem,
    Function.update_self]
  have hrest : ∑ i ∈ (range n).erase k, Function.update digit k d i * B ^ i =
      ∑ i ∈ (range n).erase k, digit i * B ^ i :=
    sum_congr rfl fun i hi => by rw [Function.update_of_ne (ne_of_mem_erase hi)]
  rw [hrest]
  ring

/-- `value_update` for digits that are stored as words. -/
theorem value_update_words {α : Type} (toNat : α → ℕ) {a : ℕ → α} (hk : k < n) (w : α) :
    value B (fun i => toNat (Function.update a k w i)) n + toNat (a k) * B ^ k =
      value B (fun i => toNat (a i)) n + toNat w * B ^ k := by
  have hdigits : (fun i => toNat (Function.update a k w i)) =
      Function.update (fun i => toNat (a i)) k (toNat w) := by
    funext i
    by_cases hi : i = k
    · rw [hi, Function.update_self, Function.update_self]
    · rw [Function.update_of_ne hi, Function.update_of_ne hi]
  rw [hdigits]
  exact value_update hk _

theorem value_lt (h : ∀ i < n, digit i < B) : value B digit n < B ^ n := by
  induction n with
  | zero => simp
  | succ n ih =>
    have hlow := ih fun i hi => h i (Nat.lt_succ_of_lt hi)
    rw [value_succ]
    calc value B digit n + digit n * B ^ n < B ^ n + digit n * B ^ n := Nat.add_lt_add_right hlow _
      _ = (digit n + 1) * B ^ n := by ring
      _ ≤ B * B ^ n := Nat.mul_le_mul_right _ (h n (Nat.lt_succ_self n))
      _ = B ^ (n + 1) := by ring

theorem value_of_zero_above {m : ℕ} (hm : m ≤ n) (h : ∀ i < n, m ≤ i → digit i = 0) :
    value B digit n = value B digit m := by
  obtain ⟨k, rfl⟩ := Nat.exists_eq_add_of_le hm
  induction k with
  | zero => rfl
  | succ k ih =>
    rw [← Nat.add_assoc, value_succ, h (m + k) (by omega) (Nat.le_add_right m k), Nat.zero_mul,
      Nat.add_zero]
    exact ih (Nat.le_add_right m k) fun i hi => h i (by omega)

/-- Two digits make one of the square base. -/
theorem value_pairs (B : ℕ) (digit : ℕ → ℕ) (n : ℕ) :
    value (B ^ 2) (fun i => digit (2 * i) + B * digit (2 * i + 1)) n = value B digit (2 * n) := by
  induction n with
  | zero => rfl
  | succ n ih =>
    rw [Nat.mul_succ, value_succ, value_succ, value_succ, ih]
    ring

/-- **The highest digit that is not zero bounds the number.** -/
theorem value_bounds (hk : k < n) (hlt : ∀ i < n, digit i < B)
    (hzero : ∀ i < n, k < i → digit i = 0) :
    digit k * B ^ k ≤ value B digit n ∧ value B digit n < (digit k + 1) * B ^ k := by
  rw [value_of_zero_above hk fun i hi hki => hzero i hi hki, value_succ]
  have hlow := value_lt fun i hi => hlt i (Nat.lt_trans hi hk)
  constructor
  · exact Nat.le_add_left _ _
  · rw [Nat.add_mul, Nat.one_mul]
    omega

/-- Two numbers compare as their highest digits that differ. -/
theorem value_lt_of_digit_lt {digit' : ℕ → ℕ} (hk : k < n) (hlt : ∀ i < n, digit i < B)
    (habove : ∀ i < n, k < i → digit i = digit' i) (h : digit k < digit' k) :
    value B digit n < value B digit' n := by
  induction n with
  | zero => exact absurd hk (Nat.not_lt_zero k)
  | succ n ih =>
    rw [value_succ, value_succ]
    rcases Nat.lt_succ_iff_lt_or_eq.mp hk with hkn | rfl
    · rw [habove n (Nat.lt_succ_self n) hkn]
      exact Nat.add_lt_add_right (ih hkn (fun i hi => hlt i (Nat.lt_succ_of_lt hi))
        fun i hi => habove i (Nat.lt_succ_of_lt hi)) _
    · have hlow := value_lt fun i hi => hlt i (Nat.lt_succ_of_lt hi)
      calc value B digit k + digit k * B ^ k < B ^ k + digit k * B ^ k :=
            Nat.add_lt_add_right hlow _
        _ = (digit k + 1) * B ^ k := by ring
        _ ≤ digit' k * B ^ k := Nat.mul_le_mul_right _ h
        _ ≤ value B digit' k + digit' k * B ^ k := Nat.le_add_left _ _

/-! ## Searches from the top -/

/-- A search from the top finds the last place. -/
theorem findSome?_from_top {α : Type} {f : ℕ → Option α} {n : ℕ} {a : α}
    (h : (List.range n).reverse.findSome? f = some a) :
    ∃ k < n, f k = some a ∧ ∀ i < n, k < i → f i = none := by
  induction n with
  | zero => simp at h
  | succ n ih =>
    rw [List.range_succ, List.reverse_append, List.reverse_singleton, List.singleton_append,
      List.findSome?_cons] at h
    cases hn : f n with
    | some b =>
      rw [hn] at h
      exact ⟨n, Nat.lt_succ_self n, hn.trans h, fun i hi hni => absurd hi (by omega)⟩
    | none =>
      rw [hn] at h
      obtain ⟨k, hk, hfk, habove⟩ := ih h
      refine ⟨k, Nat.lt_succ_of_lt hk, hfk, fun i hi hki => ?_⟩
      by_cases hin : i = n
      · rw [hin, hn]
      · exact habove i (by omega) hki

end MoMiner.LimbArray
