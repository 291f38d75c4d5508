import Mathlib.Data.List.Flatten
import Mathlib.Data.List.Range

/-!
# Lanes of a group

The lanes of a group visit the indexes below a count together: at every turn lane after lane takes
the next index.
-/

namespace MoMiner

/-- The indexes that the lanes of a group visit, turn by turn. -/
def laneIndices (threads count : ℕ) : List ℕ :=
  ((List.range ((count + threads - 1) / threads)).flatMap fun loop =>
    (List.range threads).map fun lane => loop * threads + lane).filter (· < count)

theorem flatMap_range (threads loops : ℕ) :
    ((List.range loops).flatMap fun loop =>
      (List.range threads).map fun lane => loop * threads + lane) =
      List.range (loops * threads) := by
  induction loops with
  | zero => simp
  | succ loops ih =>
    rw [List.range_succ, List.flatMap_append, ih, Nat.add_mul, Nat.one_mul, List.range_add]
    simp

theorem filter_lt_range {n m : ℕ} (h : n ≤ m) : (List.range m).filter (· < n) = List.range n := by
  obtain ⟨rest, rfl⟩ := Nat.exists_eq_add_of_le h
  have hlow : (List.range n).filter (· < n) = List.range n := by
    rw [List.filter_eq_self]
    intro i hi
    exact decide_eq_true (List.mem_range.mp hi)
  have hhigh : ((List.range rest).map (n + ·)).filter (· < n) = [] := by
    rw [List.filter_eq_nil_iff]
    intro i hi
    obtain ⟨j, -, rfl⟩ := List.mem_map.mp hi
    simp
  rw [List.range_add, List.filter_append, hlow, hhigh, List.append_nil]

/-- The lanes visit every index once. -/
theorem laneIndices_eq {threads : ℕ} (h : 0 < threads) (count : ℕ) :
    laneIndices threads count = List.range count := by
  have hle : count ≤ (count + threads - 1) / threads * threads := by
    have hdiv := Nat.div_add_mod (count + threads - 1) threads
    have hmod := Nat.mod_lt (count + threads - 1) h
    rw [Nat.mul_comm]
    omega
  rw [laneIndices, flatMap_range, filter_lt_range hle]

end MoMiner
