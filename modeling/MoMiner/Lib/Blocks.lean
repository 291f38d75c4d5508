import Mathlib.Data.Nat.Bitwise

/-!
# Exclusive ors of blocks

The exclusive or of a sequence over a range of indices, and ranges that are cut in aligned blocks
of a power of two.

`allBlocks_succ` is the induction step over levels: the pairs of blocks in a range are those in its
halves and the halves themselves.
-/

namespace MoMiner.Blocks

/-- The exclusive or of `f` over `n` indices from `b` on. -/
def xorRange (f : ℕ → ℕ) (b : ℕ) : ℕ → ℕ
  | 0 => 0
  | n + 1 => xorRange f b n ^^^ f (b + n)

variable {f g : ℕ → ℕ} {b n m : ℕ}

@[simp] theorem xorRange_zero : xorRange f b 0 = 0 := rfl

theorem xorRange_one : xorRange f b 1 = f b := by simp [xorRange]

theorem xorRange_add : xorRange f b (n + m) = xorRange f b n ^^^ xorRange f (b + n) m := by
  induction m with
  | zero => simp
  | succ m ih => rw [← Nat.add_assoc, xorRange, ih, xorRange, Nat.xor_assoc, Nat.add_assoc]

theorem xorRange_congr (h : ∀ i < n, f (b + i) = g (m + i)) : xorRange f b n = xorRange g m n := by
  induction n with
  | zero => rfl
  | succ n ih =>
    rw [xorRange, xorRange, ih fun i hi => h i (Nat.lt_succ_of_lt hi), h n (Nat.lt_succ_self n)]

/-- The exclusive or of a range is zero exactly when its halves have the same one. -/
theorem xorRange_double : xorRange f b (2 * n) = 0 ↔ xorRange f b n = xorRange f (b + n) n := by
  rw [Nat.two_mul, xorRange_add, Nat.xor_eq_zero_iff]

/-- A relation that holds where blocks are joined: for each aligned pair of blocks of `2 ^ l` indices
in the `2 ^ level` indices from `b` on. -/
def AllBlocks (P : ℕ → ℕ → Prop) (b level : ℕ) : Prop :=
  ∀ l < level, ∀ i < 2 ^ (level - 1 - l), P (b + i * 2 ^ (l + 1)) l

theorem allBlocks_zero {P : ℕ → ℕ → Prop} : AllBlocks P b 0 := fun _ hl => absurd hl (Nat.not_lt_zero _)

/-- The pairs in a range are those in its halves and the halves themselves. -/
theorem allBlocks_succ {P : ℕ → ℕ → Prop} {level : ℕ} :
    AllBlocks P b (level + 1) ↔
      AllBlocks P b level ∧ AllBlocks P (b + 2 ^ level) level ∧ P b level := by
  -- A block of the second half has its number shifted by the number of blocks in the first half.
  have hhalf : ∀ l < level, 2 ^ (level - l) = 2 ^ (level - 1 - l) + 2 ^ (level - 1 - l) := by
    intro l hl
    rw [show level - l = level - 1 - l + 1 by omega, pow_succ, Nat.mul_two]
  have hlevel : ∀ l < level, 2 ^ (level - 1 - l) * 2 ^ (l + 1) = 2 ^ level := by
    intro l hl
    rw [← pow_add]
    congr 1
    omega
  constructor
  · intro h
    refine ⟨fun l hl i hi => h l (Nat.lt_succ_of_lt hl) i ?_, fun l hl i hi => ?_, ?_⟩
    · rw [Nat.add_sub_cancel, hhalf l hl]
      omega
    · have hblock := h l (Nat.lt_succ_of_lt hl) (2 ^ (level - 1 - l) + i)
        (by rw [Nat.add_sub_cancel, hhalf l hl]; omega)
      rwa [Nat.add_mul, hlevel l hl, ← Nat.add_assoc] at hblock
    · simpa using h level (Nat.lt_succ_self level) 0 (Nat.two_pow_pos _)
  · rintro ⟨hleft, hright, htop⟩ l hl i hi
    rw [Nat.add_sub_cancel] at hi
    rcases (Nat.lt_succ_iff.mp hl).lt_or_eq with hl | rfl
    · rw [hhalf l hl] at hi
      by_cases hi' : i < 2 ^ (level - 1 - l)
      · exact hleft l hl i hi'
      · have hblock := hright l hl (i - 2 ^ (level - 1 - l)) (by omega)
        rw [← hlevel l hl, Nat.add_assoc, ← Nat.add_mul, Nat.add_sub_cancel' (by omega)] at hblock
        exact hblock
    · rw [Nat.sub_self, pow_zero, Nat.lt_one_iff] at hi
      simpa [hi] using htop

/-- Where the blocks of one level are zero, so are those of the levels above. -/
theorem xorRange_eq_zero_of_le {j l level : ℕ} (hjl : j ≤ l) (hl : l < level)
    (h : ∀ i < 2 ^ (level - 1 - j), xorRange f (i * 2 ^ (j + 1)) (2 ^ (j + 1)) = 0) :
    ∀ i < 2 ^ (level - 1 - l), xorRange f (i * 2 ^ (l + 1)) (2 ^ (l + 1)) = 0 := by
  induction l, hjl using Nat.le_induction with
  | base => exact h
  | succ l hjl ih =>
    intro i hi
    have hhalf : 2 ^ (level - 1 - l) = 2 ^ (level - 1 - (l + 1)) + 2 ^ (level - 1 - (l + 1)) := by
      rw [← Nat.mul_two, ← pow_succ]
      congr 1
      omega
    have hfirst := ih (by omega) (2 * i) (by omega)
    have hsecond := ih (by omega) (2 * i + 1) (by omega)
    rw [pow_succ 2 (l + 1), Nat.mul_comm _ 2, xorRange_double,
      show i * (2 * 2 ^ (l + 1)) = 2 * i * 2 ^ (l + 1) by rw [Nat.mul_left_comm, Nat.mul_assoc],
      hfirst]
    rw [Nat.add_mul, Nat.one_mul] at hsecond
    rw [hsecond]

end MoMiner.Blocks
