import MoMiner.Lib.Mask
import MoMiner.Lib.Radix

/-!
# Batches of a bounded counter

A `Progression` hands out batches of numbers: batch `k` holds `first + k * stride + i * lane` for
`i < count`. A batch fits when it stays below `2 ^ bits` and its ends agree with `first` on the
protected `mask`; the progression is alive at `k` while all batches up to `k` fit.

A machine follows a progression when it holds batch `k` after `k` steps as long as the progression
is alive and stops at the first batch that does not fit. `follows` derives this from one step.
-/

namespace MoMiner

structure Progression where
  bits : ℕ
  mask : ℕ
  first : ℕ
  count : ℕ
  lane : ℕ
  stride : ℕ

namespace Progression

variable (p : Progression)

/-- Number `i` of batch `k`. -/
def nth (k i : ℕ) : ℕ := p.first + k * p.stride + i * p.lane

/-- Batch `k` stays in range and its ends keep the protected bits. -/
def Fits (k : ℕ) : Prop :=
  p.nth k (p.count - 1) < 2 ^ p.bits ∧ p.first &&& p.mask = p.nth k 0 &&& p.mask ∧
    p.first &&& p.mask = p.nth k (p.count - 1) &&& p.mask

instance (k : ℕ) : Decidable (p.Fits k) := inferInstanceAs (Decidable (_ ∧ _ ∧ _))

def Alive (k : ℕ) : Prop := ∀ m ≤ k, p.Fits m

instance (k : ℕ) : Decidable (p.Alive k) := inferInstanceAs (Decidable (∀ m ≤ k, p.Fits m))

variable {p}

theorem nth_succ (k i : ℕ) : p.nth (k + 1) i = p.nth k i + p.stride := by
  unfold nth
  ring

@[simp] theorem nth_zero_zero : p.nth 0 0 = p.first := by
  simp [nth]

theorem Alive.fits {k : ℕ} (h : p.Alive k) : p.Fits k := h k le_rfl

theorem alive_zero : p.Alive 0 ↔ p.Fits 0 := by
  simp [Alive]

theorem alive_succ {k : ℕ} : p.Alive (k + 1) ↔ p.Alive k ∧ p.Fits (k + 1) := by
  refine ⟨fun h => ⟨fun m hm => h m (by omega), h _ le_rfl⟩, fun h m hm => ?_⟩
  rcases Nat.lt_or_eq_of_le hm with hlt | rfl
  · exact h.1 m (by omega)
  · exact h.2

theorem Alive.mono {k m : ℕ} (h : p.Alive k) (hm : m ≤ k) : p.Alive m := fun i hi =>
  h i (by omega)

theorem Fits.nth_lt {k i : ℕ} (h : p.Fits k) (hi : i < p.count) : p.nth k i < 2 ^ p.bits := by
  refine lt_of_le_of_lt ?_ h.1
  unfold nth
  have := Nat.mul_le_mul_right p.lane (show i ≤ p.count - 1 by omega)
  omega

theorem first_le_nth (k i : ℕ) : p.first ≤ p.nth k i := by
  unfold nth
  omega

/-- On a mask of high bits the ends of a batch speak for all of it. -/
theorem Fits.nth_agree {free k i : ℕ} (hfree : free ≤ p.bits)
    (hmask : p.mask = Mask.highMask p.bits free) (h : p.Fits k) (hi : i < p.count) :
    p.nth k i &&& p.mask = p.first &&& p.mask := by
  have hlast := h.1
  have hmid := h.nth_lt hi
  have hle : p.first ≤ p.nth k i := first_le_nth k i
  have hle' : p.nth k i ≤ p.nth k (p.count - 1) := by
    unfold nth
    have := Nat.mul_le_mul_right p.lane (show i ≤ p.count - 1 by omega)
    omega
  have hend := h.2.2
  rw [hmask] at hend ⊢
  rw [Mask.highMask_agree_iff hfree (by omega) hlast] at hend
  rw [Mask.highMask_agree_iff hfree hmid (by omega)]
  have lo := Nat.div_le_div_right (c := 2 ^ free) hle
  have hi := Nat.div_le_div_right (c := 2 ^ free) hle'
  omega

/-- **The run rule.** A machine whose step moves from batch `k` to batch `k + 1` when that fits,
and goes down for good when it does not, follows the progression from any batch it holds. -/
theorem follows {σ : Type*} {step : σ → σ} (up : σ → Prop) (holds : ℕ → σ → Prop) {s : σ} {m : ℕ}
    (start : p.Alive m ∧ holds m s)
    (next : ∀ k s, p.Alive k → holds k s → p.Fits (k + 1) → holds (k + 1) (step s))
    (stop : ∀ k s, p.Alive k → holds k s → ¬p.Fits (k + 1) → ¬up (step s))
    (down : ∀ s, ¬up s → ¬up (step s)) (k : ℕ) :
    (p.Alive (m + k) → holds (m + k) (step^[k] s)) ∧ (¬p.Alive (m + k) → ¬up (step^[k] s)) := by
  induction k with
  | zero => exact ⟨fun _ => start.2, fun h => absurd start.1 h⟩
  | succ k ih =>
    rw [Function.iterate_succ_apply', ← Nat.add_assoc]
    refine ⟨fun h => ?_, fun h => ?_⟩
    · obtain ⟨hk, hfit⟩ := alive_succ.mp h
      exact next (m + k) _ hk (ih.1 hk) hfit
    · by_cases hk : p.Alive (m + k)
      · exact stop (m + k) _ hk (ih.1 hk) fun hfit => h (alive_succ.mpr ⟨hk, hfit⟩)
      · exact down _ (ih.2 hk)

end Progression

end MoMiner
