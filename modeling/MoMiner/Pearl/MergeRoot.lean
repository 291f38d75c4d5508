import MoMiner.Pearl.Blake3

/-!
# The root over all chaining values

`mergeRoot` evaluates the tree in post-order with a stack of ranges and a stack of results. A range of
at most `2 ^ d` chunks needs `2 d + 1` places of the one and `d + 1` of the other.

Main result: `mergeRoot_spec`.
-/

namespace MoMiner.Pearl

open MoMiner.LeftTree

section Split

theorem splitLoop_eq {sz k j fuel : ℕ} (hk : k ≤ 29) (hlt : 2 ^ k < sz) (hle : sz ≤ 2 ^ (k + 1))
    (hj : j ≤ k) (hfuel : k < j + fuel) : splitLoop sz fuel (2 ^ j) = .ok (2 ^ k) := by
  induction fuel generalizing j with
  | zero => exact absurd hfuel (by omega)
  | succ fuel ih =>
    have hdouble : 2 ^ j * 2 = 2 ^ (j + 1) := (pow_succ 2 j).symm
    have hsmall : 2 ^ (j + 1) ≤ 2 ^ 30 := Nat.pow_le_pow_right (by decide) (by omega)
    rw [splitLoop, hdouble, if_neg (by omega)]
    rcases hj.lt_or_eq with hjk | rfl
    · have hpow : 2 ^ (j + 1) ≤ 2 ^ k := Nat.pow_le_pow_right (by decide) hjk
      rw [if_pos (by omega), ih (by omega) (by omega)]
    · rw [if_neg (by omega)]

/-- Beyond `2 ^ 30` chunks the size of the left half is not computed. -/
theorem splitLoop_overflow {sz j fuel : ℕ} (hsz : 2 ^ 30 < sz) (hj : j ≤ 30)
    (hfuel : 30 < j + fuel) : splitLoop sz fuel (2 ^ j) = .error .signedOverflow := by
  induction fuel generalizing j with
  | zero => exact absurd hfuel (by omega)
  | succ fuel ih =>
    have hdouble : 2 ^ j * 2 = 2 ^ (j + 1) := (pow_succ 2 j).symm
    rw [splitLoop, hdouble]
    rcases hj.lt_or_eq with hj' | rfl
    · have hsmall : 2 ^ (j + 1) ≤ 2 ^ 30 := Nat.pow_le_pow_right (by decide) (by omega)
      rw [if_neg (by omega), if_pos (by omega), ih (by omega) (by omega)]
    · rw [if_pos (by decide)]

end Split

section Merge

variable {compress : Cv → Block → UInt64 → UInt32 → UInt32 → Block} {key32 : Option CvBytes}
  {cvs : ℕ → CvBytes} {numChunks lo hi d fuel : ℕ} {stk : List Frame} {res : List CvBytes}

/-- What a run from a range comes to: its value is on the results, or a signed integer overflowed,
which takes more than `2 ^ 26` chunks. -/
def Evaluates (compress : Cv → Block → UInt64 → UInt32 → UInt32 → Block) (key32 : Option CvBytes)
    (cvs : ℕ → CvBytes) (numChunks lo hi : ℕ) (stk : List Frame) (res : List CvBytes)
    (value : CvBytes) : Prop :=
  ∀ fuel, mergeLoop compress key32 cvs numChunks (3 * (hi - lo) - 2 + fuel) (⟨lo, hi, false⟩ :: stk)
      res = mergeLoop compress key32 cvs numChunks fuel stk (value :: res) ∨
    2 ^ 26 < hi ∧ mergeLoop compress key32 cvs numChunks (3 * (hi - lo) - 2 + fuel)
      (⟨lo, hi, false⟩ :: stk) res = .error .signedOverflow

theorem evaluates_leaf (hsize : hi - lo = 1) (hres : res.length < 64) :
    Evaluates compress key32 cvs numChunks lo hi stk res (cvs lo) := by
  intro fuel
  have hfuel : 3 * (hi - lo) - 2 + fuel = fuel + 1 := by omega
  rw [hfuel, mergeLoop, mergeStep, if_pos hsize]
  by_cases hindex : 2 ^ 31 ≤ lo * 32 + 31
  · rw [if_pos hindex]
    exact .inr ⟨by omega, rfl⟩
  · rw [if_neg hindex, if_neg (by omega)]
    exact .inl rfl

/-- A range from its two halves. -/
theorem evaluates_split {k : ℕ} {left right : CvBytes} (hlt : 2 ^ k < hi - lo)
    (hle : hi - lo ≤ 2 ^ (k + 1)) (hstk : stk.length + 3 ≤ 64)
    (hleft : Evaluates compress key32 cvs numChunks lo (lo + 2 ^ k)
      (⟨lo + 2 ^ k, hi, false⟩ :: ⟨lo, hi, true⟩ :: stk) res left)
    (hright : Evaluates compress key32 cvs numChunks (lo + 2 ^ k) hi (⟨lo, hi, true⟩ :: stk)
      (left :: res) right) :
    Evaluates compress key32 cvs numChunks lo hi stk res
      (parentCv compress key32 (lo = 0 ∧ hi = numChunks) left right) := by
  intro fuel
  have hpos := Nat.two_pow_pos k
  have hsize : hi - lo ≠ 1 := by omega
  -- One step splits the range, the halves are evaluated, and one step joins them.
  have hfuel : 3 * (hi - lo) - 2 + fuel =
      3 * (lo + 2 ^ k - lo) - 2 + (3 * (hi - (lo + 2 ^ k)) - 2 + (fuel + 1)) + 1 := by omega
  by_cases hsmall : hi - lo ≤ 2 ^ 30
  · have hk : k ≤ 29 := by
      have : 2 ^ k < 2 ^ 30 := by omega
      have := (Nat.pow_lt_pow_iff_right (show 1 < 2 by decide)).mp this
      omega
    have hsplit : splitLoop (hi - lo) 32 1 = .ok (2 ^ k) :=
      splitLoop_eq hk hlt hle (Nat.zero_le k) (by omega)
    have hstep : mergeLoop compress key32 cvs numChunks (3 * (hi - lo) - 2 + fuel)
        (⟨lo, hi, false⟩ :: stk) res =
        mergeLoop compress key32 cvs numChunks
          (3 * (lo + 2 ^ k - lo) - 2 + (3 * (hi - (lo + 2 ^ k)) - 2 + (fuel + 1)))
          (⟨lo, lo + 2 ^ k, false⟩ :: ⟨lo + 2 ^ k, hi, false⟩ :: ⟨lo, hi, true⟩ :: stk) res := by
      rw [hfuel, mergeLoop, mergeStep, if_neg hsize, if_pos rfl, hsplit]
      simp only [bind, Except.bind]
      rw [if_neg (by omega)]
    rw [hstep]
    rcases hleft (3 * (hi - (lo + 2 ^ k)) - 2 + (fuel + 1)) with hleft | ⟨hbig, hleft⟩
    · rw [hleft]
      rcases hright (fuel + 1) with hright | ⟨hbig, hright⟩
      · rw [hright, mergeLoop, mergeStep, if_neg hsize, if_neg (by simp)]
        exact .inl rfl
      · exact .inr ⟨hbig, hright⟩
    · exact .inr ⟨by omega, hleft⟩
  · refine .inr ⟨by omega, ?_⟩
    have hsplit : splitLoop (hi - lo) 32 1 = .error .signedOverflow :=
      splitLoop_overflow (by omega) (Nat.zero_le 30) (by decide)
    rw [hfuel, mergeLoop, mergeStep, if_neg hsize, if_pos rfl, hsplit]
    rfl

/-- **A range within the tree.** -/
theorem evaluates_subtree (hlo : lo < hi) (hhi : hi ≤ numChunks) (hroot : ¬ (lo = 0 ∧ hi = numChunks))
    (hsize : hi - lo ≤ 2 ^ d) (hstk : stk.length + 2 * d + 1 ≤ 64) (hres : res.length + d + 1 ≤ 64) :
    Evaluates compress key32 cvs numChunks lo hi stk res
      (subtree (parentCv compress key32 false) cvs lo (hi - lo)) := by
  induction d generalizing lo hi stk res with
  | zero =>
    rw [subtree_one (by omega)]
    exact evaluates_leaf (by omega) (by omega)
  | succ d ih =>
    by_cases hone : hi - lo = 1
    · rw [subtree_one (by omega)]
      exact evaluates_leaf hone (by omega)
    · obtain ⟨k, hlt, hle⟩ := exists_pow (show 2 ≤ hi - lo by omega)
      have hkd : k ≤ d := by
        have := (Nat.pow_lt_pow_iff_right (show 1 < 2 by decide)).mp (hlt.trans_le hsize)
        omega
      have hpow : 2 ^ k ≤ 2 ^ d := Nat.pow_le_pow_right (by decide) hkd
      have hpos := Nat.two_pow_pos k
      have hdouble : 2 ^ (k + 1) = 2 ^ k * 2 := pow_succ 2 k
      have hleft : Evaluates compress key32 cvs numChunks lo (lo + 2 ^ k)
          (⟨lo + 2 ^ k, hi, false⟩ :: ⟨lo, hi, true⟩ :: stk) res
          (subtree (parentCv compress key32 false) cvs lo (lo + 2 ^ k - lo)) :=
        ih (by omega) (by omega) (by omega) (by omega) (by simp only [List.length_cons]; omega)
          (by omega)
      have hright : Evaluates compress key32 cvs numChunks (lo + 2 ^ k) hi (⟨lo, hi, true⟩ :: stk)
          (subtree (parentCv compress key32 false) cvs lo (lo + 2 ^ k - lo) :: res)
          (subtree (parentCv compress key32 false) cvs (lo + 2 ^ k) (hi - (lo + 2 ^ k))) :=
        ih (by omega) hhi (by omega) (by omega) (by simp only [List.length_cons]; omega)
          (by simp only [List.length_cons]; omega)
      have hwhole := evaluates_split hlt hle (by omega) hleft hright
      rw [decide_eq_false hroot] at hwhole
      rw [subtree_split (by omega), half_eq hlt hle]
      rwa [Nat.add_sub_cancel_left, ← Nat.sub_sub] at hwhole

/-- **The root.** For every number of chunks that a signed integer holds the stacks suffice, and up to
`2 ^ 26` chunks the root is computed. -/
theorem mergeRoot_spec (hn : 2 ≤ numChunks) (hint : numChunks < 2 ^ 31) :
    mergeRoot compress key32 cvs numChunks =
        .ok (root (parentCv compress key32 false) cvs (parentCv compress key32 true) numChunks) ∨
      2 ^ 26 < numChunks ∧ mergeRoot compress key32 cvs numChunks = .error .signedOverflow := by
  obtain ⟨k, hlt, hle⟩ := exists_pow hn
  have hk : k ≤ 30 := by
    have := (Nat.pow_lt_pow_iff_right (show 1 < 2 by decide)).mp (hlt.trans hint)
    omega
  have hpos := Nat.two_pow_pos k
  have hdouble : 2 ^ (k + 1) = 2 ^ k * 2 := pow_succ 2 k
  have hleft : Evaluates compress key32 cvs numChunks 0 (0 + 2 ^ k)
      (⟨0 + 2 ^ k, numChunks, false⟩ :: ⟨0, numChunks, true⟩ :: []) []
      (subtree (parentCv compress key32 false) cvs 0 (0 + 2 ^ k - 0)) :=
    evaluates_subtree (d := k) (by omega) (by omega) (by omega) (by omega)
      (by simp only [List.length_cons, List.length_nil]; omega)
      (by simp only [List.length_nil]; omega)
  have hright : Evaluates compress key32 cvs numChunks (0 + 2 ^ k) numChunks
      (⟨0, numChunks, true⟩ :: [])
      (subtree (parentCv compress key32 false) cvs 0 (0 + 2 ^ k - 0) :: [])
      (subtree (parentCv compress key32 false) cvs (0 + 2 ^ k) (numChunks - (0 + 2 ^ k))) :=
    evaluates_subtree (d := k) (by omega) le_rfl (by omega) (by omega)
      (by simp only [List.length_cons, List.length_nil]; omega)
      (by simp only [List.length_cons, List.length_nil]; omega)
  have hwhole := evaluates_split (by omega) (by omega) (by decide) hleft hright
  have hvalue : parentCv compress key32 (decide ((0 : ℕ) = 0 ∧ numChunks = numChunks))
      (subtree (parentCv compress key32 false) cvs 0 (0 + 2 ^ k - 0))
      (subtree (parentCv compress key32 false) cvs (0 + 2 ^ k) (numChunks - (0 + 2 ^ k))) =
      root (parentCv compress key32 false) cvs (parentCv compress key32 true) numChunks := by
    rw [root, half_eq hlt hle, Nat.zero_add, Nat.sub_zero]
    simp
  rw [hvalue] at hwhole
  have hfuel : 3 * numChunks = 3 * (numChunks - 0) - 2 + 2 := by omega
  rw [mergeRoot, if_neg (by omega), hfuel]
  rcases hwhole 2 with hok | ⟨hbig, herror⟩
  · rw [hok]
    exact .inl rfl
  · rw [herror]
    exact .inr ⟨hbig, rfl⟩

end Merge

end MoMiner.Pearl
