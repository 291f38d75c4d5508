import Mathlib.Algebra.BigOperators.Group.Finset.Basic
import Mathlib.Data.Multiset.Filter

/-!
# Trimming by degree

A collection of elements is trimmed by a function when the elements whose value occurs only once
are removed. Trimming keeps every part of the collection in which each value occurs twice
(`le_survivors`), and it can be done bucket by bucket, by any key that tells the values of a bucket
apart (`survivors_filter`, `survivors_congr`).
-/

namespace MoMiner

variable {α γ δ : Type*} [DecidableEq γ] [DecidableEq δ]

/-- How often a value occurs. -/
def degree (f : α → γ) (m : Multiset α) (x : γ) : ℕ :=
  m.countP fun e => f e = x

/-- The elements whose value occurs at least twice. -/
def survivors (f : α → γ) (m : Multiset α) : Multiset α :=
  m.filter fun e => 2 ≤ degree f m (f e)

variable {f : α → γ} {m n : Multiset α}

theorem degree_mono (h : m ≤ n) (x : γ) : degree f m x ≤ degree f n x :=
  Multiset.countP_le_of_le _ h

theorem survivors_le (f : α → γ) (m : Multiset α) : survivors f m ≤ m :=
  Multiset.filter_le _ _

/-- What is closed under the function survives. -/
theorem le_survivors (h : m ≤ n) (hm : ∀ e ∈ m, 2 ≤ degree f m (f e)) : m ≤ survivors f n :=
  Multiset.le_filter.mpr ⟨h, fun e he => (hm e he).trans (degree_mono h _)⟩

/-- The survivors of a bucket are the survivors that lie in it. -/
theorem survivors_filter (f : α → γ) (m : Multiset α) (bucket : γ → δ) (b : δ) :
    survivors f (m.filter fun e => bucket (f e) = b) =
      (survivors f m).filter fun e => bucket (f e) = b := by
  rw [survivors, survivors, Multiset.filter_filter, Multiset.filter_filter]
  apply Multiset.filter_congr
  intro e _
  rw [and_comm]
  apply and_congr_right
  intro hbucket
  have hdegree : degree f (m.filter fun e => bucket (f e) = b) (f e) = degree f m (f e) := by
    rw [degree, Multiset.countP_filter, degree]
    apply Multiset.countP_congr rfl
    intro e' _
    simp only [and_iff_left_iff_imp, eq_iff_iff]
    intro heq
    rw [heq, hbucket]
  rw [hdegree]

/-- A key that tells the values apart gives the same degrees. -/
theorem degree_congr {key : α → δ} (h : ∀ e ∈ m, ∀ e' ∈ m, key e = key e' ↔ f e = f e') {e : α}
    (he : e ∈ m) : degree key m (key e) = degree f m (f e) :=
  Multiset.countP_congr rfl fun e' he' => propext (h e' he' e he)

/-- A key that tells the values apart gives the same survivors. -/
theorem survivors_congr {key : α → δ} (h : ∀ e ∈ m, ∀ e' ∈ m, key e = key e' ↔ f e = f e') :
    survivors key m = survivors f m := by
  apply Multiset.filter_congr
  intro e he
  rw [degree_congr h he]

theorem survivors_map {β : Type*} (f : β → γ) (g : α → β) (m : Multiset α) :
    survivors f (m.map g) = (survivors (f ∘ g) m).map g := by
  rw [survivors, Multiset.filter_map, survivors]
  congr 1
  apply Multiset.filter_congr
  intro e _
  rw [Function.comp_apply, degree, Multiset.countP_map, degree, Multiset.countP_eq_card_filter]
  rfl

theorem two_le_degree {e e' : α} (he : e ∈ m) (he' : e' ∈ m) (hne : e' ≠ e) (heq : f e' = f e) :
    2 ≤ degree f m (f e) := by
  obtain ⟨rest, rfl⟩ := Multiset.exists_cons_of_mem he
  have hrest : e' ∈ rest := (Multiset.mem_cons.mp he').resolve_left hne
  have hpos : 0 < rest.countP fun e'' => f e'' = f e := Multiset.countP_pos.mpr ⟨e', hrest, heq⟩
  rw [degree, Multiset.countP_cons_of_pos (p := fun e'' => f e'' = f e) _ rfl]
  omega

/-- Among distinct elements, a value occurs twice when another element has it. -/
theorem two_le_degree_iff (hm : m.Nodup) {e : α} (he : e ∈ m) :
    2 ≤ degree f m (f e) ↔ ∃ e' ∈ m, e' ≠ e ∧ f e' = f e := by
  constructor
  · intro hdegree
    obtain ⟨rest, rfl⟩ := Multiset.exists_cons_of_mem he
    rw [degree, Multiset.countP_cons_of_pos (p := fun e'' => f e'' = f e) _ rfl] at hdegree
    have hpos : 0 < rest.countP fun e'' => f e'' = f e := by omega
    obtain ⟨e', he', heq⟩ := Multiset.countP_pos.mp hpos
    refine ⟨e', Multiset.mem_cons_of_mem he', ?_, heq⟩
    rintro rfl
    exact (Multiset.nodup_cons.mp hm).1 he'
  · rintro ⟨e', he', hne, heq⟩
    exact two_le_degree he he' hne heq

theorem count_map_eq_degree (f : α → γ) (m : Multiset α) (x : γ) :
    (m.map f).count x = degree f m x := by
  rw [Multiset.count_map, degree, Multiset.countP_eq_card_filter]
  simp only [eq_comm]

omit [DecidableEq γ] [DecidableEq δ] in
/-- The buckets of a collection make up the collection. -/
theorem sum_filter_eq (m : Multiset α) (bucket : α → ℕ) (count : ℕ) :
    ∑ b ∈ Finset.range count, m.filter (fun e => bucket e = b) =
      m.filter fun e => bucket e < count := by
  induction count with
  | zero => simp
  | succ count ih =>
    rw [Finset.sum_range_succ, ih, Multiset.filter_add_filter]
    have hnone : m.filter (fun e => bucket e < count ∧ bucket e = count) = 0 := by
      rw [Multiset.filter_eq_nil]
      omega
    rw [hnone, add_zero]
    apply Multiset.filter_congr
    intro e _
    omega

end MoMiner
