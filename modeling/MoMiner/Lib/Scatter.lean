import Mathlib.Algebra.BigOperators.Group.Finset.Basic
import Mathlib.Algebra.GroupWithZero.Nat
import MoMiner.Lib.Tasks

/-!
# Scattering values into buckets

Tasks put values into buckets of an array. A task reserves places at the end of a bucket with one
atomic addition to the count of the bucket, and then stores its values, each on its own. A value
whose place lies outside of the bucket is dropped, and dropped values are counted.

Whatever the schedule, a bucket ends up with exactly the values that were meant for it, in the order
of the reservations, as long as no two places share an address; and values were dropped exactly when
a reservation went outside of its bucket (`completes_log`).
-/

namespace MoMiner.Scatter

variable {ι κ β : Type*} [DecidableEq ι]

/-- A task: reserve places for values in a bucket, store a value, or count a dropped one. -/
inductive Task (ι κ β : Type*)
  | reserve (bucket : ι) (values : List β)
  | store (address : κ) (value : β)
  | drop

structure State (ι κ β : Type*) where
  counts : ι → ℕ
  mem : κ → β
  dropped : ℕ

/-- What is left to do for the value with a reserved place. -/
def storeTask (place : ι → ℕ → Option κ) (bucket : ι) (i : ℕ) (value : β) : Task ι κ β :=
  match place bucket i with
  | some address => .store address value
  | none => .drop

/-- One atomic access. -/
def step [DecidableEq κ] (place : ι → ℕ → Option κ) :
    Task ι κ β → State ι κ β → Multiset (Task ι κ β) × State ι κ β
  | .reserve bucket values, s =>
    (values.mapIdx fun j value => storeTask place bucket (s.counts bucket + j) value,
      { s with counts := Function.update s.counts bucket (s.counts bucket + values.length) })
  | .store address value, s => (0, { s with mem := Function.update s.mem address value })
  | .drop, s => (0, { s with dropped := s.dropped + 1 })

/-- The values that a task still has to reserve places for in a bucket. -/
def Task.values (bucket : ι) : Task ι κ β → Multiset β
  | .reserve bucket' values => if bucket' = bucket then values else 0
  | .store _ _ => 0
  | .drop => 0

/-- The values meant for a bucket. -/
def values (bucket : ι) (tasks : Multiset (Task ι κ β)) : Multiset β :=
  (tasks.map (Task.values bucket)).sum

@[simp] theorem values_cons (bucket : ι) (t : Task ι κ β) (tasks : Multiset (Task ι κ β)) :
    values bucket (t ::ₘ tasks) = t.values bucket + values bucket tasks := by
  rw [values, Multiset.map_cons, Multiset.sum_cons, values]

@[simp] theorem values_zero (bucket : ι) : values bucket (0 : Multiset (Task ι κ β)) = 0 := rfl

@[simp] theorem values_add (bucket : ι) (tasks tasks' : Multiset (Task ι κ β)) :
    values bucket (tasks + tasks') = values bucket tasks + values bucket tasks' := by
  rw [values, Multiset.map_add, Multiset.sum_add, values, values]

theorem values_sum {γ : Type*} (bucket : ι) (groups : Finset γ)
    (tasks : γ → Multiset (Task ι κ β)) :
    values bucket (∑ g ∈ groups, tasks g) = ∑ g ∈ groups, values bucket (tasks g) := by
  classical
  induction groups using Finset.induction_on with
  | empty => rfl
  | insert g groups hg ih => rw [Finset.sum_insert hg, Finset.sum_insert hg, values_add, ih]

/-- Tasks that put one value each. -/
theorem values_map_reserve {α : Type*} (bucket : ι) (m : Multiset α) (f : α → ι) (g : α → β) :
    values bucket (m.map fun e => (.reserve (f e) [g e] : Task ι κ β)) =
      (m.filter fun e => f e = bucket).map g := by
  induction m using Multiset.induction_on with
  | empty => rfl
  | cons e m ih =>
    rw [Multiset.map_cons, values_cons, ih, Task.values]
    by_cases he : f e = bucket
    · rw [if_pos he, Multiset.filter_cons_of_pos (p := fun e => f e = bucket) _ he,
        Multiset.map_cons, Multiset.coe_singleton, Multiset.singleton_add]
    · rw [if_neg he, Multiset.filter_cons_of_neg (p := fun e => f e = bucket) _ he, zero_add]

theorem storeTask_values (place : ι → ℕ → Option κ) (bucket bucket' : ι) (i : ℕ) (value : β) :
    (storeTask place bucket i value).values bucket' = 0 := by
  unfold storeTask
  split <;> rfl

/-! ## The invariant -/

/-- Places of different buckets lie in different parts of a buffer. -/
theorem place_injective {size b i b' i' : ℕ} (hi : i < size) (hi' : i' < size)
    (h : b * size + i = b' * size + i') : b = b' ∧ i = i' := by
  have hdiv : ∀ b i, i < size → (b * size + i) / size = b := by
    intro b i hi
    rw [Nat.mul_comm, Nat.mul_add_div (by omega), Nat.div_eq_of_lt hi, Nat.add_zero]
  have hb : b = b' := by
    rw [← hdiv b i hi, h, hdiv b' i' hi']
  subst hb
  exact ⟨rfl, by omega⟩

variable {place : ι → ℕ → Option κ} {total : ι → Multiset β} {base : ℕ} {log : ι → List β}
  {tasks rest : Multiset (Task ι κ β)} {s s' : State ι κ β}

/-- No two places that the totals can use share an address. -/
def Separate (place : ι → ℕ → Option κ) (total : ι → Multiset β) : Prop :=
  ∀ b i b' i' k, i < (total b).card → i' < (total b').card → place b i = some k →
    place b' i' = some k → b = b' ∧ i = i'

/-- The log of a bucket holds the values that have a place in it, in order. Together with the
values without a place it makes up the total; every value of the log has its store pending, or is
in its place. Before the run, `base` values were dropped. -/
structure Inv (place : ι → ℕ → Option κ) (total : ι → Multiset β) (base : ℕ) (log : ι → List β)
    (tasks : Multiset (Task ι κ β)) (s : State ι κ β) : Prop where
  counts : ∀ b, s.counts b = (log b).length
  conserved : ∀ b, (log b : Multiset β) + values b tasks = total b
  pending : ∀ k v, .store k v ∈ tasks → ∃ b i, (log b)[i]? = some v ∧ place b i = some k
  stored : Separate place total → ∀ b i v k, (log b)[i]? = some v → place b i = some k →
    .store k v ∈ tasks ∨ s.mem k = v
  base_le : base ≤ s.dropped
  dropped : (.drop ∈ tasks ∨ base < s.dropped) ↔ ∃ b i, i < (log b).length ∧ place b i = none

theorem Inv.length_le (h : Inv place total base log tasks s) (b : ι) :
    (log b).length ≤ (total b).card := by
  have hcard := congrArg Multiset.card (h.conserved b)
  rw [Multiset.card_add, Multiset.coe_card] at hcard
  omega

theorem inv_start {s : State ι κ β} (hcounts : ∀ b, s.counts b = 0)
    (hstores : ∀ t ∈ tasks, ∃ b vs, t = .reserve b vs) :
    Inv place (fun b => values b tasks) s.dropped (fun _ => []) tasks s := by
  refine ⟨hcounts, fun b => zero_add _, ?_, ?_, le_rfl, ?_⟩
  · intro k v hmem
    obtain ⟨b, vs, heq⟩ := hstores _ hmem
    cases heq
  · intro _ b i v k hlog
    cases hlog
  · simp only [lt_irrefl, or_false, List.length_nil, Nat.not_lt_zero, false_and,
      exists_false, iff_false]
    intro hmem
    obtain ⟨b, vs, heq⟩ := hstores _ hmem
    cases heq

/-- The log after a reservation. -/
def extend (log : ι → List β) (bucket : ι) (vs : List β) : ι → List β :=
  Function.update log bucket (log bucket ++ vs)

omit [DecidableEq ι] in
theorem mem_storeTasks {bucket : ι} {n : ℕ} {vs : List β} {t : Task ι κ β} :
    t ∈ (vs.mapIdx fun j value => storeTask place bucket (n + j) value) ↔
      ∃ j v, vs[j]? = some v ∧ t = storeTask place bucket (n + j) v := by
  rw [List.mem_mapIdx]
  constructor
  · rintro ⟨j, hj, rfl⟩
    exact ⟨j, vs[j], List.getElem?_eq_getElem hj, rfl⟩
  · rintro ⟨j, v, hv, rfl⟩
    obtain ⟨hj, rfl⟩ := List.getElem?_eq_some_iff.mp hv
    exact ⟨j, hj, rfl⟩

omit [DecidableEq ι] in
theorem storeTask_eq_store {bucket : ι} {i : ℕ} {value v : β} {k : κ}
    (h : .store k v = storeTask place bucket i value) : place bucket i = some k ∧ v = value := by
  unfold storeTask at h
  split at h
  · next address hplace =>
    cases h
    exact ⟨hplace, rfl⟩
  · cases h

omit [DecidableEq ι] in
theorem storeTask_eq_drop {bucket : ι} {i : ℕ} {value : β} :
    .drop = storeTask place bucket i value ↔ place bucket i = none := by
  unfold storeTask
  split <;> simp_all

theorem getElem?_extend {bucket b : ι} {vs : List β} {i : ℕ} {v : β}
    (h : (extend log bucket vs b)[i]? = some v) :
    (log b)[i]? = some v ∨
      b = bucket ∧ ∃ j, i = (log bucket).length + j ∧ vs[j]? = some v := by
  by_cases hb : b = bucket
  · subst hb
    rw [extend, Function.update_self] at h
    rcases Nat.lt_or_ge i (log b).length with hi | hi
    · rw [List.getElem?_append_left hi] at h
      exact .inl h
    · rw [List.getElem?_append_right hi] at h
      exact .inr ⟨rfl, i - (log b).length, by omega, h⟩
  · rw [extend, Function.update_of_ne hb] at h
    exact .inl h

theorem getElem?_extend_of_getElem? {bucket b : ι} (vs : List β) {i : ℕ} {v : β}
    (h : (log b)[i]? = some v) : (extend log bucket vs b)[i]? = some v := by
  by_cases hb : b = bucket
  · subst hb
    obtain ⟨hi, -⟩ := List.getElem?_eq_some_iff.mp h
    rw [extend, Function.update_self, List.getElem?_append_left hi, h]
  · rw [extend, Function.update_of_ne hb, h]

theorem getElem?_extend_self {bucket : ι} {vs : List β} {j : ℕ} {v : β} (h : vs[j]? = some v) :
    (extend log bucket vs bucket)[(log bucket).length + j]? = some v := by
  rw [extend, Function.update_self, List.getElem?_append_right (Nat.le_add_right _ _),
    Nat.add_sub_cancel_left, h]

theorem length_extend {bucket b : ι} {vs : List β} : (extend log bucket vs b).length =
    (log b).length + if b = bucket then vs.length else 0 := by
  by_cases hb : b = bucket
  · rw [extend, hb, Function.update_self, List.length_append, if_pos rfl]
  · rw [extend, Function.update_of_ne hb, if_neg hb, add_zero]

/-! ## The steps keep the invariant -/

variable [DecidableEq κ]

theorem values_step_fst (place : ι → ℕ → Option κ) (bucket : ι) (t : Task ι κ β)
    (s : State ι κ β) : values bucket (step place t s).1 = 0 := by
  cases t with
  | reserve bucket' vs =>
    rw [values, Multiset.sum_eq_zero]
    intro m hm
    obtain ⟨t, ht, rfl⟩ := Multiset.mem_map.mp hm
    obtain ⟨j, hj, rfl⟩ := List.mem_mapIdx.mp (Multiset.mem_coe.mp ht)
    exact storeTask_values place _ _ _ _
  | store | drop => rfl

theorem Inv.reserve_step {bucket : ι} {vs : List β}
    (h : Inv place total base log (.reserve bucket vs ::ₘ rest) s) :
    Inv place total base (extend log bucket vs) ((step place (.reserve bucket vs) s).1 + rest)
      (step place (.reserve bucket vs) s).2 := by
  have hnew : ∀ t, t ∈ (step place (.reserve bucket vs) s).1 ↔
      ∃ j v, vs[j]? = some v ∧ t = storeTask place bucket ((log bucket).length + j) v := by
    intro t
    rw [step, h.counts, Multiset.mem_coe, mem_storeTasks]
  refine ⟨?_, ?_, ?_, ?_, h.base_le, ?_⟩
  · intro b
    rw [length_extend]
    by_cases hb : b = bucket
    · simp [step, hb, h.counts]
    · simp [step, hb, h.counts]
  · intro b
    have hconserved := h.conserved b
    rw [values_cons] at hconserved
    rw [values_add, values_step_fst, zero_add, ← hconserved]
    by_cases hb : b = bucket
    · subst hb
      rw [extend, Function.update_self, Task.values, if_pos rfl, ← add_assoc, Multiset.coe_add]
    · rw [extend, Function.update_of_ne hb, Task.values, if_neg (Ne.symm hb), zero_add]
  · intro k v hmem
    rcases Multiset.mem_add.mp hmem with hmem | hmem
    · obtain ⟨j, v', hv', heq⟩ := (hnew _).mp hmem
      obtain ⟨hplace, rfl⟩ := storeTask_eq_store heq
      exact ⟨bucket, _, getElem?_extend_self hv', hplace⟩
    · obtain ⟨b, i, hlog, hplace⟩ := h.pending k v (Multiset.mem_cons_of_mem hmem)
      exact ⟨b, i, getElem?_extend_of_getElem? vs hlog, hplace⟩
  · intro hseparate b i v k hlog hplace
    rcases getElem?_extend hlog with hlog | ⟨rfl, j, rfl, hv⟩
    · rcases h.stored hseparate b i v k hlog hplace with hmem | hmem
      · rw [Multiset.mem_cons] at hmem
        exact .inl (Multiset.mem_add.mpr (.inr (hmem.resolve_left (by simp))))
      · exact .inr hmem
    · refine .inl (Multiset.mem_add.mpr (.inl ((hnew _).mpr ⟨j, v, hv, ?_⟩)))
      rw [storeTask, hplace]
  · have hbefore := h.dropped
    rw [Multiset.mem_cons, or_iff_right (by simp : ¬ Task.drop = Task.reserve bucket vs)] at hbefore
    rw [Multiset.mem_add, or_assoc]
    constructor
    · rintro (hmem | hmem)
      · obtain ⟨j, v, hv, heq⟩ := (hnew _).mp hmem
        obtain ⟨hj, -⟩ := List.getElem?_eq_some_iff.mp hv
        refine ⟨bucket, _, ?_, storeTask_eq_drop.mp heq⟩
        rw [length_extend, if_pos rfl]
        omega
      · obtain ⟨b, i, hi, hplace⟩ := hbefore.mp hmem
        refine ⟨b, i, ?_, hplace⟩
        rw [length_extend]
        omega
    · rintro ⟨b, i, hi, hplace⟩
      by_cases hold : i < (log b).length
      · exact .inr (hbefore.mpr ⟨b, i, hold, hplace⟩)
      · -- The place is one of those just reserved.
        rw [length_extend] at hi
        by_cases hb : b = bucket
        · subst hb
          rw [if_pos rfl] at hi
          have hj : i - (log b).length < vs.length := by omega
          refine .inl ((hnew _).mpr ⟨_, _, List.getElem?_eq_getElem hj, storeTask_eq_drop.mpr ?_⟩)
          rwa [show (log b).length + (i - (log b).length) = i by omega]
        · rw [if_neg hb] at hi
          omega

theorem Inv.store_step {k : κ} {v : β} (h : Inv place total base log (.store k v ::ₘ rest) s) :
    Inv place total base log ((step place (.store k v) s).1 + rest)
      (step place (.store k v) s).2 := by
  simp only [step, zero_add]
  refine ⟨h.counts, ?_, ?_, ?_, h.base_le, ?_⟩
  · intro b
    have hconserved := h.conserved b
    rwa [values_cons, Task.values, zero_add] at hconserved
  · exact fun k' v' hmem => h.pending k' v' (Multiset.mem_cons_of_mem hmem)
  · intro hseparate b i v' k' hlog hplace
    by_cases hk : k' = k
    · -- The address has one place only, so the stored value is the one of the log.
      subst hk
      obtain ⟨b', i', hlog', hplace'⟩ := h.pending k' v (Multiset.mem_cons_self _ _)
      obtain ⟨hi, -⟩ := List.getElem?_eq_some_iff.mp hlog
      obtain ⟨hi', -⟩ := List.getElem?_eq_some_iff.mp hlog'
      obtain ⟨rfl, rfl⟩ := hseparate b i b' i' k' (hi.trans_le (h.length_le b))
        (hi'.trans_le (h.length_le b')) hplace hplace'
      rw [hlog] at hlog'
      exact .inr ((Function.update_self _ _ _).trans (Option.some.inj hlog').symm)
    · rcases h.stored hseparate b i v' k' hlog hplace with hmem | hmem
      · rw [Multiset.mem_cons] at hmem
        refine .inl (hmem.resolve_left ?_)
        rintro heq
        cases heq
        exact hk rfl
      · exact .inr ((Function.update_of_ne hk _ _).trans hmem)
  · have hdropped := h.dropped
    rwa [Multiset.mem_cons, or_iff_right (by simp : ¬ Task.drop = Task.store k v)] at hdropped

theorem Inv.drop_step (h : Inv place total base log (.drop ::ₘ rest) s) :
    Inv place total base log ((step place .drop s).1 + rest) (step place .drop s).2 := by
  simp only [step, zero_add]
  refine ⟨h.counts, ?_, ?_, ?_, h.base_le.trans (Nat.le_succ _), ?_⟩
  · intro b
    have hconserved := h.conserved b
    rwa [values_cons, Task.values, zero_add] at hconserved
  · exact fun k v hmem => h.pending k v (Multiset.mem_cons_of_mem hmem)
  · intro hseparate b i v k hlog hplace
    refine (h.stored hseparate b i v k hlog hplace).imp_left fun hmem => ?_
    rw [Multiset.mem_cons] at hmem
    exact hmem.resolve_left (by simp)
  · have hbase := h.base_le
    rw [← h.dropped]
    simp only [Multiset.mem_cons_self, true_or, iff_true]
    exact .inr (by omega)

/-- **What the buckets hold.** Under every schedule there is a log of every bucket: its length is
the count, it holds the values meant for the bucket, and its values are in their places. A value was
dropped exactly when a reservation went outside of its bucket. -/
theorem completes_log (h : Completes (step place) tasks s s') (hcounts : ∀ b, s.counts b = 0)
    (hstores : ∀ t ∈ tasks, ∃ b vs, t = .reserve b vs) :
    ∃ log : ι → List β, (∀ b, s'.counts b = (log b).length) ∧
      (∀ b, (log b : Multiset β) = values b tasks) ∧
      (Separate place (fun b => values b tasks) →
        ∀ b i v k, (log b)[i]? = some v → place b i = some k → s'.mem k = v) ∧
      (s.dropped < s'.dropped ↔ ∃ b i, i < (log b).length ∧ place b i = none) := by
  have hinv : ∃ log, Inv place (fun b => values b tasks) s.dropped log 0 s' := by
    refine h.invariant (I := fun tasks' s' =>
      ∃ log, Inv place (fun b => values b tasks) s.dropped log tasks' s')
      ⟨_, inv_start hcounts hstores⟩ ?_
    rintro (⟨b, vs⟩ | ⟨k, v⟩ | _) rest s ⟨log, hlog⟩
    · exact ⟨_, hlog.reserve_step⟩
    · exact ⟨_, hlog.store_step⟩
    · exact ⟨_, hlog.drop_step⟩
  obtain ⟨log, hlog⟩ := hinv
  refine ⟨log, hlog.counts, fun b => ?_, fun hseparate b i v k hget hplace => ?_, ?_⟩
  · rw [← hlog.conserved b, values_zero, add_zero]
  · exact (hlog.stored hseparate b i v k hget hplace).resolve_left (Multiset.notMem_zero _)
  · rw [← hlog.dropped, or_iff_right (Multiset.notMem_zero _)]

theorem dropped_le (h : Completes (step place) tasks s s') : s.dropped ≤ s'.dropped := by
  refine h.invariant (I := fun _ s' => s.dropped ≤ s'.dropped) le_rfl ?_
  rintro (⟨b, vs⟩ | ⟨k, v⟩ | _) rest s' hle
  · exact hle
  · exact hle
  · exact hle.trans (Nat.le_succ _)

/-- The count of a bucket is the number of values meant for it. -/
theorem counts_eq_card (h : Completes (step place) tasks s s') (hcounts : ∀ b, s.counts b = 0)
    (hstores : ∀ t ∈ tasks, ∃ b vs, t = .reserve b vs) (b : ι) :
    s'.counts b = (values b tasks).card := by
  obtain ⟨log, hlength, hlog, -⟩ := completes_log h hcounts hstores
  rw [hlength, ← hlog, Multiset.coe_card]

/-! ## No value is lost -/

/-- The reserved places of a bucket that exist. -/
def used (place : ι → ℕ → Option κ) (bucket : ι) (count : ℕ) : ℕ :=
  (List.range count).countP fun i => (place bucket i).isSome

/-- The values of a task that are neither in a place nor counted as dropped. -/
def Task.size : Task ι κ β → ℕ
  | .reserve _ values => values.length
  | .store _ _ => 0
  | .drop => 1

omit [DecidableEq ι] [DecidableEq κ] in
theorem size_sum {γ : Type*} (groups : Finset γ) (tasks : γ → Multiset (Task ι κ β)) :
    ((∑ g ∈ groups, tasks g).map Task.size).sum =
      ∑ g ∈ groups, ((tasks g).map Task.size).sum := by
  classical
  induction groups using Finset.induction_on with
  | empty => rfl
  | insert g groups hg ih =>
    rw [Finset.sum_insert hg, Finset.sum_insert hg, Multiset.map_add, Multiset.sum_add, ih]

omit [DecidableEq ι] [DecidableEq κ] in
theorem used_succ (bucket : ι) (count : ℕ) : used place bucket (count + 1) =
    used place bucket count + if (place bucket count).isSome then 1 else 0 := by
  rw [used, List.range_succ, List.countP_append, List.countP_singleton, used]

omit [DecidableEq ι] [DecidableEq κ] in
/-- The values of a reservation get a place, or are dropped. -/
theorem used_add (place : ι → ℕ → Option κ) (bucket : ι) (count : ℕ) (vs : List β) :
    used place bucket (count + vs.length) +
      ((vs.mapIdx fun j value => storeTask place bucket (count + j) value).map Task.size).sum =
      used place bucket count + vs.length := by
  induction vs using List.reverseRecOn with
  | nil => rfl
  | append_singleton vs v ih =>
    have hsize : (if (place bucket (count + vs.length)).isSome then 1 else 0) +
        (storeTask place bucket (count + vs.length) v).size = 1 := by
      unfold storeTask
      cases place bucket (count + vs.length) with
      | some address => rfl
      | none => rfl
    rw [List.mapIdx_append, List.map_append, List.sum_append, List.length_append,
      List.length_singleton, ← Nat.add_assoc count, used_succ]
    simp only [List.mapIdx_cons, List.mapIdx_nil, Nat.zero_add, List.map_cons, List.map_nil,
      List.sum_singleton]
    omega

/-- What happens to the values: they wait, are dropped, or have a place. -/
def account (place : ι → ℕ → Option κ) (buckets : Finset ι) (tasks : Multiset (Task ι κ β))
    (s : State ι κ β) : ℕ :=
  ∑ b ∈ buckets, used place b (s.counts b) + s.dropped + (tasks.map Task.size).sum

/-- The tasks reserve places in certain buckets only. -/
def Within (buckets : Finset ι) (tasks : Multiset (Task ι κ β)) : Prop :=
  ∀ b vs, .reserve b vs ∈ tasks → b ∈ buckets

theorem account_step {buckets : Finset ι} (t : Task ι κ β)
    (h : Within buckets (t ::ₘ rest)) :
    account place buckets ((step place t s).1 + rest) (step place t s).2 =
      account place buckets (t ::ₘ rest) s := by
  simp only [account, Multiset.map_add, Multiset.sum_add, Multiset.map_cons, Multiset.sum_cons]
  cases t with
  | reserve b vs =>
    have hb : b ∈ buckets := h b vs (Multiset.mem_cons_self _ _)
    have hother : ∀ b' ∈ buckets.erase b, used place b'
        (Function.update s.counts b (s.counts b + vs.length) b') =
        used place b' (s.counts b') := by
      intro b' hb'
      rw [Function.update_of_ne (Finset.ne_of_mem_erase hb')]
    have hused := used_add place b (s.counts b) vs
    simp only [step, Task.size, Multiset.map_coe, Multiset.sum_coe]
    rw [← Finset.add_sum_erase _ _ hb, ← Finset.add_sum_erase _ _ hb,
      Finset.sum_congr rfl hother, Function.update_self]
    omega
  | store k v => simp [step, Task.size]
  | drop =>
    simp only [step, Task.size, Multiset.map_zero, Multiset.sum_zero]
    omega

theorem within_step {buckets : Finset ι} {t : Task ι κ β} (h : Within buckets (t ::ₘ rest)) :
    Within buckets ((step place t s).1 + rest) := by
  intro b vs hmem
  rcases Multiset.mem_add.mp hmem with hmem | hmem
  · cases t with
    | reserve b' vs' =>
      obtain ⟨j, hj, heq⟩ := List.mem_mapIdx.mp (Multiset.mem_coe.mp hmem)
      unfold storeTask at heq
      split at heq <;> cases heq
    | store k v => exact absurd hmem (Multiset.notMem_zero _)
    | drop => exact absurd hmem (Multiset.notMem_zero _)
  · exact h b vs (Multiset.mem_cons_of_mem hmem)

/-- **No value is lost**: at the end it has a place, or it was counted as dropped. -/
theorem completes_account {buckets : Finset ι} (h : Completes (step place) tasks s s')
    (hwithin : Within buckets tasks) :
    ∑ b ∈ buckets, used place b (s'.counts b) + s'.dropped = account place buckets tasks s := by
  have hinv : Within buckets (0 : Multiset (Task ι κ β)) ∧
      account place buckets 0 s' = account place buckets tasks s := by
    refine h.invariant (I := fun tasks' s' => Within buckets tasks' ∧
      account place buckets tasks' s' = account place buckets tasks s) ⟨hwithin, rfl⟩ ?_
    rintro t rest s' ⟨hwithin, haccount⟩
    exact ⟨within_step hwithin, (account_step t hwithin).trans haccount⟩
  rw [← hinv.2, account, Multiset.map_zero, Multiset.sum_zero, Nat.add_zero]

/-- The accesses that a task still makes. -/
def Task.weight : Task ι κ β → ℕ
  | .reserve _ values => values.length + 1
  | .store _ _ => 1
  | .drop => 1

omit [DecidableEq ι] [DecidableEq κ] in
theorem weight_storeTask (place : ι → ℕ → Option κ) (bucket : ι) (i : ℕ) (value : β) :
    (storeTask place bucket i value).weight = 1 := by
  unfold storeTask
  split <;> rfl

/-- Scattering tasks can be run to their end. -/
theorem exists_completes_tasks (place : ι → ℕ → Option κ) (tasks : Multiset (Task ι κ β))
    (s : State ι κ β) : ∃ s', Completes (step place) tasks s s' := by
  refine exists_completes Task.weight ?_ tasks s
  rintro (⟨b, vs⟩ | ⟨k, v⟩ | _) s
  · rw [step, Multiset.map_coe, Multiset.sum_coe, List.sum_eq_card_nsmul _ 1]
    · simp [Task.weight]
    · intro n hn
      obtain ⟨t, ht, rfl⟩ := List.mem_map.mp hn
      obtain ⟨j, hj, rfl⟩ := List.mem_mapIdx.mp ht
      exact weight_storeTask place _ _ _
  · exact Nat.one_pos
  · exact Nat.one_pos

end MoMiner.Scatter
