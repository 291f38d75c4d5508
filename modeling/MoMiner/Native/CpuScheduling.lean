import Mathlib.Data.List.Basic
import Mathlib.Tactic.Ring

/-!
# Batches of CPU threads

`cpu_thread_batches` shares the L3 cache of the CPU among threads. Each thread first gets a batch of
one hash, then the batches grow in passes over the threads until a hash does not fit or all batches
are at the limit. One unsigned counter, `used_l3cache`, is advanced in the conditions of both loops,
also for a hash that does not fit.

The invariant of the passes: before a pass all batches are equal, and the counter is the memory of
all of them. A pass raises the batches of a first part of the threads, and the counter by a hash for
each thread; where that part is not all of them, the counter has passed the cache size and the loop
ends.

Main result: `cpuThreadBatches_spec`.
-/

namespace MoMiner.Native

/-! ## The function of `cpu-scheduling.h` -/

/-- `unsigned` arithmetic. -/
def uint (n : ℕ) : ℕ := n % 2 ^ 32

section

variable (algo : String) (maxCpuBatch threadCount l3cache batchMem : ℕ)

/-- The first loop: a batch for each thread, while they fit. -/
def fillThreads : ℕ → ℕ → ℕ → List ℕ → Option (ℕ × List ℕ)
  | 0, _, _, _ => none
  | fuel + 1, usedThreads, usedL3cache, threads =>
    if uint (usedThreads + 1) ≤ threadCount then
      if uint (usedL3cache + batchMem) ≤ l3cache then
        fillThreads fuel (uint (usedThreads + 1)) (uint (usedL3cache + batchMem))
          (threads ++ [if algo = "ghostrider" then 8 else 1])
      else some (uint (usedL3cache + batchMem), threads)
    else some (usedL3cache, threads)

/-- One pass of the second loop: the counter, the batches and `updated`. -/
def growPass : ℕ → List ℕ → ℕ × List ℕ × Bool
  | usedL3cache, [] => (usedL3cache, [], false)
  | usedL3cache, i :: rest =>
    if i < maxCpuBatch then
      if uint (usedL3cache + batchMem) ≤ l3cache then
        let (used, rest, _) := growPass (uint (usedL3cache + batchMem)) rest
        (used, uint (i + 1) :: rest, true)
      else
        let (used, rest, updated) := growPass (uint (usedL3cache + batchMem)) rest
        (used, i :: rest, updated)
    else
      let (used, rest, updated) := growPass usedL3cache rest
      (used, i :: rest, updated)

/-- The second loop. -/
def growBatches : ℕ → ℕ → List ℕ → Option (List ℕ)
  | 0, _, _ => none
  | fuel + 1, usedL3cache, threads =>
    if usedL3cache < l3cache then
      let (used, grown, updated) := growPass maxCpuBatch l3cache batchMem usedL3cache threads
      if updated then growBatches fuel used grown else some grown
    else some threads

/-- The batches; none when a loop does not end within the fuel. -/
def cpuThreadBatches (socketCount fuel : ℕ) : Option (List ℕ) :=
  if "rx/".toList.isPrefixOf algo.toList then
    some (List.replicate socketCount (max 1 (min threadCount (l3cache / batchMem) / socketCount)))
  else do
    let (usedL3cache, threads) ← fillThreads algo threadCount l3cache batchMem fuel 0 0 []
    let threads ←
      if "argon2/".toList.isPrefixOf algo.toList then some threads
      else growBatches maxCpuBatch l3cache batchMem fuel usedL3cache threads
    return if threads = [] then [1] else threads

end

/-! ## The first loop -/

variable {algo : String} {maxCpuBatch threadCount l3cache batchMem : ℕ}

theorem uint_of_lt {n : ℕ} (h : n < 2 ^ 32) : uint n = n := Nat.mod_eq_of_lt h

/-- The number of batches of one that fit. -/
def fitting (threadCount l3cache batchMem : ℕ) : ℕ := min threadCount (l3cache / batchMem)

/-- The first loop gives a batch of one to as many threads as fit. -/
theorem fillThreads_eq (halgo : algo ≠ "ghostrider") (hmem : 0 < batchMem)
    (hfits : l3cache + threadCount * batchMem < 2 ^ 32) {k fuel : ℕ}
    (hk : k ≤ fitting threadCount l3cache batchMem)
    (hfuel : fitting threadCount l3cache batchMem - k < fuel) :
    fillThreads algo threadCount l3cache batchMem fuel k (k * batchMem) (List.replicate k 1) =
      some (min threadCount (l3cache / batchMem + 1) * batchMem,
        List.replicate (fitting threadCount l3cache batchMem) 1) := by
  induction fuel generalizing k with
  | zero => exact absurd hfuel (Nat.not_lt_zero _)
  | succ fuel ih =>
    have hdiv : l3cache / batchMem * batchMem ≤ l3cache := Nat.div_mul_le_self _ _
    have hmod : l3cache < (l3cache / batchMem + 1) * batchMem := 
      (Nat.div_lt_iff_lt_mul hmem).mp (Nat.lt_succ_self _)
    have hthreads : threadCount ≤ threadCount * batchMem := Nat.le_mul_of_pos_right _ hmem
    rw [fillThreads, ← Nat.add_one_mul]
    rcases hk.lt_or_eq with hlt | rfl
    · have hcount : k + 1 ≤ threadCount := hlt.trans_le (min_le_left _ _)
      have hdivk : k + 1 ≤ l3cache / batchMem := hlt.trans_le (min_le_right _ _)
      have hcache : (k + 1) * batchMem ≤ l3cache := (Nat.le_div_iff_mul_le hmem).mp hdivk
      rw [uint_of_lt (by omega), uint_of_lt (by omega), if_pos hcount, if_pos hcache, if_neg halgo,
        ← List.replicate_succ']
      exact ih hlt (by omega)
    · by_cases hall : threadCount ≤ l3cache / batchMem
      · have hcache : threadCount * batchMem ≤ l3cache := (Nat.le_div_iff_mul_le hmem).mp hall
        have hmin : fitting threadCount l3cache batchMem = threadCount := min_eq_left hall
        rw [hmin, uint_of_lt (by omega), if_neg (by omega), min_eq_left (by omega)]
      · have hmin : fitting threadCount l3cache batchMem = l3cache / batchMem :=
          min_eq_right (by omega)
        have hone : batchMem ≤ threadCount * batchMem :=
          Nat.le_mul_of_pos_left _ (by omega)
        have hnext : (l3cache / batchMem + 1) * batchMem ≤ l3cache + batchMem := by
          rw [Nat.succ_mul]
          omega
        rw [hmin, uint_of_lt (by omega), if_pos (by omega), uint_of_lt (by omega),
          if_neg (by omega), min_eq_right (by omega)]

/-! ## The second loop -/

/-- The batches of `n` threads, of which `k` have one hash more than `b`. -/
def level (b n k : ℕ) : List ℕ := List.replicate k (b + 1) ++ List.replicate (n - k) b

/-- A pass over equal batches raises as many of them as there is room for. -/
theorem growPass_replicate (hmem : 0 < batchMem) {b n used : ℕ} (hb : b < maxCpuBatch)
    (hmax : maxCpuBatch < 2 ^ 32) (hfits : used + n * batchMem < 2 ^ 32) :
    growPass maxCpuBatch l3cache batchMem used (List.replicate n b) =
      (used + n * batchMem, level b n (min n ((l3cache - used) / batchMem)),
        decide (0 < min n ((l3cache - used) / batchMem))) := by
  induction n generalizing used with
  | zero => simp [growPass, level]
  | succ n ih =>
    have hstep : used + batchMem + n * batchMem = used + (n + 1) * batchMem := by ring
    have hused : used + batchMem < 2 ^ 32 := by
      have := Nat.zero_le (n * batchMem)
      omega
    rw [List.replicate_succ, growPass, if_pos hb, uint_of_lt hused, ih (by omega), hstep]
    by_cases hcache : used + batchMem ≤ l3cache
    · have hroom : (l3cache - used) / batchMem = (l3cache - (used + batchMem)) / batchMem + 1 := by
        rw [← Nat.add_div_right _ hmem]
        congr 1
        omega
      rw [if_pos hcache, hroom, uint_of_lt (by omega), Nat.add_min_add_right]
      simp [level, List.replicate_succ]
    · have hroom : (l3cache - used) / batchMem = 0 := Nat.div_eq_of_lt (by omega)
      have hroom' : (l3cache - (used + batchMem)) / batchMem = 0 := Nat.div_eq_of_lt (by omega)
      rw [if_neg hcache, hroom, hroom']
      simp [level, List.replicate_succ]

/-- A pass over batches at the limit changes nothing. -/
theorem growPass_full {b n used : ℕ} (hb : maxCpuBatch ≤ b) :
    growPass maxCpuBatch l3cache batchMem used (List.replicate n b) =
      (used, List.replicate n b, false) := by
  induction n with
  | zero => rfl
  | succ n ih => rw [List.replicate_succ, growPass, if_neg (not_lt.mpr hb), ih]

/-- What the second loop leaves: a level that fits, below the limit, with no room for another hash
unless it is at the limit. -/
structure Filled (maxCpuBatch l3cache batchMem n b k : ℕ) : Prop where
  part : k ≤ n
  pos : 1 ≤ b
  fits : (n * b + k) * batchMem ≤ l3cache
  base : b ≤ max 1 maxCpuBatch
  raised : 0 < k → b + 1 ≤ maxCpuBatch
  full : (k = 0 ∧ maxCpuBatch ≤ b) ∨ l3cache < (n * b + k + 1) * batchMem

theorem level_zero (b n : ℕ) : level b n 0 = List.replicate n b := by simp [level]

theorem level_self (b n : ℕ) : level b n n = List.replicate n (b + 1) := by simp [level]

/-- **The passes** end with a filled level. -/
theorem growBatches_filled (hmem : 0 < batchMem) (hmax : maxCpuBatch < 2 ^ 32) {n : ℕ} (hn : 0 < n)
    (hfits : l3cache + n * batchMem < 2 ^ 32) {fuel b : ℕ} (hpos : 1 ≤ b)
    (hb : b ≤ max 1 maxCpuBatch) (hused : n * b * batchMem ≤ l3cache)
    (hfuel : l3cache - n * b * batchMem < fuel) :
    ∃ b' k, growBatches maxCpuBatch l3cache batchMem fuel (n * b * batchMem) (List.replicate n b) =
        some (level b' n k) ∧ Filled maxCpuBatch l3cache batchMem n b' k := by
  induction fuel generalizing b with
  | zero => exact absurd hfuel (Nat.not_lt_zero _)
  | succ fuel ih =>
    have hstay : (n * b + 0) * batchMem ≤ l3cache := hused
    rw [growBatches]
    by_cases hroom : n * b * batchMem < l3cache
    swap
    · rw [if_neg hroom, ← level_zero]
      refine ⟨b, 0, rfl, ⟨Nat.zero_le n, hpos, hstay, hb, fun h => absurd h (lt_irrefl 0), .inr ?_⟩⟩
      rw [Nat.add_one_mul]
      omega
    rw [if_pos hroom]
    by_cases hlimit : b < maxCpuBatch
    swap
    · rw [growPass_full (not_lt.mp hlimit), ← level_zero]
      exact ⟨b, 0, rfl, ⟨Nat.zero_le n, hpos, hstay, hb, fun h => absurd h (lt_irrefl 0),
        .inl ⟨rfl, not_lt.mp hlimit⟩⟩⟩
    rw [growPass_replicate hmem hlimit hmax (by omega)]
    have hnext : n * b * batchMem + n * batchMem = n * (b + 1) * batchMem := by ring
    generalize hk : min n ((l3cache - n * b * batchMem) / batchMem) = k
    have hpart : k ≤ n := hk ▸ min_le_left _ _
    have htaken : k * batchMem ≤ l3cache - n * b * batchMem :=
      (Nat.mul_le_mul_right _ (hk ▸ min_le_right _ _)).trans (Nat.div_mul_le_self _ _)
    have hsum : (n * b + k) * batchMem = n * b * batchMem + k * batchMem := by ring
    have hleft : k < n → l3cache < (n * b + k + 1) * batchMem := by
      intro hlt
      have hdiv : (l3cache - n * b * batchMem) / batchMem = k := by omega
      have hover := (Nat.div_lt_iff_lt_mul hmem).mp (Nat.lt_succ_self
        ((l3cache - n * b * batchMem) / batchMem))
      rw [hdiv, Nat.succ_eq_add_one, Nat.add_one_mul] at hover
      rw [Nat.add_one_mul, hsum]
      omega
    by_cases hnone : k = 0
    · subst hnone
      refine ⟨b, 0, by simp, ⟨hpart, hpos, hstay, hb, fun h => absurd h (lt_irrefl 0),
        .inr (hleft hn)⟩⟩
    · have hk₀ : 0 < k := Nat.pos_of_ne_zero hnone
      have hgrown : batchMem ≤ k * batchMem := Nat.le_mul_of_pos_left _ hk₀
      simp only [hk₀, decide_true, if_true, hnext]
      rcases hpart.lt_or_eq with hlt | rfl
      · -- The counter has passed the cache size, so the loop ends here.
        have hover : ¬ n * (b + 1) * batchMem < l3cache := by
          have hall : (n * b + k + 1) * batchMem ≤ n * (b + 1) * batchMem :=
            Nat.mul_le_mul_right _ (by rw [Nat.mul_add_one]; omega)
          have := hleft hlt
          omega
        obtain ⟨fuel, rfl⟩ : ∃ f, fuel = f + 1 := ⟨fuel - 1, by omega⟩
        rw [growBatches, if_neg hover]
        exact ⟨b, k, rfl, ⟨hpart, hpos, by omega, hb, fun _ => hlimit, .inr (hleft hlt)⟩⟩
      · rw [level_self]
        exact ih (Nat.le_add_left 1 b) (le_max_of_le_right hlimit) (by omega) (by omega)

/-- A loop whose counter has passed the cache size ends at once. -/
theorem growBatches_done {fuel used : ℕ} {threads : List ℕ} (h : l3cache ≤ used) :
    growBatches maxCpuBatch l3cache batchMem (fuel + 1) used threads = some threads := by
  rw [growBatches, if_neg (not_lt.mpr h)]

/-! ## The batches -/

/-- A safe and maximal allocation. -/
structure Allocation (threadCount l3cache batchMem limit : ℕ) (threads : List ℕ) : Prop where
  count : threads.length ≤ threadCount
  sorted : threads.Pairwise (· ≥ ·)
  balanced : ∀ a ∈ threads, ∀ b ∈ threads, a ≤ b + 1
  limited : ∀ b ∈ threads, b ≤ limit
  fits : threads.sum * batchMem ≤ l3cache ∨ threads = [1]
  maximal : (∀ b ∈ threads, b = limit) ∨ l3cache < (threads.sum + 1) * batchMem

theorem mem_level {b n k x : ℕ} (h : x ∈ level b n k) : (x = b + 1 ∧ 0 < k) ∨ x = b := by
  rcases List.mem_append.mp h with h | h
  · obtain ⟨hk, rfl⟩ := List.mem_replicate.mp h
    exact .inl ⟨rfl, Nat.pos_of_ne_zero hk⟩
  · exact .inr (List.mem_replicate.mp h).2

theorem pairwise_level (b n k : ℕ) : (level b n k).Pairwise (· ≥ ·) := by
  refine List.pairwise_append.mpr ⟨List.pairwise_replicate.mpr (.inr le_rfl),
    List.pairwise_replicate.mpr (.inr le_rfl), fun x hx y hy => ?_⟩
  rw [(List.mem_replicate.mp hx).2, (List.mem_replicate.mp hy).2]
  exact Nat.le_succ b

theorem sum_level {b n k : ℕ} (h : k ≤ n) : (level b n k).sum = n * b + k := by
  obtain ⟨r, rfl⟩ := Nat.exists_eq_add_of_le h
  simp [level]
  ring

/-- A filled level is a safe and maximal allocation. -/
theorem Filled.allocation {n b k : ℕ} (h : Filled maxCpuBatch l3cache batchMem n b k)
    (hn : n ≤ threadCount) :
    Allocation threadCount l3cache batchMem (max 1 maxCpuBatch) (level b n k) := by
  refine ⟨?_, pairwise_level b n k, fun x hx y hy => ?_, fun x hx => ?_, .inl ?_, ?_⟩
  · simp only [level, List.length_append, List.length_replicate]
    have := h.part
    omega
  · rcases mem_level hx with ⟨rfl, -⟩ | rfl <;> rcases mem_level hy with ⟨rfl, -⟩ | rfl <;> omega
  · rcases mem_level hx with ⟨rfl, hk⟩ | rfl
    · exact le_max_of_le_right (h.raised hk)
    · exact h.base
  · rw [sum_level h.part]
    exact h.fits
  · rw [sum_level h.part]
    refine h.full.imp (fun ⟨hk, hle⟩ x hx => ?_) id
    rcases mem_level hx with ⟨-, hpos⟩ | rfl
    · omega
    · exact le_antisymm h.base (max_le h.pos hle)

/-- Without room for a single hash, there is still one batch of one. -/
theorem allocation_fallback (ht : 0 < threadCount) (hnone : l3cache < batchMem) :
    Allocation threadCount l3cache batchMem (max 1 maxCpuBatch) [1] := by
  refine ⟨ht, List.pairwise_singleton _ _, by simp, by simp, .inr rfl, .inr ?_⟩
  rw [List.sum_singleton]
  omega

/-- More fuel does not change the result. -/
theorem growBatches_mono {fuel fuel' used : ℕ} {threads result : List ℕ}
    (h : growBatches maxCpuBatch l3cache batchMem fuel used threads = some result)
    (hle : fuel ≤ fuel') :
    growBatches maxCpuBatch l3cache batchMem fuel' used threads = some result := by
  induction fuel generalizing fuel' used threads with
  | zero => cases h
  | succ fuel ih =>
    obtain ⟨fuel', rfl⟩ : ∃ f, fuel' = f + 1 := ⟨fuel' - 1, by omega⟩
    rw [growBatches] at h ⊢
    split_ifs at h ⊢ with hroom
    · generalize growPass maxCpuBatch l3cache batchMem used threads = pass at h ⊢
      obtain ⟨used, grown, updated⟩ := pass
      cases updated with
      | true => exact ih h (by omega)
      | false => exact h
    · exact h

/-- The passes after the first loop. -/
theorem growBatches_fitting (hmem : 0 < batchMem) (hmax : maxCpuBatch < 2 ^ 32)
    (hfits : l3cache + threadCount * batchMem < 2 ^ 32) (ht : 0 < threadCount) :
    ∃ result, growBatches maxCpuBatch l3cache batchMem (2 ^ 32)
        (min threadCount (l3cache / batchMem + 1) * batchMem)
        (List.replicate (fitting threadCount l3cache batchMem) 1) = some result ∧
      Allocation threadCount l3cache batchMem (max 1 maxCpuBatch)
        (if result = [] then [1] else result) := by
  have hover : l3cache < (l3cache / batchMem + 1) * batchMem :=
    (Nat.div_lt_iff_lt_mul hmem).mp (Nat.lt_succ_self _)
  by_cases hall : threadCount ≤ l3cache / batchMem
  · -- Every thread has a batch.
    have hcache : threadCount * batchMem ≤ l3cache := (Nat.le_div_iff_mul_le hmem).mp hall
    have hfuel : l3cache - threadCount * 1 * batchMem < 2 ^ 32 := by omega
    have hfirst := growBatches_filled hmem hmax ht hfits le_rfl (le_max_left 1 maxCpuBatch)
      (by rwa [Nat.mul_one]) hfuel
    obtain ⟨b, k, hrun, hfilled⟩ := hfirst
    rw [Nat.mul_one] at hrun
    have hne : level b threadCount k ≠ [] := by
      refine List.ne_nil_of_length_pos ?_
      have := hfilled.part
      simp only [level, List.length_append, List.length_replicate]
      omega
    rw [fitting, min_eq_left hall, min_eq_left (by omega)]
    exact ⟨_, hrun, by rw [if_neg hne]; exact hfilled.allocation le_rfl⟩
  · -- The cache is used up before every thread has a batch.
    rw [fitting, min_eq_right (by omega), min_eq_right (by omega)]
    refine ⟨_, growBatches_done (by omega), ?_⟩
    by_cases hnone : l3cache / batchMem = 0
    · have hlt : l3cache < batchMem := (Nat.div_eq_zero_iff_lt hmem).mp hnone
      simpa [hnone] using allocation_fallback ht hlt
    · have hfilled : Filled maxCpuBatch l3cache batchMem (l3cache / batchMem) 1 0 :=
        { part := Nat.zero_le _
          pos := le_rfl
          fits := by simpa using Nat.div_mul_le_self l3cache batchMem
          base := le_max_left _ _
          raised := fun h => absurd h (lt_irrefl 0)
          full := .inr (by simpa using hover) }
      rw [if_neg (by simpa using hnone), ← level_zero]
      exact hfilled.allocation (by omega)

/-- **The batches of the CPU threads.** Both loops end, and the batches are a safe and maximal
allocation; without threads there is the single batch of the fallback. -/
theorem cpuThreadBatches_spec (hrx : "rx/".toList.isPrefixOf algo.toList = false)
    (hargon : "argon2/".toList.isPrefixOf algo.toList = false) (halgo : algo ≠ "ghostrider")
    (hmem : 0 < batchMem) (hmax : maxCpuBatch < 2 ^ 32)
    (hfits : l3cache + threadCount * batchMem < 2 ^ 32) (socketCount : ℕ) :
    ∃ threads, (∀ fuel, 2 ^ 32 ≤ fuel → cpuThreadBatches algo maxCpuBatch threadCount l3cache
        batchMem socketCount fuel = some threads) ∧
      (threadCount = 0 → threads = [1]) ∧
      (0 < threadCount →
        Allocation threadCount l3cache batchMem (max 1 maxCpuBatch) threads) := by
  have hfitting : fitting threadCount l3cache batchMem ≤ l3cache :=
    (min_le_right _ _).trans (Nat.div_le_self _ _)
  -- Both loops run on any fuel from 2 ^ 32 on as they do on 2 ^ 32.
  have hrun : ∀ result, growBatches maxCpuBatch l3cache batchMem (2 ^ 32)
      (min threadCount (l3cache / batchMem + 1) * batchMem)
      (List.replicate (fitting threadCount l3cache batchMem) 1) = some result →
      ∀ fuel, 2 ^ 32 ≤ fuel → cpuThreadBatches algo maxCpuBatch threadCount l3cache batchMem
        socketCount fuel = some (if result = [] then [1] else result) := by
    intro result hresult fuel hfuel
    have hlt : fitting threadCount l3cache batchMem - 0 < fuel := by omega
    have hfill := fillThreads_eq halgo hmem hfits (Nat.zero_le _) hlt
    rw [Nat.zero_mul, List.replicate_zero] at hfill
    simp only [cpuThreadBatches, hrx, hargon, Bool.false_eq_true, if_false, hfill,
      Option.bind_eq_bind, Option.bind_some, growBatches_mono hresult hfuel, Option.pure_def]
  by_cases ht : threadCount = 0
  · subst ht
    have hempty : growBatches maxCpuBatch l3cache batchMem 1
        (min 0 (l3cache / batchMem + 1) * batchMem)
        (List.replicate (fitting 0 l3cache batchMem) 1) = some [] := by
      rw [Nat.zero_min, Nat.zero_mul, fitting, Nat.zero_min, List.replicate_zero, growBatches]
      split_ifs <;> rfl
    exact ⟨[1], hrun [] (growBatches_mono hempty (by decide)), fun _ => rfl, fun h => absurd h (lt_irrefl 0)⟩
  · obtain ⟨result, hresult, hallocation⟩ :=
      growBatches_fitting hmem hmax hfits (Nat.pos_of_ne_zero ht)
    exact ⟨_, hrun result hresult, fun h => absurd h ht, fun _ => hallocation⟩

theorem cpuThreadBatches_cn : ∃ threads,
    (∀ fuel, 2 ^ 32 ≤ fuel → cpuThreadBatches "cn/0" 5 3 10 2 1 fuel = some threads) ∧
      (3 = 0 → threads = [1]) ∧ (0 < 3 → Allocation 3 10 2 (max 1 5) threads) :=
  cpuThreadBatches_spec (by decide) (by decide) (by decide) (by decide) (by decide) (by decide) 1

example : cpuThreadBatches "cn/0" 5 3 10 2 1 9 = some [2, 2, 1] := by decide

/-- Without threads the fallback still is a batch, one more than there are threads. -/
theorem cpuThreadBatches_no_threads :
    cpuThreadBatches "cn/0" 5 0 10 2 1 1 = some [1] ∧ ¬ [1].length ≤ 0 := by decide

end MoMiner.Native
