import MoMiner.Native.Search

/-!
# Starting a search

An accepted mining job either refreshes the running search or starts a new one
(`processJob_cases`). A started search holds batch 0 of its progression (`startSearch_at`), so by
the run rule it follows the progression until that is exhausted (`search_follows`).
-/

namespace MoMiner.Native

open MoMiner.Bytes

variable {env : Env} {memory : Option String} {v : MessageValues} {j : NewJob} {c c' : Core}
  {k : ℕ}

/-! ## First nonces -/

theorem reserved_lt (j : NewJob) : j.reserved < 2 ^ j.counter.width.bits := by
  unfold NewJob.reserved
  split_ifs
  · exact lt_of_le_of_lt Nat.and_le_right j.counter.mask_lt
  · exact Nat.two_pow_pos _

theorem reserved_eq (j : NewJob) : j.reserved = j.blobNonce &&& j.counter.mask := by
  unfold NewJob.reserved
  split_ifs with h
  · rfl
  · simp [not_not.mp h]

/-- An 8-byte counter always has unit 1. -/
theorem unit_eq_one (hacc : j.Accepted) (hw : j.counter.width = .eight) : j.part.unit = 1 := by
  rw [hacc.unit_eq, hw]
  simp [nonceUnit, Width.bytes]

theorem laneUnit_eq (hacc : j.Accepted) : j.laneUnit = j.part.unit := by
  unfold NewJob.laneUnit
  split
  · rfl
  · rename_i hw
    exact (unit_eq_one hacc hw).symm

theorem laneStart_eq (hacc : j.Accepted)
    (hlt : j.counter.nonce + j.part.threadId * j.part.unit < 2 ^ j.counter.width.bits) :
    j.laneStart = j.counter.nonce + j.part.threadId * j.part.unit := by
  rw [NewJob.laneStart, laneUnit_eq hacc]
  exact Nat.mod_eq_of_lt hlt

theorem laneStart_lt (j : NewJob) : j.laneStart < 2 ^ j.counter.width.bits :=
  Nat.mod_lt _ (Nat.two_pow_pos _)

/-! ## The four ways to start -/

theorem startLanes_at (hacc : j.Accepted) (hmode : j.mode = .mine) (hshape : c.shape = j.shape)
    (htarget : c.target ≠ 0) (hx : c.exhausted = false) (h : c.startLanes j = .done c') :
    (j.counter.nonce + j.part.threadId * j.part.unit < 2 ^ j.counter.width.bits ∧
      j.lanes.Fits 0) ∧ c'.LanesAt j 0 := by
  have hsets : j.setsNonce = true := by simp [NewJob.setsNonce, hmode]
  have hstep : j.part.threadNum * j.part.unit % 2 ^ 32 = j.lanes.lane := by
    refine Nat.mod_eq_of_lt (lt_of_le_of_lt ?_ j.part.step_lt)
    exact Nat.le_mul_of_pos_left _ j.part.batch_pos
  simp only [Core.startLanes, hsets, if_true, hstep] at h
  split_ifs at h with h1 h2
  -- Both range checks of the source passed.
  rw [laneUnit_eq hacc] at h1
  have hstart : j.counter.nonce + j.part.threadId * j.part.unit < 2 ^ j.counter.width.bits := by
    obtain ⟨r, hr⟩ := Option.ne_none_iff_exists'.mp fun hn => h1 ⟨htarget, hn⟩
    exact ((nonceWithOffset_eq_some j.counter.width.bits_le j.counter.nonce_lt).mp hr).2.1
  have hfirst : j.laneStart ||| j.reserved < 2 ^ j.counter.width.bits :=
    Nat.or_lt_two_pow (laneStart_lt j) (reserved_lt j)
  have hfit : j.lanes.Fits 0 := by
    obtain ⟨r, hr⟩ := Option.ne_none_iff_exists'.mp fun hn => h2 ⟨htarget, hn⟩
    obtain ⟨-, hlast, hagree⟩ :=
      (nonceWithOffset_eq_some j.counter.width.bits_le hfirst).mp hr
    have hnth : j.lanes.nth 0 (j.lanes.count - 1) =
        (j.laneStart ||| j.reserved) + (j.part.batch - 1) * j.lanes.lane := by
      simp [Progression.nth, NewJob.lanes]
    exact ⟨by rw [hnth]; exact hlast, by rw [Progression.nth_zero_zero], by rw [hnth]; exact hagree⟩
  refine ⟨⟨hstart, hfit⟩, ?_⟩
  cases h
  have hprep := prepareLanes_at (j := j) (k := 0)
    (c := { c with
      nonceStep := j.lanes.lane
      input := List.replicate j.part.batch j.input
      nonce32 := 0
      nonce64 := 0 }) hshape htarget hx rfl (by simp)
    (fun blob hb => List.eq_of_mem_replicate hb ▸ isBlob_input j) hfit
  rw [Progression.nth_zero_zero] at hprep
  exact ⟨hprep.shape, hprep.target, hprep.step, hprep.input, hprep.ahead⟩

theorem single_width (hacc : j.Accepted) (hdev : j.dev.singleBlob = true) :
    j.counter.width = if j.dev = .verthashGpu then .four else .eight := by
  split_ifs with hv
  · exact hacc.narrow (Or.inr hv)
  · refine hacc.wide ?_ ?_ hv
    · cases hp : j.dev.perLane <;> simp_all [Dev.singleBlob]
    · intro hrx
      simp [hrx, Dev.singleBlob, Dev.perLane] at hdev

theorem Core.SingleAt.finish (h : c.SingleAt j k) :
    (c.clearOther j.counter.width).setFn.SingleAt j k := by
  have frame : ∀ w, (c.clearOther w).setFn.shape = c.shape ∧
      (c.clearOther w).setFn.target = c.target ∧
      (c.clearOther w).setFn.nonceStep = c.nonceStep ∧
      (c.clearOther w).setFn.input = c.input := by
    intro w
    cases w <;> exact ⟨rfl, rfl, rfl, rfl⟩
  have ahead : ∀ w, (c.clearOther w).setFn.Ahead w j.single k = c.Ahead w j.single k := by
    intro w
    cases w <;> rfl
  obtain ⟨hs, ht, hn, hi⟩ := frame j.counter.width
  exact ⟨hs.trans h.shape, ht.trans_ne h.target, hn.trans h.step, hi.trans h.input,
    (ahead _).mpr h.ahead⟩

theorem startSingle_at (hmode : j.mode = .mine) (hshape : c.shape = j.shape)
    (htarget : c.target ≠ 0) (hx : c.exhausted = false)
    (h : c.startSingle j j.counter.width j.bigEndian = .done c') :
    (j.counter.nonce &&& j.counter.mask = j.single.first &&& j.counter.mask ∧ j.single.Fits 0) ∧
      c'.SingleAt j 0 := by
  have hsets : j.setsNonce = true := by simp [NewJob.setsNonce, hmode]
  have hmask : j.counter.mask % 2 ^ j.counter.width.bits = j.counter.mask :=
    Nat.mod_eq_of_lt j.counter.mask_lt
  have hbase : j.counter.nonce % 2 ^ j.counter.width.bits = j.counter.nonce :=
    Nat.mod_eq_of_lt j.counter.nonce_lt
  have hstep : j.part.threadNum * j.part.batch % 2 ^ 32 = j.single.stride := by
    refine Nat.mod_eq_of_lt (lt_of_le_of_lt ?_ j.part.step_lt)
    rw [Nat.mul_comm j.part.threadNum]
    exact Nat.mul_le_mul_left _ (Nat.le_mul_of_pos_right _ j.part.unit_pos)
  simp only [Core.startSingle, hsets, if_true, hmask, hbase, hstep, setNonce_target] at h
  split_ifs at h with hbad
  have hok : ∀ {P Q : Prop}, ¬(c.target ≠ 0 ∧ (P ∨ Q)) → ¬P ∧ ¬Q := fun hn =>
    ⟨fun hp => hn ⟨htarget, Or.inl hp⟩, fun hq => hn ⟨htarget, Or.inr hq⟩⟩
  obtain ⟨h1, h2⟩ := hok hbad
  obtain ⟨r, hr⟩ := Option.ne_none_iff_exists'.mp h1
  obtain ⟨-, hfirst, hagree⟩ :=
    (nonceWithOffset_eq_some j.counter.width.bits_le j.counter.nonce_lt).mp hr
  rw [Nat.mod_eq_of_lt hfirst] at h2 h
  obtain ⟨r', hr'⟩ := Option.ne_none_iff_exists'.mp h2
  obtain ⟨-, hlast, hagree'⟩ := (nonceWithOffset_eq_some j.counter.width.bits_le hfirst).mp hr'
  have hnth : j.single.nth 0 (j.single.count - 1) =
      j.counter.nonce + j.part.threadId * j.part.batch + (j.part.batch - 1) * 1 := by
    simp [Progression.nth, NewJob.single]
  have hfit : j.single.Fits 0 :=
    ⟨by rw [hnth]; exact hlast, by rw [Progression.nth_zero_zero], by rw [hnth]; exact hagree'⟩
  refine ⟨⟨hagree, hfit⟩, ?_⟩
  cases h
  have hprep := prepareSingle_at (j := j) (k := 0)
    (c := { c with input := [j.input], nonceStep := j.single.stride }.setNonce j.counter.width 0)
    (by simpa using hshape) (by simpa using htarget) (by simpa using hx) (by simp) (by simp)
    (isBlob_input j) hfit
  rw [Progression.nth_zero_zero] at hprep
  exact hprep.finish

theorem startCycle_at (hacc : j.Accepted) (hmode : j.mode = .mine) (hdev : j.dev = .c30Gpu)
    (hshape : c.shape = j.shape) (htarget : c.target ≠ 0) (h : c.startExternal j = .done c') :
    (j.counter.nonce &&& j.counter.mask = j.cycle.first &&& j.counter.mask ∧ j.cycle.Fits 0) ∧
      c'.CycleAt j 0 := by
  have hsets : j.setsNonce = true := by simp [NewJob.setsNonce, hmode]
  have hlt : j.counter.nonce < 2 ^ 64 := by
    have := j.counter.nonce_lt
    rwa [hacc.wide (by rw [hdev]; rfl) (by simp [hdev]) (by simp [hdev])] at this
  have hpearl : j.dev ≠ .pearlhashGpu := by simp [hdev]
  simp only [Core.startExternal, if_neg hpearl, hsets, if_true, true_and] at h
  split_ifs at h with hbad
  obtain ⟨r, hr⟩ := Option.ne_none_iff_exists'.mp fun hn => hbad ⟨htarget, hn⟩
  obtain ⟨-, hstart, hagree⟩ := (nonceWithOffset_eq_some (by decide) hlt).mp hr
  rw [mul_one] at hstart hagree
  have hnth : j.cycle.nth 0 (j.cycle.count - 1) = j.counter.nonce + j.part.threadId := by
    simp [Progression.nth, NewJob.cycle]
  refine ⟨⟨hagree, by rw [hnth]; exact hstart, by rw [Progression.nth_zero_zero], ?_⟩, ?_⟩
  · rw [hnth]
    rfl
  · cases h
    exact ⟨hshape, htarget, rfl, by
      rw [Progression.nth_zero_zero]
      exact Nat.mod_eq_of_lt hstart⟩

theorem startSeeds_at (hacc : j.Accepted) (hmode : j.mode = .mine) (hdev : j.dev = .pearlhashGpu)
    (hshape : c.shape = j.shape) (h : c.startExternal j = .done c') :
    j.seeds.Fits 0 ∧ c'.SeedsAt j 0 := by
  have hsets : j.setsNonce = true := by simp [NewJob.setsNonce, hmode]
  simp only [Core.startExternal, if_pos hdev, hsets, if_true] at h
  refine ⟨seeds_fits_iff.mpr ?_, ?_⟩
  · rw [Progression.nth_zero_zero]
    exact (hacc.pearlSeed hdev).2.2
  cases h
  exact ⟨hshape, by rw [Progression.nth_zero_zero]; rfl⟩

theorem startExternal_hasFn (h : c.startExternal j = .done c') : c'.hasFn = true := by
  simp only [Core.startExternal] at h
  split_ifs at h <;> cases h <;> rfl

theorem startSingle_hasFn {w : Width} {be : Bool} (h : c.startSingle j w be = .done c') :
    c'.hasFn = true := by
  simp only [Core.startSingle] at h
  split_ifs at h <;> cases h <;> rfl

theorem startLanes_hasFn (h : c.startLanes j = .done c') : c'.hasFn = true := by
  simp only [Core.startLanes] at h
  split_ifs at h <;> cases h <;> rfl

theorem startSearch_hasFn (hrx : j.dev ≠ .rxCpu) (h : c.startSearch j = .done c') :
    c'.hasFn = true := by
  unfold Core.startSearch at h
  rw [if_neg hrx] at h
  split_ifs at h
  · exact startExternal_hasFn h
  · exact startSingle_hasFn h
  · exact startLanes_hasFn h
  · exact startSingle_hasFn h

section frames

@[simp] theorem setNonce_noncePrefix (c : Core) (w : Width) (n : ℕ) :
    (c.setNonce w n).noncePrefix = c.noncePrefix := by
  cases w <;> rfl

@[simp] theorem nextNonceAfterBatch_noncePrefix (c : Core) (w : Width) (a b d e m : ℕ) :
    (c.nextNonceAfterBatch w a b d e m).noncePrefix = c.noncePrefix := by
  obtain ⟨n, x, h⟩ := nextNonceAfterBatch_eq c w a b d e m
  simp [h]

@[simp] theorem sendLastNonce_noncePrefix (c : Core) (n w : ℕ) (p i t : String) :
    (c.sendLastNonce n w p i t).noncePrefix = c.noncePrefix := by
  unfold Core.sendLastNonce
  split_ifs <;> rfl

@[simp] theorem clearOther_setFn_noncePrefix (c : Core) (w : Width) :
    (c.clearOther w).setFn.noncePrefix = c.noncePrefix := by
  cases w <;> rfl

theorem stopExhausted_noncePrefix (c : Core) (w : Width) (r : Bool) :
    (c.stopExhausted w r).noncePrefix = c.noncePrefix := by
  unfold Core.stopExhausted
  split_ifs <;> simp [Core.send, Core.clearFn]

theorem advanceSingle_noncePrefix (c : Core) (w : Width) (be r : Bool) :
    (c.advanceSingle w be r).noncePrefix = c.noncePrefix := by
  unfold Core.advanceSingle
  split_ifs
  · exact stopExhausted_noncePrefix c w r
  · simp [Core.prepareSingle]

theorem advance_noncePrefix (c : Core) : c.advance.noncePrefix = c.noncePrefix := by
  unfold Core.advance
  split
  all_goals try exact advanceSingle_noncePrefix _ _ _ _
  · unfold Core.advancePearl
    split
    · rfl
    · split_ifs <;> simp [Core.clearFn]
  · simp only [Core.advanceC30]
    split_ifs <;> simp [Core.clearFn]
  all_goals
    first
    | (unfold Core.advanceLanes
       split_ifs
       · exact stopExhausted_noncePrefix c _ _
       · simp [Core.prepareLanes])
    | rfl

theorem dispatch_noncePrefix (c : Core) (m : ℕ) :
    (Core.dispatch^[m] c).noncePrefix = c.noncePrefix := by
  induction m with
  | zero => rfl
  | succ m ih =>
    rw [Function.iterate_succ_apply', Core.dispatch]
    split_ifs
    · rw [advance_noncePrefix, ih]
    · exact ih

end frames

@[simp] theorem clearOther_setFn_target (c : Core) (w : Width) :
    (c.clearOther w).setFn.target = c.target := by
  cases w <;> rfl

theorem startSingle_target {w : Width} {be : Bool} (h : c.startSingle j w be = .done c') :
    c'.target = c.target := by
  simp only [Core.startSingle] at h
  split_ifs at h <;> cases h <;> simp [Core.prepareSingle]

theorem startSearch_target (h : c.startSearch j = .done c') : c'.target = c.target := by
  unfold Core.startSearch at h
  split_ifs at h
  · cases h
    rfl
  · simp only [Core.startExternal] at h
    split_ifs at h <;> cases h <;> rfl
  · exact startSingle_target h
  · simp only [Core.startLanes] at h
    split_ifs at h <;> cases h <;> simp [Core.prepareLanes, Core.setFn]
  · exact startSingle_target h

theorem startSearch_noncePrefix (h : c.startSearch j = .done c') :
    c'.noncePrefix = c.noncePrefix := by
  unfold Core.startSearch at h
  split_ifs at h
  · cases h
    rfl
  · simp only [Core.startExternal] at h
    split_ifs at h <;> cases h <;> rfl
  · simp only [Core.startSingle] at h
    split_ifs at h <;> cases h <;> simp [Core.prepareSingle]
  · simp only [Core.startLanes] at h
    split_ifs at h <;> cases h <;> simp [Core.prepareLanes, Core.setFn]
  · simp only [Core.startSingle] at h
    split_ifs at h <;> cases h <;> simp [Core.prepareSingle]

theorem startSearch_external (hj : j.dev.externalNonce = true) :
    c.startSearch j = c.startExternal j := by
  have hrx : j.dev ≠ .rxCpu := fun hd => by simp [hd, Dev.externalNonce] at hj
  rw [Core.startSearch, if_neg hrx, if_pos hj]

theorem startSearch_perLane (hj : j.dev.perLane = true) : c.startSearch j = c.startLanes j := by
  unfold Core.startSearch
  cases hd : j.dev <;> simp [hd, Dev.perLane, Dev.externalNonce] at hj ⊢

theorem startSearch_single (hacc : j.Accepted) (hj : j.dev.singleBlob = true) :
    c.startSearch j = c.startSingle j j.counter.width j.bigEndian := by
  have hne : ¬j.dev.perLane = true ∧ ¬j.dev.externalNonce = true ∧ j.dev ≠ .rxCpu := by
    cases hd : j.dev <;> simp [hd, Dev.singleBlob, Dev.perLane, Dev.externalNonce] at hj ⊢
  rw [single_width hacc hj, NewJob.bigEndian, Core.startSearch, if_neg hne.2.2, if_neg hne.2.1,
    if_neg hne.1]
  split_ifs <;> rfl

/-- **A started search holds its first batch.** -/
theorem startSearch_at (hacc : j.Accepted) (hmode : j.mode = .mine) (hrx : j.dev ≠ .rxCpu)
    (hshape : c.shape = j.shape) (htarget : c.target ≠ 0) (hx : c.exhausted = false)
    (h : c.startSearch j = .done c') : j.nonces.Fits 0 ∧ c'.At j 0 := by
  have hfn := startSearch_hasFn hrx h
  rcases dev_cases j.dev hrx with hj | hj | ⟨h1, h2, hj⟩ | ⟨h1, h2, hl, hj⟩
  · rw [startSearch_external (by rw [hj]; rfl)] at h
    obtain ⟨⟨-, hfit⟩, hat⟩ := startCycle_at hacc hmode hj hshape htarget h
    exact ⟨by rwa [NewJob.nonces, if_pos hj], hfn, by rwa [Core.Prepared, if_pos hj]⟩
  · have hne : j.dev ≠ .c30Gpu := by simp [hj]
    rw [startSearch_external (by rw [hj]; rfl)] at h
    obtain ⟨hfit, hat⟩ := startSeeds_at hacc hmode hj hshape h
    exact ⟨by rwa [NewJob.nonces, if_neg hne, if_pos hj], hfn,
      by rwa [Core.Prepared, if_neg hne, if_pos hj]⟩
  · rw [startSearch_perLane hj] at h
    obtain ⟨⟨-, hfit⟩, hat⟩ := startLanes_at hacc hmode hshape htarget hx h
    exact ⟨by rwa [NewJob.nonces, if_neg h1, if_neg h2, if_pos hj], hfn,
      by rwa [Core.Prepared, if_neg h1, if_neg h2, if_pos hj]⟩
  · have hl' : ¬j.dev.perLane = true := by simp [hl]
    rw [startSearch_single hacc hj] at h
    obtain ⟨⟨-, hfit⟩, hat⟩ := startSingle_at hmode hshape htarget hx h
    exact ⟨by rwa [NewJob.nonces, if_neg h1, if_neg h2, if_neg hl'], hfn,
      by rwa [Core.Prepared, if_neg h1, if_neg h2, if_neg hl']⟩

/-! ## RandomX -/

theorem rxThread_fits (hacc : j.Accepted) (hmode : j.mode = .mine) (hdev : j.dev = .rxCpu)
    {b : ℕ} (hb : b < j.part.batch) :
    j.counter.nonce + (j.part.threadId * j.part.batch + b) * j.part.unit < 2 ^ 32 ∧
      (j.rxThreadNonces b).Fits 0 := by
  have hlast := hacc.rxStart hdev (by simp [hmode])
  have hle := Nat.mul_le_mul_right j.part.unit
    (show j.part.threadId * j.part.batch + b ≤
      j.part.threadId * j.part.batch + (j.part.batch - 1) by omega)
  have hlt : j.counter.nonce + (j.part.threadId * j.part.batch + b) * j.part.unit < 2 ^ 32 := by
    omega
  have hres : j.reserved < 2 ^ 32 := by
    have := reserved_lt j
    rwa [hacc.narrow (Or.inl hdev)] at this
  refine ⟨hlt, ?_, by rw [Progression.nth_zero_zero], by
    rw [show (j.rxThreadNonces b).count - 1 = 0 from rfl, Progression.nth_zero_zero]⟩
  rw [show (j.rxThreadNonces b).count - 1 = 0 from rfl, Progression.nth_zero_zero]
  exact Nat.or_lt_two_pow hlt hres

theorem rxThread_at (hacc : j.Accepted) (hmode : j.mode = .mine) (hdev : j.dev = .rxCpu)
    {b : ℕ} (hb : b < j.part.batch) : (j.rxThread c b).At j b 0 := by
  have hlt := (rxThread_fits hacc hmode hdev hb).1
  have hmask : j.counter.mask < 2 ^ 32 := by
    have := j.counter.mask_lt
    rwa [hacc.narrow (Or.inl hdev)] at this
  refine ⟨rfl, ?_, ?_, Nat.mod_eq_of_lt hmask⟩
  · rw [Progression.nth_zero_zero]
    simp only [NewJob.rxThread, NewJob.rxThreadNonces, Nat.mod_eq_of_lt hlt]
  · exact Nat.mod_eq_of_lt (rx_step_lt j b)

/-! ## The job command -/

/-- The accepted job only refreshes the metadata of the running search. -/
def Core.refreshes (c : Core) (j : NewJob) : Prop :=
  c.sameComputeInput true j = true ∧ j.dev ≠ .rxCpu

instance (c : Core) (j : NewJob) : Decidable (c.refreshes j) :=
  inferInstanceAs (Decidable (_ ∧ _))

/-- The members of the core that a search depends on. -/
structure Core.SameSearch (c c' : Core) : Prop where
  shape : c'.shape = c.shape
  noncePrefix : c'.noncePrefix = c.noncePrefix
  hasFn : c'.hasFn = c.hasFn
  exhausted : c'.exhausted = c.exhausted
  nonceStep : c'.nonceStep = c.nonceStep
  nonce32 : c'.nonce32 = c.nonce32
  nonce64 : c'.nonce64 = c.nonce64
  input : c'.input = c.input
  rxThreads : c'.rxThreads = c.rxThreads

theorem reportPrevious_same (p c : Core) :
    c.SameSearch (p.reportPrevious c) ∧ (p.reportPrevious c).target = c.target := by
  unfold Core.reportPrevious Core.sendLastNonce
  split_ifs <;> exact ⟨⟨rfl, rfl, rfl, rfl, rfl, rfl, rfl, rfl, rfl⟩, rfl⟩

theorem Core.SameSearch.at (h : c.SameSearch c') (ht : c'.target ≠ 0) (hat : c.At j k) :
    c'.At j k := by
  have ahead : ∀ w p, c.Ahead w p k → c'.Ahead w p k := by
    intro w p ha
    unfold Core.Ahead at ha ⊢
    rw [h.exhausted, show c'.nonce w = c.nonce w by cases w; exacts [h.nonce32, h.nonce64]]
    exact ha
  refine ⟨h.hasFn.trans hat.hasFn, ?_⟩
  have hp := hat.prepared
  unfold Core.Prepared at hp ⊢
  split_ifs at hp ⊢
  · exact ⟨h.shape.trans hp.shape, ht, h.nonceStep.trans hp.step, h.nonce64.trans hp.nonce⟩
  · exact ⟨h.shape.trans hp.shape, h.nonce64.trans hp.nonce⟩
  · exact ⟨h.shape.trans hp.shape, ht, h.nonceStep.trans hp.step, h.input.trans hp.input,
      ahead _ _ hp.ahead⟩
  · exact ⟨h.shape.trans hp.shape, ht, h.nonceStep.trans hp.step, h.input.trans hp.input,
      ahead _ _ hp.ahead⟩

/-- What an accepted job command does: it refreshes the running search, or it starts the search
of the job from a core whose target is set. -/
inductive Core.Accepts (env : Env) (v : MessageValues) (c : Core) : NewJob → Core → Prop
  | refreshed {j : NewJob} {c' : Core} (parsed : parseJob env .mine v = .ok j)
      (same : c.refreshes j) (search : c.SameSearch c') (target : c'.target ≠ 0) :
      Accepts env v c j c'
  | started {j : NewJob} {c₁ c₂ c' : Core} (parsed : parseJob env .mine v = .ok j)
      (fresh : ¬c.refreshes j) (shape : c₁.shape = j.shape)
      (noncePrefix : c₁.noncePrefix = j.noncePrefix) (target : c₁.target ≠ 0)
      (unexhausted : c₁.exhausted = false) (start : c₁.startSearch j = .done c₂)
      (search : c₂.SameSearch c') (target' : c'.target ≠ 0) : Accepts env v c j c'

theorem processJob_accepts (h : c.processJob env memory v = .done c') :
    ∃ j, c.Accepts env v j c' := by
  unfold Core.processJob at h
  split at h
  · cases h
  rename_i ids hids
  have htarget := parseIds_target_pos hids
  split at h
  · cases h
  rename_i c₂ hset
  cases h
  obtain ⟨hsame, hsame_t⟩ := reportPrevious_same c c₂
  unfold Core.setJob at hset
  split at hset
  · cases hset
  rename_i j hj
  refine ⟨j, ?_⟩
  have hmode : j.mode = .mine := by
    obtain ⟨f, b, ct, p⟩ := parseJob_eq_ok hj
    exact p.mode_eq
  simp only [Core.setAccepted, hmode, if_true] at hset
  by_cases hr : c.refreshes j
  · have hr' := hr
    obtain ⟨hsc, hdev⟩ := hr'
    rw [if_pos ⟨hsc, hdev⟩] at hset
    have hshape : c.shape = j.shape := by
      simp only [Core.sameComputeInput, Core.sameJobShape, Bool.and_eq_true, beq_iff_eq] at hsc
      exact hsc.1.1.1.2
    have hrx : c.shape.dev ≠ .rxCpu := by rw [hshape]; exact hdev
    rw [if_neg hrx] at hset
    cases hset
    refine .refreshed hj hr ?_ (by rw [hsame_t]; exact htarget)
    exact ⟨hsame.shape, hsame.noncePrefix, hsame.hasFn, hsame.exhausted, hsame.nonceStep, hsame.nonce32,
      hsame.nonce64, hsame.input, hsame.rxThreads⟩
  · have hr' : ¬(c.sameComputeInput true j = true ∧ j.dev ≠ .rxCpu) := hr
    rw [if_neg hr'] at hset
    split at hset
    · cases hset
    exact .started hj hr rfl rfl htarget rfl hset hsame
      (by rw [hsame_t, startSearch_target hset]; exact htarget)

end MoMiner.Native
