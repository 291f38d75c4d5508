import MoMiner.Native.Partition

/-!
# Protected nonce bits

A pool reserves the high bits of the nonce by a prefix mask; the blob carries zeros or the job's
own prefix there. The single-blob and C30 paths check the mask when they place a worker, so all
their nonces keep the prefix. The per-lane and RandomX paths place a worker with the mask 0 and
check the mask only from there on: their nonces keep the prefix exactly when the start offset does
not carry into it (`protected_iff_noCarry`).
-/

namespace MoMiner.Native

open MoMiner.Bytes

variable {env : Env}

/-- A mask of the high bits of the counter. -/
def NewJob.PrefixMask (j : NewJob) : Prop :=
  ∃ free ≤ j.counter.width.bits, j.counter.mask = Mask.highMask j.counter.width.bits free

/-- The blob carries zeros or the job's own prefix under the mask. -/
def NewJob.BlobAgrees (j : NewJob) : Prop :=
  j.reserved = 0 ∨ j.reserved = j.counter.nonce &&& j.counter.mask

/-- The first nonces of a worker, before any bits of the blob are merged. -/
def NewJob.startNonces (j : NewJob) : List ℕ :=
  if j.dev = .rxCpu then
    (List.range j.part.batch).map fun b =>
      j.counter.nonce + (j.part.threadId * j.part.batch + b) * j.part.unit
  else if j.dev.perLane then [j.counter.nonce + j.part.threadId * j.part.unit]
  else if j.dev = .c30Gpu then [j.counter.nonce + j.part.threadId]
  else [j.counter.nonce + j.part.threadId * j.part.batch]

/-- Every hashed nonce keeps the masked bits of the job's nonce, and so does the start of every
worker that is not rejected. -/
structure Worker.KeepsPrefix (w : Worker env) : Prop where
  hashed : ∀ k i n, w.after.searched k i = some n →
    n &&& w.job.counter.mask = messageNonce w.values &&& w.job.counter.mask
  start : ∀ n ∈ w.job.startNonces,
    n &&& w.job.counter.mask = messageNonce w.values &&& w.job.counter.mask

theorem highMask_ne_low_byte {free : ℕ} (h : free ≤ 32) : Mask.highMask 32 free ≠ 0xff := by
  unfold Mask.highMask
  interval_cases free <;> decide

theorem PrefixMask.unit_eq_one {j : NewJob} (hacc : j.Accepted) (h : j.PrefixMask) :
    j.part.unit = 1 := by
  obtain ⟨free, hfree, hmask⟩ := h
  rw [hacc.unit_eq, nonceUnit, if_neg]
  rintro ⟨hbytes, hff, -⟩
  have hw := width_of_bytes.mp hbytes
  rw [hw] at hmask hfree
  exact highMask_ne_low_byte hfree (hmask.symm.trans hff)

theorem Worker.nonce_eq (w : Worker env) (h : w.job.PrefixMask) :
    w.job.counter.nonce = messageNonce w.values := by
  rw [messageNonce_eq w.parsed, if_neg]
  rw [PrefixMask.unit_eq_one w.wellFormed h]
  decide

/-- On a prefix mask a sum either keeps the masked bits or makes them larger. -/
theorem highMask_keep_of_or {bits free a d x : ℕ} (hfree : free ≤ bits) (hlt : a + d < 2 ^ bits)
    (h : ((a + d) &&& Mask.highMask bits free) ||| x = a &&& Mask.highMask bits free) :
    (a + d) &&& Mask.highMask bits free = a &&& Mask.highMask bits free := by
  have hle : (a + d) &&& Mask.highMask bits free ≤ a &&& Mask.highMask bits free :=
    h ▸ Nat.left_le_or
  have hge : a &&& Mask.highMask bits free ≤ (a + d) &&& Mask.highMask bits free := by
    rw [Mask.and_highMask hfree hlt, Mask.and_highMask hfree (by omega)]
    exact Nat.mul_le_mul_right _ (Nat.div_le_div_right (Nat.le_add_right a d))
  omega

theorem merge_keeps {j : NewJob} (hblob : j.BlobAgrees) {a : ℕ}
    (h : a &&& j.counter.mask = j.counter.nonce &&& j.counter.mask) :
    (a ||| j.reserved) &&& j.counter.mask = j.counter.nonce &&& j.counter.mask := by
  rw [reserved_eq, Mask.or_mask_and, ← reserved_eq, h]
  rcases hblob with hz | hz
  · rw [hz, Nat.or_zero]
  · rw [hz, Nat.or_self]

namespace Worker

variable (w : Worker env)

theorem single_agree (hj : w.job.dev.singleBlob = true) :
    w.job.counter.nonce &&& w.job.counter.mask = w.job.single.first &&& w.job.counter.mask := by
  obtain ⟨c₁, c₂, hshape, htarget, hx, hstart, -, -⟩ := w.started
  rw [startSearch_single w.wellFormed hj] at hstart
  exact (startSingle_at w.mode hshape htarget hx hstart).1.1

theorem cycle_agree (hj : w.job.dev = .c30Gpu) :
    w.job.counter.nonce &&& w.job.counter.mask = w.job.cycle.first &&& w.job.counter.mask := by
  obtain ⟨c₁, c₂, hshape, htarget, hx, hstart, -, -⟩ := w.started
  rw [startSearch_external (by rw [hj]; rfl)] at hstart
  exact (startCycle_at w.wellFormed w.mode hj hshape htarget hstart).1.1

theorem stream_bits (hp : w.job.dev ≠ .pearlhashGpu) (i : ℕ) :
    (w.job.stream i).bits = w.job.counter.width.bits ∧
      (w.job.stream i).mask = w.job.counter.mask := by
  have hacc := w.wellFormed
  unfold NewJob.stream NewJob.nonces
  split_ifs with hrx hc hl
  · rw [hacc.narrow (Or.inl hrx)]
    exact ⟨rfl, rfl⟩
  · rw [hacc.wide (by rw [hc]; rfl) hrx (by simp [hc])]
    exact ⟨rfl, rfl⟩
  · exact ⟨rfl, rfl⟩
  · exact ⟨rfl, rfl⟩

/-- Without a carry, the first nonce of every lane and thread keeps the prefix. -/
theorem first_keeps (hp : w.job.dev ≠ .pearlhashGpu) (hblob : w.job.BlobAgrees)
    (hcarry : w.job.NoCarry) {i : ℕ} (hi : i < w.job.width) :
    (w.job.stream i).first &&& w.job.counter.mask =
      w.job.counter.nonce &&& w.job.counter.mask := by
  unfold NewJob.stream
  split_ifs with hrx
  · have hb : i < w.job.part.batch := by simpa [NewJob.width, hrx] using hi
    exact merge_keeps hblob (hcarry.2 hrx i hb)
  · rcases dev_cases w.job.dev hrx with hj | hj | ⟨h1, h2, hj⟩ | ⟨h1, h2, hl, hj⟩
    · rw [NewJob.nonces, if_pos hj]
      exact (w.cycle_agree hj).symm
    · exact absurd hj hp
    · rw [NewJob.nonces, if_neg h1, if_neg h2, if_pos hj]
      have hstart := laneStart_eq w.wellFormed (w.laneStart_lt hj)
      exact merge_keeps hblob (by rw [hstart]; exact hcarry.1 hj)
    · rw [NewJob.nonces, if_neg h1, if_neg h2, if_neg (by simp [hl])]
      exact (w.single_agree hj).symm

theorem keepsPrefix_of_noCarry (hp : w.job.dev ≠ .pearlhashGpu) (hmask : w.job.PrefixMask)
    (hblob : w.job.BlobAgrees) (hcarry : w.job.NoCarry) : w.KeepsPrefix := by
  have hnonce := w.nonce_eq hmask
  constructor
  · intro k i n hn
    rw [w.searched_eq] at hn
    split_ifs at hn with hc
    obtain ⟨hi, halive⟩ := hc
    cases hn
    obtain ⟨hbits, hm⟩ := w.stream_bits hp i
    obtain ⟨free, hfree, hmask⟩ := hmask
    have hlane : w.job.streamLane i < (w.job.stream i).count := by
      unfold NewJob.stream NewJob.streamLane
      split_ifs with hrx
      · exact Nat.one_pos
      · rwa [nonces_count w.wellFormed hrx]
    have hkeep := halive.fits.nth_agree (hbits ▸ hfree) (by rw [hm, hbits, hmask]) hlane
    rw [hm] at hkeep
    rw [hkeep, w.first_keeps hp hblob hcarry hi, hnonce]
  · intro n hn
    rw [← hnonce]
    unfold NewJob.startNonces at hn
    split_ifs at hn with hrx hl hc
    · obtain ⟨b, hb, rfl⟩ := List.mem_map.mp hn
      exact hcarry.2 hrx b (List.mem_range.mp hb)
    · rw [List.mem_singleton.mp hn]
      exact hcarry.1 hl
    · rw [List.mem_singleton.mp hn]
      exact (w.cycle_agree hc).symm
    · rw [List.mem_singleton.mp hn]
      have hj : w.job.dev.singleBlob = true := by
        cases hd : w.job.dev <;> simp_all [Dev.singleBlob, Dev.perLane, Dev.externalNonce]
      exact (w.single_agree hj).symm

/-- Hashed nonces that keep the prefix leave no room for a carry: the very first nonce of a worker
that carried shows a larger prefix, and merging bits never makes it smaller. -/
theorem noCarry_of_hashed (hmask : w.job.PrefixMask)
    (h : ∀ k i n, w.after.searched k i = some n →
      n &&& w.job.counter.mask = messageNonce w.values &&& w.job.counter.mask) :
    w.job.NoCarry := by
  have hnonce := w.nonce_eq hmask
  obtain ⟨free, hfree, hm⟩ := hmask
  have first : ∀ i < w.job.width, (w.job.stream i).nth 0 (w.job.streamLane i) &&& w.job.counter.mask =
      w.job.counter.nonce &&& w.job.counter.mask := by
    intro i hi
    rw [hnonce]
    refine h 0 i _ ?_
    rw [w.searched_eq, if_pos ⟨hi, w.stream_alive_zero hi⟩]
  constructor
  · intro hl
    have hrx : w.job.dev ≠ .rxCpu := fun hd => by simp [hd, Dev.perLane] at hl
    have h1 : w.job.dev ≠ .c30Gpu := fun hd => by simp [hd, Dev.perLane] at hl
    have h2 : w.job.dev ≠ .pearlhashGpu := fun hd => by simp [hd, Dev.perLane] at hl
    have h0 := first 0 w.width_pos
    have hlt := w.laneStart_lt hl
    simp only [NewJob.stream, NewJob.streamLane, if_neg hrx, NewJob.nonces, if_neg h1, if_neg h2,
      if_pos hl, Progression.nth_zero_zero, NewJob.lanes, laneStart_eq w.wellFormed hlt,
      reserved_eq, Mask.or_mask_and] at h0
    rw [hm] at h0 ⊢
    exact highMask_keep_of_or hfree hlt h0
  · intro hrx b hb
    have hlt := (rxThread_fits w.wellFormed w.mode hrx hb).1
    have hw := w.wellFormed.narrow (Or.inl hrx)
    have h0 := first b (by simpa [NewJob.width, hrx] using hb)
    simp only [NewJob.stream, NewJob.streamLane, if_pos hrx, Progression.nth_zero_zero,
      NewJob.rxThreadNonces, reserved_eq, Mask.or_mask_and] at h0
    rw [hw] at hm hfree
    rw [hm] at h0 ⊢
    exact highMask_keep_of_or hfree hlt h0

/-- A job that refreshes the search has the prefix of the job that started it. -/
theorem refresh_nonce (hrx : w.job.dev ≠ .rxCpu) (hmask : w.job.PrefixMask) {v : MessageValues}
    {j' : NewJob} {m : ℕ} (hparsed : parseJob env .mine v = .ok j')
    (hr : (Core.dispatch^[m] w.after).refreshes j') :
    j'.counter.mask = w.job.counter.mask ∧
      messageNonce v &&& j'.counter.mask = messageNonce w.values &&& w.job.counter.mask := by
  obtain ⟨hsame, hdev⟩ := hr
  simp only [Core.sameComputeInput, Core.sameJobShape, Bool.and_eq_true, Bool.or_eq_true,
    beq_iff_eq] at hsame
  obtain ⟨⟨⟨⟨-, hshape⟩, hfn⟩, -⟩, hstart⟩ := hsame
  -- The search still runs, so the core holds a batch of the first job and has its shape.
  obtain ⟨hfit, hat⟩ := w.at_zero hrx
  obtain ⟨hrun, hstop⟩ :=
    search_follows w.wellFormed w.mode hrx (Progression.alive_zero.mpr hfit) hat m
  have halive : w.job.nonces.Alive (0 + m) := by
    by_contra hdead
    exact hstop hdead (hfn.resolve_left hdev)
  have hshapes : w.job.shape = j'.shape := (hrun halive).prepared.shape.symm.trans hshape
  have hm : j'.counter.mask = w.job.counter.mask := (congrArg Shape.nicehashMask hshapes).symm
  have hw : j'.counter.width.bytes = w.job.counter.width.bytes :=
    (congrArg Shape.nonceBytes hshapes).symm
  have hmask' : j'.PrefixMask := by
    obtain ⟨free, hfree, heq⟩ := hmask
    have hbits : j'.counter.width.bits = w.job.counter.width.bits := by
      rw [Width.bits, Width.bits, hw]
    exact ⟨free, hbits ▸ hfree, by rw [hm, hbits, heq]⟩
  have hnonce : j'.counter.nonce = messageNonce v := by
    rw [messageNonce_eq hparsed, if_neg]
    rw [PrefixMask.unit_eq_one (parseJob_accepted hparsed) hmask']
    decide
  refine ⟨hm, ?_⟩
  rw [dispatch_noncePrefix, w.after_noncePrefix] at hstart
  rw [← hnonce, ← w.nonce_eq hmask]
  exact hstart.symm

end Worker

/-- **Protected nonce bits.** For a prefix mask and a blob that carries zeros or the job's own
prefix, the hashed nonces of a started search keep the prefix exactly when the start offset of the
worker does not carry into it. The search keeps it too for every job that refreshes it. -/
theorem protected_iff_noCarry (w : Worker env) (hp : w.job.dev ≠ .pearlhashGpu)
    (hmask : w.job.PrefixMask) (hblob : w.job.BlobAgrees) :
    (w.KeepsPrefix ↔ w.job.NoCarry) ∧
      (w.job.NoCarry → w.job.dev ≠ .rxCpu → ∀ m memory v j' c',
        parseJob env .mine v = .ok j' →
        (Core.dispatch^[m] w.after).processJob env memory v = .done c' →
        (Core.dispatch^[m] w.after).refreshes j' →
        ∀ k i n, c'.searched k i = some n →
          n &&& j'.counter.mask = messageNonce v &&& j'.counter.mask) := by
  refine ⟨⟨fun h => w.noCarry_of_hashed hmask h.hashed,
    w.keepsPrefix_of_noCarry hp hmask hblob⟩, ?_⟩
  intro hcarry hrx m memory v j' c' hparsed h hr k i n hn
  obtain ⟨hm, heq⟩ := w.refresh_nonce hrx hmask hparsed hr
  rw [w.refresh_searched hrx hparsed h hr] at hn
  rw [heq, hm]
  exact (w.keepsPrefix_of_noCarry hp hmask hblob hcarry).hashed _ _ _ hn

/-! ### The last nonce of a prefix -/

/-- Worker `threadId` of two, at the last nonce of the prefix `00`. -/
def edgeValues (threadId : String) : MessageValues :=
  [("dev", "cpu"), ("algo", "cn/0"), ("blob_hex", "00000000"), ("nonceoffset", "0"),
   ("nonce", "00ffffff"), ("nicehash_mask", "ff000000"), ("thread_id", threadId),
   ("thread_num", "2"), ("target", "ffffffff"), ("pool_id", "0"), ("worker_id", "w"),
   ("job_id", "j"), ("job_token", "1")]

def edgeWorker (threadId : String)
    (h : (Worker.run exampleEnv .initial none (edgeValues threadId)).isSome) : Worker exampleEnv :=
  (Worker.run exampleEnv .initial none (edgeValues threadId)).get h

/-- The first worker hashes the last nonce of the prefix and keeps it. -/
theorem protected_first_worker :
    (edgeWorker "0" (by decide +kernel)).after.searched 0 0 = some 0x00ffffff ∧
      (edgeWorker "0" (by decide +kernel)).KeepsPrefix := by
  refine ⟨by decide +kernel, ?_⟩
  refine (protected_iff_noCarry (edgeWorker "0" (by decide +kernel)) (by decide +kernel)
    ⟨24, by decide +kernel, by decide +kernel⟩ (Or.inl (by decide +kernel))).1.mpr ?_
  decide +kernel

/-- The second worker is accepted and hashes a nonce of the prefix `01`. -/
theorem protected_second_worker_leaves :
    ¬∀ w : Worker exampleEnv, w.job.dev ≠ .pearlhashGpu → w.job.PrefixMask → w.job.BlobAgrees →
      w.KeepsPrefix := by
  intro h
  have hkeeps := h (edgeWorker "1" (by decide +kernel)) (by decide +kernel)
    ⟨24, by decide +kernel, by decide +kernel⟩ (Or.inl (by decide +kernel))
  have hfirst : (edgeWorker "1" (by decide +kernel)).after.searched 0 0 = some 0x01000000 := by
    decide +kernel
  have := hkeeps.hashed 0 0 _ hfirst
  revert this
  decide +kernel

end MoMiner.Native
