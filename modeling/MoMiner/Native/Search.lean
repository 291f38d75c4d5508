import MoMiner.Lib.Progression
import MoMiner.Native.Accepted

/-!
# A search follows its progression

Every accepted mining job that starts a search prepares batch 0 of a progression, and the compute
loop goes through the batches of this progression until one does not fit: `search_follows` for
the devices that dispatch batches, `rxThread_follows` for the threads of a RandomX job.
-/

namespace MoMiner.Native

open MoMiner.Bytes

/-! ## The progression of a job -/

/-- Per-lane devices: the lanes of all workers interleave. -/
def NewJob.lanes (j : NewJob) : Progression where
  bits := j.counter.width.bits
  mask := j.counter.mask
  first := j.laneStart ||| j.reserved
  count := j.part.batch
  lane := j.part.threadNum * j.part.unit
  stride := j.part.batch * (j.part.threadNum * j.part.unit)

/-- Single-blob devices: each worker takes a run of `batch` nonces. -/
def NewJob.single (j : NewJob) : Progression where
  bits := j.counter.width.bits
  mask := j.counter.mask
  first := j.counter.nonce + j.part.threadId * j.part.batch
  count := j.part.batch
  lane := 1
  stride := j.part.threadNum * j.part.batch

/-- The external counter of C30. -/
def NewJob.cycle (j : NewJob) : Progression where
  bits := 64
  mask := j.counter.mask
  first := j.counter.nonce + j.part.threadId
  count := 1
  lane := 1
  stride := j.part.threadNum

/-- The external seed of PearlHash, which its kernels read as 32 bits. -/
def NewJob.seeds (j : NewJob) : Progression where
  bits := 32
  mask := 0
  first := j.pearlSeedStart
  count := 1
  lane := 1
  stride := j.part.threadNum * j.pearlSeedStride

/-- Thread `b` of a RandomX worker. -/
def NewJob.rxThreadNonces (j : NewJob) (b : ℕ) : Progression where
  bits := 32
  mask := j.counter.mask
  first := (j.counter.nonce + (j.part.threadId * j.part.batch + b) * j.part.unit) ||| j.reserved
  count := 1
  lane := 1
  stride := j.part.threadNum * j.part.batch * j.part.unit

/-- The progression that the compute loop follows. -/
def NewJob.nonces (j : NewJob) : Progression :=
  if j.dev = .c30Gpu then j.cycle
  else if j.dev = .pearlhashGpu then j.seeds
  else if j.dev.perLane then j.lanes
  else j.single

/-! ## The look-ahead -/

theorem Width.bits_le (w : Width) : w.bits ≤ 64 := by
  cases w <;> decide

theorem Width.pow_bytes (w : Width) : 256 ^ w.bytes = 2 ^ w.bits := by
  cases w <;> rfl

/-- The core has looked ahead from batch `k`: it holds the start of the next batch, or it is
exhausted and holds the last nonce of batch `k`. -/
def Core.Ahead (c : Core) (w : Width) (p : Progression) (k : ℕ) : Prop :=
  if p.Fits (k + 1) then c.exhausted = false ∧ c.nonce w = p.nth (k + 1) 0
  else c.exhausted = true ∧ c.nonce w = p.nth k (p.count - 1)

section frames

variable (c : Core) (w : Width) (first count lane stride mask n : ℕ)

@[simp] theorem setNonce_nonce : (c.setNonce w n).nonce w = n := by
  cases w <;> rfl

@[simp] theorem setNonce_shape : (c.setNonce w n).shape = c.shape := by
  cases w <;> rfl

@[simp] theorem setNonce_hasFn : (c.setNonce w n).hasFn = c.hasFn := by
  cases w <;> rfl

@[simp] theorem setNonce_exhausted : (c.setNonce w n).exhausted = c.exhausted := by
  cases w <;> rfl

@[simp] theorem setNonce_target : (c.setNonce w n).target = c.target := by
  cases w <;> rfl

@[simp] theorem setNonce_input : (c.setNonce w n).input = c.input := by
  cases w <;> rfl

@[simp] theorem setNonce_nonceStep : (c.setNonce w n).nonceStep = c.nonceStep := by
  cases w <;> rfl

theorem setNonce_eq : c.setNonce w n = { c.setNonce w n with exhausted := c.exhausted } := by
  cases w <;> rfl

/-- The look-ahead changes the counter and the exhaustion flag, and nothing else. -/
theorem nextNonceAfterBatch_eq :
    ∃ n e, c.nextNonceAfterBatch w first count lane stride mask =
      { c.setNonce w n with exhausted := e } := by
  unfold Core.nextNonceAfterBatch
  split
  · exact ⟨_, _, setNonce_eq c w _⟩
  · split
    · exact ⟨_, _, setNonce_eq c w _⟩
    · exact ⟨_, true, rfl⟩

@[simp] theorem nextNonceAfterBatch_shape :
    (c.nextNonceAfterBatch w first count lane stride mask).shape = c.shape := by
  obtain ⟨n, e, h⟩ := nextNonceAfterBatch_eq c w first count lane stride mask
  simp [h]

@[simp] theorem nextNonceAfterBatch_hasFn :
    (c.nextNonceAfterBatch w first count lane stride mask).hasFn = c.hasFn := by
  obtain ⟨n, e, h⟩ := nextNonceAfterBatch_eq c w first count lane stride mask
  simp [h]

@[simp] theorem nextNonceAfterBatch_target :
    (c.nextNonceAfterBatch w first count lane stride mask).target = c.target := by
  obtain ⟨n, e, h⟩ := nextNonceAfterBatch_eq c w first count lane stride mask
  simp [h]

@[simp] theorem nextNonceAfterBatch_input :
    (c.nextNonceAfterBatch w first count lane stride mask).input = c.input := by
  obtain ⟨n, e, h⟩ := nextNonceAfterBatch_eq c w first count lane stride mask
  simp [h]

@[simp] theorem nextNonceAfterBatch_nonceStep :
    (c.nextNonceAfterBatch w first count lane stride mask).nonceStep = c.nonceStep := by
  obtain ⟨n, e, h⟩ := nextNonceAfterBatch_eq c w first count lane stride mask
  simp [h]

end frames

theorem fits_succ_iff {p : Progression} {k : ℕ} (h : p.Fits k) :
    p.Fits (k + 1) ↔
      p.nth k 0 + p.stride + (p.count - 1) * p.lane < 2 ^ p.bits ∧
        p.nth k 0 &&& p.mask = (p.nth k 0 + p.stride) &&& p.mask ∧
        p.nth k 0 &&& p.mask = (p.nth k 0 + p.stride + (p.count - 1) * p.lane) &&& p.mask := by
  have hend : p.nth (k + 1) (p.count - 1) = p.nth k 0 + p.stride + (p.count - 1) * p.lane := by
    simp only [Progression.nth]
    ring
  rw [Progression.Fits, hend, Progression.nth_succ, h.2.1]

theorem nextNonceAfterBatch_ahead {p : Progression} {w : Width} {k : ℕ} {c : Core}
    (hbits : p.bits = w.bits) (hcount : 0 < p.count) (htarget : c.target ≠ 0)
    (hx : c.exhausted = false) (hfit : p.Fits k) :
    (c.nextNonceAfterBatch w (p.nth k 0) p.count p.lane p.stride p.mask).Ahead w p k := by
  have hend : p.nth k (p.count - 1) = p.nth k 0 + (p.count - 1) * p.lane := by
    simp only [Progression.nth]
    ring
  have hlast := hfit.1
  rw [hend, hbits] at hlast
  have hagree : p.nth k 0 &&& p.mask = (p.nth k 0 + (p.count - 1) * p.lane) &&& p.mask := by
    rw [← hend, ← hfit.2.1, hfit.2.2]
  have spec := @nextNonceBatch_spec _ _ _ _ p.stride _ (p.nth k 0) w.bits_le (by omega) hcount
    hlast hagree
  unfold Core.nextNonceAfterBatch Core.Ahead
  rw [if_neg htarget, spec]
  have hiff := fits_succ_iff hfit
  rw [hbits] at hiff
  by_cases hnext : p.Fits (k + 1)
  · rw [if_pos (hiff.mp hnext), if_pos hnext]
    exact ⟨by simpa using hx, by simp [Progression.nth_succ]⟩
  · rw [if_neg fun h => hnext (hiff.mpr h), if_neg hnext]
    refine ⟨rfl, ?_⟩
    rw [hend]
    exact setNonce_nonce c w _

/-! ## Per-lane devices -/

/-- The core holds batch `k` of a per-lane job. -/
structure Core.LanesAt (j : NewJob) (k : ℕ) (c : Core) : Prop where
  shape : c.shape = j.shape
  target : c.target ≠ 0
  step : c.nonceStep = j.lanes.lane
  input : c.input = (List.range j.part.batch).map fun i =>
    storeNonce j.counter.width.bytes j.input j.nonceOffset (j.lanes.nth k i) true
  ahead : c.Ahead j.counter.width j.lanes k

section

variable {j : NewJob} {c : Core} {k : ℕ}

theorem shape_width (h : c.shape = j.shape) : c.width = j.counter.width := by
  unfold Core.width
  rw [h]
  cases hw : j.counter.width <;> simp [NewJob.shape, hw, Width.bytes]

theorem lanes_step_lt (j : NewJob) : j.part.batch * j.lanes.lane < 2 ^ 32 := j.part.step_lt

/-- A blob of the job up to the bytes of its nonce. -/
def NewJob.IsBlob (j : NewJob) (blob : List UInt8) : Prop :=
  ∀ n be, storeNonce j.counter.width.bytes blob j.nonceOffset n be =
    storeNonce j.counter.width.bytes j.input j.nonceOffset n be

theorem isBlob_input (j : NewJob) : j.IsBlob j.input := fun _ _ => rfl

theorem isBlob_store (hembed : j.nonceOffset + j.counter.width.bytes ≤ j.input.length) (n : ℕ)
    (be : Bool) : j.IsBlob (storeNonce j.counter.width.bytes j.input j.nonceOffset n be) := by
  intro n' be'
  exact patch_patch (by simpa using hembed) (by simp)

theorem prepareLanes_at (hshape : c.shape = j.shape)
    (htarget : c.target ≠ 0) (hx : c.exhausted = false) (hstep : c.nonceStep = j.lanes.lane)
    (hlen : c.input.length = j.part.batch) (hblob : ∀ blob ∈ c.input, j.IsBlob blob)
    (hfit : j.lanes.Fits k) :
    (c.prepareLanes j.counter.width (j.lanes.nth k 0)).LanesAt j k := by
  have hmask : c.shape.nicehashMask % 2 ^ j.counter.width.bits = j.counter.mask := by
    rw [hshape]
    exact Nat.mod_eq_of_lt j.counter.mask_lt
  have hbatch : c.shape.batch = j.part.batch := by rw [hshape]; rfl
  have hoffset : c.shape.nonceOffset = j.nonceOffset := by rw [hshape]; rfl
  have hstride : c.shape.batch * c.nonceStep = j.lanes.stride := by rw [hbatch, hstep]; rfl
  unfold Core.prepareLanes
  rw [hmask, hstride, hbatch, hstep, hoffset]
  refine ⟨by simpa using hshape, by simpa using htarget, by simp,
    ?_, nextNonceAfterBatch_ahead rfl j.part.batch_pos htarget hx hfit⟩
  rw [nextNonceAfterBatch_input]
  apply List.ext_getElem
  · simp [hlen]
  intro i hi hi'
  have hi : i < j.part.batch := by simpa using hi'
  -- No lane nonce leaves its width, so the stored value is the one of the progression.
  have hmul : i * j.lanes.lane ≤ j.part.batch * j.lanes.lane := Nat.mul_le_mul_right _ hi.le
  have hlane : i * j.lanes.lane % 2 ^ 32 = i * j.lanes.lane :=
    Nat.mod_eq_of_lt (lt_of_le_of_lt hmul (lanes_step_lt j))
  have hvalue : (j.lanes.nth k 0 + i * j.lanes.lane % 2 ^ 32) % 2 ^ j.counter.width.bits =
      j.lanes.nth k i := by
    have hlt : j.lanes.nth k i < 2 ^ j.counter.width.bits := hfit.nth_lt hi
    rw [hlane, show j.lanes.nth k 0 + i * j.lanes.lane = j.lanes.nth k i by
      simp [Progression.nth]]
    exact Nat.mod_eq_of_lt hlt
  simp only [List.getElem_mapIdx, List.getElem_map, List.getElem_range, hvalue]
  exact hblob _ (List.getElem_mem _) _ _

theorem Core.LanesAt.isBlob (h : c.LanesAt j k)
    (hembed : j.nonceOffset + j.counter.width.bytes ≤ j.input.length) :
    ∀ blob ∈ c.input, j.IsBlob blob := by
  intro blob hb
  rw [h.input, List.mem_map] at hb
  obtain ⟨i, -, rfl⟩ := hb
  exact isBlob_store hembed _ _

theorem Core.LanesAt.advance_next (h : c.LanesAt j k)
    (hembed : j.nonceOffset + j.counter.width.bytes ≤ j.input.length)
    (hfit : j.lanes.Fits (k + 1)) :
    c.advanceLanes.LanesAt j (k + 1) ∧ c.advanceLanes.hasFn = c.hasFn := by
  have ahead := h.ahead
  rw [Core.Ahead, if_pos hfit] at ahead
  obtain ⟨hx, hn⟩ := ahead
  rw [Core.advanceLanes, if_neg (by simp [hx]), shape_width h.shape, hn]
  exact ⟨prepareLanes_at h.shape h.target hx h.step (by simp [h.input]) (h.isBlob hembed) hfit,
    by simp [Core.prepareLanes]⟩

theorem Core.LanesAt.advance_stop (h : c.LanesAt j k) (hfit : ¬j.lanes.Fits (k + 1)) :
    c.advanceLanes.hasFn = false := by
  have ahead := h.ahead
  rw [Core.Ahead, if_neg hfit] at ahead
  rw [Core.advanceLanes, if_pos ahead.1]
  rfl

theorem Core.LanesAt.hashed_eq (h : c.LanesAt j k) (hdev : j.dev.perLane = true)
    (hembed : j.nonceOffset + j.counter.width.bytes ≤ j.input.length) (hfit : j.lanes.Fits k) :
    c.hashed = (List.range j.part.batch).map (j.lanes.nth k) := by
  have hd : c.shape.dev = j.dev := by rw [h.shape]; rfl
  have hoffset : c.shape.nonceOffset = j.nonceOffset := by rw [h.shape]; rfl
  have hne : j.dev ≠ .c30Gpu ∧ j.dev ≠ .pearlhashGpu := by
    constructor <;> intro hbad <;> simp [hbad, Dev.perLane] at hdev
  unfold Core.hashed
  rw [hd, if_neg hne.1, if_neg hne.2, if_pos hdev, h.input, List.map_map]
  apply List.map_congr_left
  intro i hi
  have hlt : j.lanes.nth k i < 2 ^ j.counter.width.bits := hfit.nth_lt (List.mem_range.mp hi)
  rw [Function.comp_apply, shape_width h.shape, hoffset, loadNonce_field hembed, Width.pow_bytes]
  exact Nat.mod_eq_of_lt hlt

/-! ## Single-blob devices -/

/-- The byte order in which a single-blob device stores its nonce. -/
def NewJob.bigEndian (j : NewJob) : Bool :=
  if j.dev = .verthashGpu then false else nonceBigEndian j.algo j.input.length

/-- The core holds batch `k` of a single-blob job. -/
structure Core.SingleAt (j : NewJob) (k : ℕ) (c : Core) : Prop where
  shape : c.shape = j.shape
  target : c.target ≠ 0
  step : c.nonceStep = j.single.stride
  input : c.input =
    [storeNonce j.counter.width.bytes j.input j.nonceOffset (j.single.nth k 0) j.bigEndian]
  ahead : c.Ahead j.counter.width j.single k

theorem prepareSingle_at {blob : List UInt8} (hshape : c.shape = j.shape)
    (htarget : c.target ≠ 0) (hx : c.exhausted = false) (hstep : c.nonceStep = j.single.stride)
    (hinput : c.input = [blob]) (hblob : j.IsBlob blob) (hfit : j.single.Fits k) :
    (c.prepareSingle j.counter.width j.bigEndian (j.single.nth k 0)).SingleAt j k := by
  have hmask : c.shape.nicehashMask % 2 ^ j.counter.width.bits = j.counter.mask := by
    rw [hshape]
    exact Nat.mod_eq_of_lt j.counter.mask_lt
  have hbatch : c.shape.batch = j.part.batch := by rw [hshape]; rfl
  have hoffset : c.shape.nonceOffset = j.nonceOffset := by rw [hshape]; rfl
  unfold Core.prepareSingle
  rw [hmask, hstep, hbatch, hoffset]
  refine ⟨by simpa using hshape, by simpa using htarget, by simp, ?_,
    nextNonceAfterBatch_ahead rfl j.part.batch_pos htarget hx hfit⟩
  rw [nextNonceAfterBatch_input, hinput]
  simp [hblob _ _]

theorem Core.SingleAt.advance_next (h : c.SingleAt j k) {reportsError : Bool}
    (hembed : j.nonceOffset + j.counter.width.bytes ≤ j.input.length)
    (hfit : j.single.Fits (k + 1)) :
    (c.advanceSingle j.counter.width j.bigEndian reportsError).SingleAt j (k + 1) ∧
      (c.advanceSingle j.counter.width j.bigEndian reportsError).hasFn = c.hasFn := by
  have ahead := h.ahead
  rw [Core.Ahead, if_pos hfit] at ahead
  obtain ⟨hx, hn⟩ := ahead
  rw [Core.advanceSingle, if_neg (by simp [hx]), hn]
  exact ⟨prepareSingle_at h.shape h.target hx h.step h.input (isBlob_store hembed _ _) hfit,
    by simp [Core.prepareSingle]⟩

theorem stopExhausted_hasFn (c : Core) (w : Width) (reportsError : Bool) :
    (c.stopExhausted w reportsError).hasFn = false := by
  unfold Core.stopExhausted Core.sendLastNonce
  split_ifs <;> rfl

theorem Core.SingleAt.advance_stop (h : c.SingleAt j k) {be reportsError : Bool}
    (hfit : ¬j.single.Fits (k + 1)) :
    (c.advanceSingle j.counter.width be reportsError).hasFn = false := by
  have ahead := h.ahead
  rw [Core.Ahead, if_neg hfit] at ahead
  rw [Core.advanceSingle, if_pos ahead.1]
  exact stopExhausted_hasFn _ _ _

/-- Devices that share one blob. -/
def Dev.singleBlob (d : Dev) : Bool := !d.perLane && !d.externalNonce && d != .rxCpu

theorem Core.SingleAt.hashed_eq (h : c.SingleAt j k) (hacc : j.Accepted)
    (hdev : j.dev.singleBlob = true)
    (hembed : j.nonceOffset + j.counter.width.bytes ≤ j.input.length) (hfit : j.single.Fits k) :
    c.hashed = (List.range j.part.batch).map (j.single.nth k) := by
  have hd : c.shape.dev = j.dev := by rw [h.shape]; rfl
  have hoffset : c.shape.nonceOffset = j.nonceOffset := by rw [h.shape]; rfl
  have hbatch : c.shape.batch = j.part.batch := by rw [h.shape]; rfl
  have halgo : nonceBigEndian c.shape.algo c.shape.inputLen =
      nonceBigEndian j.algo j.input.length := by rw [h.shape]; rfl
  have hlane : j.dev.perLane = false := by
    cases hp : j.dev.perLane <;> simp_all [Dev.singleBlob]
  have hne : j.dev ≠ .c30Gpu ∧ j.dev ≠ .pearlhashGpu ∧ j.dev ≠ .rxCpu := by
    refine ⟨?_, ?_, ?_⟩ <;> intro hbad <;> simp [hbad, Dev.singleBlob, Dev.perLane,
      Dev.externalNonce] at hdev
  have hlt : j.single.nth k 0 < 2 ^ j.counter.width.bits := hfit.nth_lt j.part.batch_pos
  have hload : loadNonce j.counter.width.bytes
      ((storeNonce j.counter.width.bytes j.input j.nonceOffset (j.single.nth k 0)
        j.bigEndian).drop j.nonceOffset) j.bigEndian = j.single.nth k 0 := by
    rw [loadNonce_field hembed, Width.pow_bytes]
    exact Nat.mod_eq_of_lt hlt
  have hshift : ∀ i, j.single.nth k 0 + i = j.single.nth k i := fun i => by
    simp [Progression.nth, NewJob.single]
  unfold Core.hashed
  rw [hd, if_neg hne.1, if_neg hne.2.1, if_neg (by simp [hlane]), hbatch, hoffset, halgo, h.input]
  simp only [List.flatMap_cons, List.flatMap_nil, List.append_nil]
  by_cases hv : j.dev = .verthashGpu
  · rw [hacc.narrow (Or.inr hv), NewJob.bigEndian, if_pos hv] at hload ⊢
    rw [if_pos hv]
    simp only [Width.bytes] at hload ⊢
    simp only [hload, hshift]
  · rw [hacc.wide hlane hne.2.2 hv, NewJob.bigEndian, if_neg hv] at hload ⊢
    rw [if_neg hv]
    simp only [Width.bytes] at hload ⊢
    simp only [hload, hshift]

/-- Every single-blob device advances by the same step, up to what it reports at its end. -/
theorem advance_single (hacc : j.Accepted) (hdev : j.dev.singleBlob = true)
    (hshape : c.shape = j.shape) :
    ∃ reportsError, c.advance = c.advanceSingle j.counter.width j.bigEndian reportsError := by
  have hd : c.shape.dev = j.dev := by rw [hshape]; rfl
  have halgo : nonceBigEndian c.shape.algo c.shape.inputLen =
      nonceBigEndian j.algo j.input.length := by rw [hshape]; rfl
  unfold Core.advance NewJob.bigEndian
  rw [hd, halgo]
  cases hj : j.dev with
  | cpu | gpu | c29Gpu | rxCpu | c30Gpu | pearlhashGpu =>
    simp [hj, Dev.singleBlob, Dev.perLane, Dev.externalNonce] at hdev
  | verthashGpu => exact ⟨false, by rw [hacc.narrow (Or.inr hj)]; rfl⟩
  | kawpowGpu =>
    exact ⟨true, by
      rw [hacc.wide (by rw [hj]; rfl) (by simp [hj]) (by simp [hj]),
        hacc.littleEndian (Or.inl hj)]; rfl⟩
  | etchashGpu =>
    exact ⟨true, by
      rw [hacc.wide (by rw [hj]; rfl) (by simp [hj]) (by simp [hj]),
        hacc.littleEndian (Or.inr (Or.inl hj))]; rfl⟩
  | zelhashGpu =>
    exact ⟨false, by
      rw [hacc.wide (by rw [hj]; rfl) (by simp [hj]) (by simp [hj]),
        hacc.littleEndian (Or.inr (Or.inr hj))]; rfl⟩
  | beamhash3Gpu =>
    exact ⟨false, by
      rw [hacc.wide (by rw [hj]; rfl) (by simp [hj]) (by simp [hj]), hacc.bigEndian hj]; rfl⟩
  | autolykos2Gpu | fishhashGpu | karlsenhashv2Gpu | miscGpu =>
    exact ⟨false, by rw [hacc.wide (by rw [hj]; rfl) (by simp [hj]) (by simp [hj])]; rfl⟩

/-! ## External counters -/

/-- The core holds nonce `k` of a C30 job. -/
structure Core.CycleAt (j : NewJob) (k : ℕ) (c : Core) : Prop where
  shape : c.shape = j.shape
  target : c.target ≠ 0
  step : c.nonceStep = j.part.threadNum
  nonce : c.nonce64 = j.cycle.nth k 0

/-- The core holds seed `k` of a PearlHash job. -/
structure Core.SeedsAt (j : NewJob) (k : ℕ) (c : Core) : Prop where
  shape : c.shape = j.shape
  nonce : c.nonce64 = j.seeds.nth k 0

theorem sendLastNonce_hasFn (c : Core) (n w : ℕ) (p i t : String) :
    (c.sendLastNonce n w p i t).hasFn = c.hasFn := by
  unfold Core.sendLastNonce
  split_ifs <;> rfl

/-- The step of an external counter or of a RandomX thread stays in its progression exactly when
`nonce_overflowed` reports nothing. -/
theorem nonceOverflowed_iff {p : Progression} (hcount : p.count = 1)
    (hstride : p.stride < 2 ^ p.bits) (hfit : p.Fits k) :
    nonceOverflowed (p.nth k 0) ((p.nth k 0 + p.stride) % 2 ^ p.bits) p.mask = false ↔
      p.Fits (k + 1) := by
  have hlt := hfit.1
  rw [hcount, Nat.sub_self] at hlt
  rw [fits_succ_iff hfit, hcount]
  simp only [Nat.sub_self, Nat.zero_mul, add_zero, nonceOverflowed, Bool.or_eq_false_iff,
    decide_eq_false_iff_not, bne_eq_false_iff_eq]
  by_cases hsum : p.nth k 0 + p.stride < 2 ^ p.bits
  · rw [Nat.mod_eq_of_lt hsum]
    have : ¬p.nth k 0 + p.stride < p.nth k 0 := by omega
    simp [hsum, this]
  · have hwrap : (p.nth k 0 + p.stride) % 2 ^ p.bits = p.nth k 0 + p.stride - 2 ^ p.bits := by
      rw [Nat.mod_eq_sub_mod (by omega), Nat.mod_eq_of_lt (by omega)]
    have : p.nth k 0 + p.stride - 2 ^ p.bits < p.nth k 0 := by omega
    simp [hsum, hwrap, this]

theorem threadNum_lt (j : NewJob) : j.part.threadNum < 2 ^ 32 := by
  have h1 := Nat.mul_le_mul_left (j.part.batch * j.part.threadNum) j.part.unit_pos
  have h2 := Nat.mul_le_mul_right j.part.threadNum j.part.batch_pos
  have h3 := j.part.step_lt
  rw [← mul_assoc] at h3
  omega

theorem cycle_step_lt (j : NewJob) : j.cycle.stride < 2 ^ j.cycle.bits :=
  lt_trans (threadNum_lt j) (by decide : 2 ^ 32 < 2 ^ 64)

theorem Core.CycleAt.advance_next (h : c.CycleAt j k) (hk : j.cycle.Fits k)
    (hfit : j.cycle.Fits (k + 1)) :
    c.advanceC30.CycleAt j (k + 1) ∧ c.advanceC30.hasFn = c.hasFn := by
  have hmask : c.shape.nicehashMask = j.cycle.mask := by rw [h.shape]; rfl
  have hover := (nonceOverflowed_iff rfl (cycle_step_lt j) hk).mpr hfit
  have hlt := hfit.1
  unfold Core.advanceC30
  rw [h.nonce, h.step, hmask]
  have hnext : (j.cycle.nth k 0 + j.part.threadNum) % 2 ^ 64 = j.cycle.nth (k + 1) 0 := by
    rw [Progression.nth_succ]
    exact Nat.mod_eq_of_lt (by rwa [Progression.nth_succ] at hlt)
  have hno : ¬(c.target ≠ 0 ∧ nonceOverflowed (j.cycle.nth k 0)
      ((j.cycle.nth k 0 + j.part.threadNum) % 2 ^ 64) j.cycle.mask = true) := by
    rintro ⟨-, hbad⟩
    have : nonceOverflowed (j.cycle.nth k 0)
      ((j.cycle.nth k 0 + j.part.threadNum) % 2 ^ 64) j.cycle.mask = false := hover
    rw [this] at hbad
    cases hbad
  rw [if_neg hno, hnext]
  exact ⟨⟨h.shape, h.target, rfl, rfl⟩, rfl⟩

theorem Core.CycleAt.advance_stop (h : c.CycleAt j k) (hk : j.cycle.Fits k)
    (hfit : ¬j.cycle.Fits (k + 1)) : c.advanceC30.hasFn = false := by
  have hmask : c.shape.nicehashMask = j.cycle.mask := by rw [h.shape]; rfl
  have hover : nonceOverflowed (j.cycle.nth k 0)
      ((j.cycle.nth k 0 + j.part.threadNum) % 2 ^ 64) j.cycle.mask = true :=
    Bool.of_not_eq_false fun hf => hfit ((nonceOverflowed_iff rfl (cycle_step_lt j) hk).mp hf)
  unfold Core.advanceC30
  rw [h.nonce, h.step, hmask, if_pos ⟨h.target, hover⟩, sendLastNonce_hasFn]
  rfl

theorem seeds_fits_iff : j.seeds.Fits k ↔ j.seeds.nth k 0 < 2 ^ 32 := by
  simp [Progression.Fits, NewJob.seeds]

theorem pearl_step_pos (hacc : j.Accepted) (hdev : j.dev = .pearlhashGpu) :
    0 < j.part.threadNum * j.pearlSeedStride :=
  Nat.mul_pos (lt_of_le_of_lt (Nat.zero_le _) j.part.id_lt) (hacc.pearlSeed hdev).1

theorem Core.SeedsAt.next_seed (h : c.SeedsAt j k) (hk : j.seeds.Fits k) :
    pearlSeedNext (c.nonce64 % 2 ^ 32) (c.shape.threadNum * c.shape.pearlSeedStride) =
      pearlSeedNext (j.seeds.nth k 0) j.seeds.stride := by
  rw [h.nonce, Nat.mod_eq_of_lt (seeds_fits_iff.mp hk), h.shape]
  rfl

theorem Core.SeedsAt.advance_next (h : c.SeedsAt j k) (hacc : j.Accepted)
    (hdev : j.dev = .pearlhashGpu) (hk : j.seeds.Fits k) (hfit : j.seeds.Fits (k + 1)) :
    c.advancePearl.SeedsAt j (k + 1) ∧ c.advancePearl.hasFn = c.hasFn := by
  have hnext : pearlSeedNext (j.seeds.nth k 0) j.seeds.stride = some (j.seeds.nth (k + 1) 0) := by
    rw [pearlSeedNext_eq_some, ← Progression.nth_succ]
    exact ⟨pearl_step_pos hacc hdev, rfl, seeds_fits_iff.mp hfit⟩
  unfold Core.advancePearl
  rw [h.next_seed hk, hnext]
  exact ⟨⟨h.shape, rfl⟩, rfl⟩

theorem Core.SeedsAt.advance_stop (h : c.SeedsAt j k) (hk : j.seeds.Fits k)
    (hfit : ¬j.seeds.Fits (k + 1)) : c.advancePearl.hasFn = false := by
  have hnext : pearlSeedNext (j.seeds.nth k 0) j.seeds.stride = none := by
    rw [Option.eq_none_iff_forall_not_mem]
    intro r hr
    obtain ⟨-, -, hlt⟩ := pearlSeedNext_eq_some.mp hr
    exact hfit (seeds_fits_iff.mpr (by rwa [Progression.nth_succ]))
  unfold Core.advancePearl
  rw [h.next_seed hk, hnext]
  simp only
  split_ifs
  · rw [sendLastNonce_hasFn]
    rfl
  · rfl

/-! ## All devices of the compute loop -/

/-- The core has prepared batch `k` of the job. -/
def Core.Prepared (j : NewJob) (k : ℕ) (c : Core) : Prop :=
  if j.dev = .c30Gpu then c.CycleAt j k
  else if j.dev = .pearlhashGpu then c.SeedsAt j k
  else if j.dev.perLane then c.LanesAt j k
  else c.SingleAt j k

/-- The core is about to compute batch `k` of the job. -/
structure Core.At (j : NewJob) (k : ℕ) (c : Core) : Prop where
  hasFn : c.hasFn = true
  prepared : c.Prepared j k

/-- The four ways in which a job uses the compute loop. -/
theorem dev_cases (d : Dev) (hrx : d ≠ .rxCpu) :
    d = .c30Gpu ∨ d = .pearlhashGpu ∨ (d ≠ .c30Gpu ∧ d ≠ .pearlhashGpu ∧ d.perLane = true) ∨
      (d ≠ .c30Gpu ∧ d ≠ .pearlhashGpu ∧ d.perLane = false ∧ d.singleBlob = true) := by
  cases d <;> simp_all [Dev.perLane, Dev.singleBlob, Dev.externalNonce]

theorem embedded_of_ne (hacc : j.Accepted) (hmode : j.mode = .mine) (h1 : j.dev ≠ .c30Gpu)
    (h2 : j.dev ≠ .pearlhashGpu) : j.nonceOffset + j.counter.width.bytes ≤ j.input.length := by
  refine hacc.embedded ?_ (by simp [hmode])
  cases hd : j.dev <;> simp_all [Dev.externalNonce]

theorem advance_perLane (hshape : c.shape = j.shape) (hdev : j.dev.perLane = true) :
    c.advance = c.advanceLanes := by
  have hd : c.shape.dev = j.dev := by rw [hshape]; rfl
  unfold Core.advance
  rw [hd]
  cases hj : j.dev <;> simp [hj, Dev.perLane] at hdev ⊢

theorem Core.Prepared.shape (h : c.Prepared j k) : c.shape = j.shape := by
  unfold Core.Prepared at h
  split_ifs at h
  · exact h.shape
  · exact h.shape
  · exact h.shape
  · exact h.shape

theorem Core.Prepared.next (h : c.Prepared j k) (hacc : j.Accepted) (hmode : j.mode = .mine)
    (hrx : j.dev ≠ .rxCpu) (hk : j.nonces.Fits k) (hfit : j.nonces.Fits (k + 1)) :
    c.advance.Prepared j (k + 1) ∧ c.advance.hasFn = c.hasFn := by
  have hd : c.shape.dev = j.dev := by rw [h.shape]; rfl
  rcases dev_cases j.dev hrx with hj | hj | ⟨h1, h2, hj⟩ | ⟨h1, h2, hl, hj⟩
  · simp only [Core.Prepared, NewJob.nonces, hj, if_true] at *
    rw [Core.advance, hd]
    exact h.advance_next hk hfit
  · have hpearl := hj
    simp only [Core.Prepared, NewJob.nonces, hj, reduceCtorEq, if_false, if_true] at h hk hfit hd ⊢
    rw [Core.advance, hd]
    exact h.advance_next hacc hpearl hk hfit
  · have hemb := embedded_of_ne hacc hmode h1 h2
    simp only [Core.Prepared, NewJob.nonces, if_neg h1, if_neg h2, if_pos hj] at *
    rw [advance_perLane h.shape hj]
    exact h.advance_next hemb hfit
  · have hemb := embedded_of_ne hacc hmode h1 h2
    have hl' : ¬j.dev.perLane = true := by simp [hl]
    simp only [Core.Prepared, NewJob.nonces, if_neg h1, if_neg h2, if_neg hl'] at *
    obtain ⟨r, hr⟩ := advance_single hacc hj h.shape
    rw [hr]
    exact h.advance_next hemb hfit

theorem Core.Prepared.stop (h : c.Prepared j k) (hacc : j.Accepted) (hrx : j.dev ≠ .rxCpu)
    (hk : j.nonces.Fits k) (hfit : ¬j.nonces.Fits (k + 1)) : c.advance.hasFn = false := by
  have hd : c.shape.dev = j.dev := by rw [h.shape]; rfl
  rcases dev_cases j.dev hrx with hj | hj | ⟨h1, h2, hj⟩ | ⟨h1, h2, hl, hj⟩
  · simp only [Core.Prepared, NewJob.nonces, hj, if_true] at *
    rw [Core.advance, hd]
    exact h.advance_stop hk hfit
  · simp only [Core.Prepared, NewJob.nonces, hj, reduceCtorEq, if_false, if_true] at *
    rw [Core.advance, hd]
    exact h.advance_stop hk hfit
  · simp only [Core.Prepared, NewJob.nonces, if_neg h1, if_neg h2, if_pos hj] at *
    rw [advance_perLane h.shape hj]
    exact h.advance_stop hfit
  · have hl' : ¬j.dev.perLane = true := by simp [hl]
    simp only [Core.Prepared, NewJob.nonces, if_neg h1, if_neg h2, if_neg hl'] at *
    obtain ⟨r, hr⟩ := advance_single hacc hj h.shape
    rw [hr]
    exact h.advance_stop hfit

theorem Core.Prepared.hashed_eq (h : c.Prepared j k) (hacc : j.Accepted) (hmode : j.mode = .mine)
    (hrx : j.dev ≠ .rxCpu) (hfit : j.nonces.Fits k) :
    c.hashed = (List.range j.nonces.count).map (j.nonces.nth k) := by
  have hd : c.shape.dev = j.dev := by rw [h.shape]; rfl
  rcases dev_cases j.dev hrx with hj | hj | ⟨h1, h2, hj⟩ | ⟨h1, h2, hl, hj⟩
  · simp only [Core.Prepared, NewJob.nonces, hj, if_true] at *
    rw [Core.hashed, if_pos hd, h.nonce]
    rfl
  · simp only [Core.Prepared, NewJob.nonces, hj, reduceCtorEq, if_false, if_true] at *
    rw [Core.hashed, if_neg (by simp [hd]), if_pos hd, h.nonce,
      Nat.mod_eq_of_lt (seeds_fits_iff.mp hfit)]
    rfl
  · have hemb := embedded_of_ne hacc hmode h1 h2
    simp only [Core.Prepared, NewJob.nonces, if_neg h1, if_neg h2, if_pos hj] at *
    exact h.hashed_eq hj hemb hfit
  · have hemb := embedded_of_ne hacc hmode h1 h2
    have hl' : ¬j.dev.perLane = true := by simp [hl]
    simp only [Core.Prepared, NewJob.nonces, if_neg h1, if_neg h2, if_neg hl'] at *
    exact h.hashed_eq hacc hj hemb hfit

/-! ## Whole runs -/

theorem Core.At.next (h : c.At j k) (hacc : j.Accepted) (hmode : j.mode = .mine)
    (hrx : j.dev ≠ .rxCpu) (hk : j.nonces.Fits k) (hfit : j.nonces.Fits (k + 1)) :
    c.dispatch.At j (k + 1) := by
  obtain ⟨hprep, hfn⟩ := h.prepared.next hacc hmode hrx hk hfit
  rw [Core.dispatch, if_pos h.hasFn]
  exact ⟨hfn.trans h.hasFn, hprep⟩

theorem Core.At.stop (h : c.At j k) (hacc : j.Accepted) (hrx : j.dev ≠ .rxCpu)
    (hk : j.nonces.Fits k) (hfit : ¬j.nonces.Fits (k + 1)) : c.dispatch.hasFn = false := by
  rw [Core.dispatch, if_pos h.hasFn]
  exact h.prepared.stop hacc hrx hk hfit

theorem dispatch_idle (h : c.hasFn = false) : c.dispatch.hasFn = false := by
  rw [Core.dispatch, if_neg (by simp [h]), h]

/-- **A search follows its progression.** From a core that is about to compute batch `m`, `k`
rounds later batch `m + k` is due, or the progression is exhausted and the core is idle. -/
theorem search_follows {m : ℕ} (hacc : j.Accepted) (hmode : j.mode = .mine) (hrx : j.dev ≠ .rxCpu)
    (halive : j.nonces.Alive m) (h : c.At j m) (k : ℕ) :
    (j.nonces.Alive (m + k) → (Core.dispatch^[k] c).At j (m + k)) ∧
      (¬j.nonces.Alive (m + k) → ¬(Core.dispatch^[k] c).hasFn = true) := by
  refine Progression.follows (fun c : Core => c.hasFn = true) (fun k c => Core.At j k c)
    ⟨halive, h⟩ ?_ ?_ ?_ k
  · intro k s hk hs hnext
    exact hs.next hacc hmode hrx hk.fits hnext
  · intro k s hk hs hnext
    simp [hs.stop hacc hrx hk.fits hnext]
  · intro s hs
    simp [dispatch_idle (Bool.of_not_eq_true hs)]

/-! ## RandomX threads -/

/-- The thread is about to complete its hash number `k`. -/
structure RxThread.At (j : NewJob) (b k : ℕ) (th : RxThread) : Prop where
  running : th.exhausted = false
  nonce : th.nonce = (j.rxThreadNonces b).nth k 0
  step : th.step = (j.rxThreadNonces b).stride
  mask : th.mask = j.counter.mask

theorem rx_step_lt (j : NewJob) (b : ℕ) : (j.rxThreadNonces b).stride < 2 ^ 32 := by
  have := j.part.step_lt
  simp only [NewJob.rxThreadNonces]
  rwa [Nat.mul_comm j.part.threadNum, Nat.mul_assoc]

theorem RxThread.At.advance_eq {b : ℕ} {th : RxThread} (h : th.At j b k)
    (hk : (j.rxThreadNonces b).Fits k) :
    th.advance = if (j.rxThreadNonces b).Fits (k + 1) then
      { th with nonce := (j.rxThreadNonces b).nth (k + 1) 0 } else { th with exhausted := true } := by
  have hiff := nonceOverflowed_iff rfl (rx_step_lt j b) hk
  unfold RxThread.advance
  rw [if_neg (by simp [h.running]), h.nonce, h.step, h.mask]
  by_cases hfit : (j.rxThreadNonces b).Fits (k + 1)
  · have hno : nonceOverflowed ((j.rxThreadNonces b).nth k 0)
        (((j.rxThreadNonces b).nth k 0 + (j.rxThreadNonces b).stride) % 2 ^ 32)
        j.counter.mask = false := hiff.mpr hfit
    have hlt : (j.rxThreadNonces b).nth k 0 + (j.rxThreadNonces b).stride < 2 ^ 32 := by
      rw [← Progression.nth_succ]
      exact hfit.1
    rw [Nat.mod_eq_of_lt hlt] at hno
    rw [Progression.nth_succ, if_pos hfit]
    simp only [Nat.mod_eq_of_lt hlt, hno, Bool.false_eq_true, if_false]
  · have hyes : nonceOverflowed ((j.rxThreadNonces b).nth k 0)
        (((j.rxThreadNonces b).nth k 0 + (j.rxThreadNonces b).stride) % 2 ^ 32)
        j.counter.mask = true := Bool.of_not_eq_false fun hf => hfit (hiff.mp hf)
    simp only [hyes, if_neg hfit, if_true]

/-- **A RandomX thread follows its progression.** -/
theorem rxThread_follows {b m : ℕ} {th : RxThread} (halive : (j.rxThreadNonces b).Alive m)
    (h : th.At j b m) (k : ℕ) :
    ((j.rxThreadNonces b).Alive (m + k) → (RxThread.advance^[k] th).At j b (m + k)) ∧
      (¬(j.rxThreadNonces b).Alive (m + k) →
        ¬(RxThread.advance^[k] th).exhausted = false) := by
  refine Progression.follows (fun th : RxThread => th.exhausted = false)
    (fun k th => RxThread.At j b k th) ⟨halive, h⟩ ?_ ?_ ?_ k
  · intro k s hk hs hnext
    rw [hs.advance_eq hk.fits, if_pos hnext]
    exact ⟨hs.running, rfl, hs.step, hs.mask⟩
  · intro k s hk hs hnext
    rw [hs.advance_eq hk.fits, if_neg hnext]
    simp
  · intro s hs
    simp [RxThread.advance, hs]

end

end MoMiner.Native
