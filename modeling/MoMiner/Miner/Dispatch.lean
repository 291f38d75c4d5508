import MoMiner.Miner.JobFields

/-!
# Sending a job to the workers

`set_job` validates the job that it built, recreates the workers when the algorithm or the devices
change, replaces the last job and sends the new one. `messageWorkers` checks every command once more
(`isWorkerCommand` of `helper.js`) and throws when the check fails. By then the call has acted.

* What the second check asks beyond the first is about numbers that no builder looks at and about
  the matrix shape of PearlHash.
* The shape is merged from several sources, and only its parts have been validated.
-/

namespace MoMiner.Miner

open MoMiner.Bytes MoMiner.Js MoMiner.Pool

/-! ## Validation of a built job -/

def maxMiningBlobHexChars : ℕ := 64 * 1024 * 2

/-- One to `most` hexadecimal digits. -/
def isHexOf (most : ℕ) (s : String) : Bool := s ≠ "" && isHex s && jsLength s ≤ most

def validateMiningBlob (job : MiningJob) : Except String Unit := do
  let blob := job.blobHex.getD ""
  throwIf (blob = "" ∨ maxMiningBlobHexChars < jsLength blob ∨ jsLength blob % 2 ≠ 0 ∨ ¬isHex blob)
    (invalid job.algo "job blob")
  let noncebytes ← nonceByteCount job
  throwIf (job.nonce.any fun nonce => !isValidNonce nonce noncebytes "" false)
    (invalid job.algo "nonce")
  throwIf (job.nicehashMask.any fun mask => !isHexOf (2 * noncebytes) mask)
    (invalid job.algo "nonce mask")
  throwIf (!job.nonceoffset.any fun offset =>
      offset ≤ maxSafeInteger ∧ offset + noncebytes ≤ jsLength blob / 2)
    (invalid job.algo "nonce offset")

/-- `/^[0-9a-f]{1,64}$/i`, after an optional `0x`. -/
def isTarget (target : String) : Bool := isHexOf 64 (stripHexMark target)

/-- A string or a safe integer. -/
def validId : Scalar → Bool
  | .text _ => true
  | .number n => n.safe?.isSome

def validateLiveMiningJob (job : MiningJob) : Except String Unit := do
  validateMiningBlob job
  throwIf (isTarget job.target = false) (invalid job.algo "target")
  throwIf (job.jobToken.getD "" = "") (invalid job.algo "job token")
  throwIf (validId job.jobId = false) (invalid job.algo "job_id")
  throwIf (maxSafeInteger < job.poolId) (invalid job.algo "pool_id")
  throwIf (validId job.workerId = false) (invalid job.algo "worker_id")

/-! ## The check of a command -/

inductive WorkerCommand
  | close
  | job (job : MiningJob)

def isUnsignedField (n : ℕ) : Bool := n ≤ maxSafeInteger

def isPositiveField (n : ℕ) : Bool := 0 < n && n ≤ maxSafeInteger

/-- A hexadecimal text of at most 16 digits or a safe natural number. -/
def isNonceField : Scalar → Bool
  | .text s => isHexOf 16 s
  | .number n => n.safeNat?.isSome

/-- The part of `isNativeJob` for PearlHash. -/
def isPearlJob (job : MiningJob) : Bool :=
  job.pearlhashBaseTarget.all isTarget &&
  (!([job.pearlhashN, job.pearlhashK, job.pearlhashRank].any Option.isSome ||
      job.pearlhashBaseTarget.isSome) ||
    match job.intensity, job.pearlhashN, job.pearlhashK, job.pearlhashRank with
    | some m, some n, some k, some rank =>
      (validatePearlHashShape (.num (.finite m)) (.num (.finite n)) (.num (.finite k))
        (.num (.finite rank)) "PearlHash shape").isOk
    | _, _, _, _ => false)

def isNativeJob (job : MiningJob) : Bool :=
  (job.blobHex.any fun blob => blob ≠ "" && isHex blob && jsLength blob % 2 = 0) &&
  job.difficulty.all (0 < ·) &&
  isUnsignedField job.height &&
  [job.nonce1Len, job.nonceoffset].all (Option.all isUnsignedField) &&
  [job.intensity, job.noncebytes, job.pearlhashK, job.pearlhashN, job.pearlhashRank,
    job.proofsize].all (Option.all isPositiveField) &&
  (job.algo ≠ "pearlhash" || isPearlJob job) &&
  job.nonce.all isNonceField &&
  job.nicehashMask.all (isHexOf 16) &&
  validId job.jobId && isUnsignedField job.poolId && validId job.workerId

def isWorkerCommand : WorkerCommand → Bool
  | .close => true
  | .job job => isNativeJob job && isTarget job.target && job.jobToken.getD "" ≠ ""

/-! ## Dispatch -/

/-- The controller and its workers. -/
structure Live where
  lastJob : Option MiningJob
  /-- `worker_generation`. -/
  generation : ℕ
  /-- The commands sent to each generation of workers. -/
  sent : List (ℕ × WorkerCommand)
  liveJobToken : ℕ
  /-- The last job has a token that was given out. -/
  given : ∀ job ∈ lastJob, ∃ n ≤ liveJobToken, job.jobToken = some (toString n)

def messageWorkers (c : Live) (msg : WorkerCommand) : Except String Live :=
  if isWorkerCommand msg then .ok { c with sent := c.sent ++ [(c.generation, msg)] }
  else .error "Invalid worker command"

section Setup

variable (s : Setup)

/-- The environment of a worker: the policy's, and the tuning that is written out in it. -/
def workerRuntimeEnv (algo : String) (devEntry : List Char) :
    Except String (List (String × String) × Tuning) := do
  let env ← s.policy.workerEnv algo (← requestedJobBackend s algo)
  let parsedEntry ← parseDeviceEntry devEntry algo
  let entryTuning : Tuning := fun f =>
    if parsedEntry.device = ['c', 'p', 'u'] ∧ f = .intensity then none else parsedEntry.tuning f
  let tuning ← validateTuning algo ((configuredTuning s algo).merge entryTuning).toJson
    (algo ++ " tuning")
  return (env, tuning)

/-- The environments come first, so that an invalid one leaves the workers alone. -/
def recreateThreads (c : Live) (algo : String) (dev : List Char) : Except String Live := do
  let devs ← workerDevs dev
  let _environments ← devs.mapM (workerRuntimeEnv s algo)
  let c ← messageWorkers c .close
  return { c with generation := c.generation + 1 }

def ensureWorkersForJob (c : Live) (algo : String) (dev : List Char) : Except String Live :=
  if c.lastJob.any fun last => last.algo = algo ∧ last.dev = dev then .ok c
  else recreateThreads s c algo dev

def jobAlgo (prev : PoolJob) : Option String :=
  Miner.normalizeAlgoName (firstName [prev.algo, s.opt.jobAlgo])

/-- The job that `set_job` builds for an algorithm, once it is validated. -/
def nativeJob (last : Option MiningJob) (prev : PoolJob) (algo : String) :
    Except String MiningJob := do
  match s.pools[s.active]? with
  | none => .error ("Unknown pool " ++ toString s.active)
  | some (config, pool) =>
    let job ← baseJob s prev algo (jobDev s algo)
    let job ← addAlgoJobFields job prev pool
    let job ← addJobNonce s last job prev config pool
    validateLiveMiningJob job
    return job

end Setup

/-! ## What validation establishes -/

variable {s : Setup} {last : Option MiningJob} {job : MiningJob} {prev : PoolJob} {algo : String}

theorem isHexOf_mono {least most : ℕ} {text : String} (h : isHexOf least text = true)
    (hle : least ≤ most) : isHexOf most text = true := by
  simp only [isHexOf, ne_eq, Bool.and_eq_true, decide_eq_true_eq] at h ⊢
  exact ⟨h.1, h.2.trans hle⟩

theorem isNonceField_of_isValidNonce {nonce : Scalar} {noncebytes : ℕ} {noncePrefix : String}
    {nonzero : Bool} (h : isValidNonce nonce noncebytes noncePrefix nonzero = true) :
    isNonceField nonce = true := by
  unfold isValidNonce at h
  cases nonce with
  | number n =>
    cases hn : n.safeNat? with
    | none => simp [nonceDigits, hn] at h
    | some v => simp [isNonceField, hn]
  | text digits =>
    simp only [nonceDigits, Bool.and_eq_true, Bool.or_eq_true, decide_eq_true_eq] at h
    obtain ⟨⟨⟨⟨⟨hwidth, hne⟩, hhex⟩, hlength⟩, -⟩, -⟩ := h
    have hlength' : jsLength digits ≤ 16 := by omega
    simp [isNonceField, isHexOf, hne, hhex, hlength']

/-- The conditions of the workers' check that validation establishes. -/
structure Validated (job : MiningJob) : Prop where
  blob : (job.blobHex.any fun blob => blob ≠ "" && isHex blob && jsLength blob % 2 = 0) = true
  noncebytes : job.noncebytes.all isPositiveField = true
  nonce : job.nonce.all isNonceField = true
  mask : job.nicehashMask.all (isHexOf 16) = true
  offset : job.nonceoffset.all isUnsignedField = true
  target : isTarget job.target = true
  jobToken : job.jobToken.getD "" ≠ ""
  jobId : validId job.jobId = true
  poolId : isUnsignedField job.poolId = true
  workerId : validId job.workerId = true

theorem nonceByteCount_ok {n : ℕ} (h : nonceByteCount job = .ok n) :
    job.noncebytes = some n ∧ (n = 4 ∨ n = 8) := by
  unfold nonceByteCount at h
  split at h
  · next h4 =>
    cases h
    exact ⟨h4, .inl rfl⟩
  · next h8 =>
    cases h
    exact ⟨h8, .inr rfl⟩
  · cases h

theorem validateLiveMiningJob_ok (h : validateLiveMiningJob job = .ok ()) : Validated job := by
  simp only [validateLiveMiningJob, validateMiningBlob, Except.bind_eq_ok, throwIf_eq_ok] at h
  obtain ⟨_, ⟨_, hblob, n, hn, _, hnonce, _, hmask, hoffset⟩, _, htarget, _, htoken, _, hjobId, _,
    hpool, hworker⟩ := h
  obtain ⟨hbytes, hwidth⟩ := nonceByteCount_ok hn
  have hmax : 8 ≤ maxSafeInteger := by decide
  simp only [not_or, not_lt, ne_eq, not_not] at hblob
  obtain ⟨hne, -, heven, hhex⟩ := hblob
  exact {
    blob := by
      cases hb : job.blobHex with
      | none => simp [hb] at hne
      | some blob =>
        rw [hb] at hne heven hhex
        simpa [and_assoc] using ⟨hne, hhex, heven⟩
    noncebytes := by
      rw [hbytes]
      simp only [Option.all_some, isPositiveField, Bool.and_eq_true, decide_eq_true_eq]
      omega
    nonce := by
      cases hb : job.nonce with
      | none => rfl
      | some nonce =>
        rw [hb] at hnonce
        exact isNonceField_of_isValidNonce (by simpa using hnonce)
    mask := by
      cases hb : job.nicehashMask with
      | none => rfl
      | some mask =>
        rw [hb] at hmask
        exact isHexOf_mono (by simpa using hmask) (by omega)
    offset := by
      cases hb : job.nonceoffset with
      | none => rfl
      | some offset =>
        rw [hb] at hoffset
        simp only [Option.any_some, Bool.not_eq_true', decide_eq_false_iff_not, not_not] at hoffset
        simpa [isUnsignedField] using hoffset.1
    target := by simpa using htarget
    jobToken := htoken
    jobId := by simpa using hjobId
    poolId := by simpa [isUnsignedField] using hpool
    workerId := by simpa using hworker }

/-- A job that `set_job` built and validated. -/
structure Built (s : Setup) (prev : PoolJob) (algo : String) (job : MiningJob) : Prop where
  based : Based s prev algo (jobDev s algo) job.toBaseJob
  proofsize : job.proofsize =
    if algo = "c29" then some (orElse prev.proofsize 42)
    else if algo = "c30" then some 42 else none
  nonce1Len : job.nonce1Len =
    if algo ∈ zelHashAlgos then some (prev.nonce1Len.getD 0) else none
  valid : Validated job

theorem nativeJob_ok (h : nativeJob s last prev algo = .ok job) : Built s prev algo job := by
  unfold nativeJob at h
  split at h
  · cases h
  · next config pool _ =>
    simp only [Except.bind_eq_ok] at h
    obtain ⟨base, hbase, laid, hlaid, job', hjob', _, hvalid, h⟩ := h
    cases h
    obtain ⟨hbased, hproof, hlen⟩ := baseJob_ok hbase
    obtain ⟨hlaidBase, hlaidProof, hlaidLen⟩ := addAlgoJobFields_ok hlaid
    have hkeeps := addJobNonce_keeps hjob'
    rw [hproof, hbased.algo] at hlaidProof
    rw [hlen, hbased.algo] at hlaidLen
    exact {
      based := by rwa [hkeeps.base, hlaidBase]
      proofsize := hkeeps.proofsize.trans hlaidProof
      nonce1Len := hkeeps.nonce1Len.trans hlaidLen
      valid := validateLiveMiningJob_ok hvalid }

/-! ## The second check -/

/-- The dimensions of a valid shape are positive. -/
theorem ValidShape.positive {m n k rank : ℕ} (h : ValidShape m n k rank) :
    ∀ v ∈ [m, k, n, rank], isPositiveField v = true := by
  obtain ⟨hrows, hcolumns, hdepth, hpower, -⟩ := h
  have hmax : 2 ^ 24 ≤ maxSafeInteger := by decide
  intro v hv
  simp only [isPositiveField, Bool.and_eq_true, decide_eq_true_eq]
  simp only [List.mem_cons, List.not_mem_nil, or_false] at hv
  omega

theorem Built.jobToken {token : String}
    (h : Built s { prev with jobToken := some (.str token) } algo job) :
    job.jobToken = some token := h.based.jobToken

/-- Give out the next token. -/
def Live.giveToken (c : Live) : Live where
  lastJob := c.lastJob
  generation := c.generation
  sent := c.sent
  liveJobToken := c.liveJobToken + 1
  given := fun job hjob =>
    let ⟨n, hn, htoken⟩ := c.given job hjob
    ⟨n, hn.trans (Nat.le_succ _), htoken⟩

/-- `setLastJob`, for a job with the latest token. -/
def Live.setLastJob (c : Live) (job : MiningJob)
    (h : job.jobToken = some (toString c.liveJobToken)) : Live where
  lastJob := some job
  generation := c.generation
  sent := c.sent
  liveJobToken := c.liveJobToken
  given := fun job' hjob' => ⟨c.liveJobToken, le_rfl, by cases hjob'; exact h⟩

theorem messageWorkers_ok {c c' : Live} {msg : WorkerCommand} (h : messageWorkers c msg = .ok c') :
    c'.lastJob = c.lastJob ∧ c'.liveJobToken = c.liveJobToken := by
  unfold messageWorkers at h
  split_ifs at h
  cases h
  exact ⟨rfl, rfl⟩

theorem ensureWorkersForJob_ok {c c' : Live} {dev : List Char}
    (h : ensureWorkersForJob s c algo dev = .ok c') :
    c'.lastJob = c.lastJob ∧ c'.liveJobToken = c.liveJobToken := by
  unfold ensureWorkersForJob at h
  split_ifs at h
  · cases h
    exact ⟨rfl, rfl⟩
  · simp only [recreateThreads, Except.bind_eq_ok] at h
    obtain ⟨devs, -, environments, -, c₁, hclose, h⟩ := h
    cases h
    exact ⟨(messageWorkers_ok hclose).1, (messageWorkers_ok hclose).2⟩

/-- The pool job with the token of this call. -/
def marked (c : Live) (prev : PoolJob) : PoolJob :=
  { prev with jobToken := some (.str (toString (c.liveJobToken + 1))) }

section Setup

variable (s)

/-- The result of the call, or the text of the error it throws, and the state it leaves. -/
def setJob (c : Live) (prev : PoolJob) : Except String MiningJob × Live :=
  match jobAlgo s prev with
  | none => (.error "Pool job has no algorithm", c)
  | some algo =>
    match hjob : nativeJob s c.lastJob (marked c prev) algo with
    | .error e => (.error e, c.giveToken)
    | .ok job =>
      -- notifications still arrive while the closed workers are draining
      if s.isExiting then (.ok job, c.giveToken)
      else
        match hworkers : ensureWorkersForJob s c.giveToken algo (jobDev s algo) with
        | .error e => (.error e, c.giveToken)
        | .ok c₁ =>
          let c₂ := c₁.setLastJob job
            ((nativeJob_ok hjob).jobToken.trans (by rw [(ensureWorkersForJob_ok hworkers).2]; rfl))
          match messageWorkers c₂ (.job job) with
          | .error e => (.error e, c₂)
          | .ok c₃ => (.ok job, c₃)

end Setup

end MoMiner.Miner
