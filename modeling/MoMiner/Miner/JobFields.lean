import Mathlib.Data.Vector.Basic
import MoMiner.Miner.Assignment
import MoMiner.Miner.Autotune
import MoMiner.Miner.Environment
import MoMiner.Miner.PearlResume

/-!
# Building a job

`set_job` of `miner/jobs.js` builds the job of the workers from a pool job in two steps. `baseJob`
fixes what the job is: its algorithm, target, difficulty and, for PearlHash, the matrix shape. The
builder of the algorithm then lays out the input and the nonce. The layout is a part of its own
(`NonceLayout`), and the builders change nothing else.
-/

namespace MoMiner.Miner

open MoMiner.Bytes MoMiner.Js MoMiner.Pool

/-! ## Jobs and options -/

/-- What a job is. -/
structure BaseJob where
  algo : String
  dev : List Char
  workerId : Scalar
  jobId : Scalar
  headerHash : String
  height : ℕ
  poolId : ℕ
  backendRequest : String
  backend : String
  jobToken : Option String
  seedHex : Option String
  difficulty : Option ℚ
  pearlhashBaseTarget : Option String
  intensity : Option ℕ := none
  pearlhashN : Option ℕ := none
  pearlhashK : Option ℕ := none
  pearlhashRank : Option ℕ := none
  target : String := ""

/-- Where the nonce is in the input and which nonces are searched. -/
structure NonceLayout where
  nonce : Option Scalar := none
  noncebytes : Option ℕ := none
  blobHex : Option String := none
  nonceoffset : Option ℕ := none
  nicehashMask : Option String := none
  nonceStride : Option ℕ := none
  proofsize : Option ℕ := none
  nonce1Len : Option ℕ := none
  ntime : Option String := none
  extranonce2 : Option String := none

structure MiningJob extends BaseJob, NonceLayout

/-- What the controller learns from `compiler-policy.js`. -/
structure CompilerPolicy where
  /-- The backend that is selected for an algorithm, when a GPU is. -/
  selectedBackend : String → Except String (Option String)
  /-- The PearlHash profile of the GPU. -/
  pearlhashProfile : Except String (Option PearlShape)
  workerEnv : String → String → Except String (List (String × String))

/-- What `set_job` reads, the running job apart. -/
structure Setup where
  opt : Options
  /-- `opt.job.backend_request || opt.job.backend`. -/
  defaultRequest : String
  pools : List (PoolConfig × Session)
  /-- `opt.pool_ids.active`. -/
  active : ℕ
  policy : CompilerPolicy
  isExiting : Bool
  /-- `crypto.randomBytes`. -/
  randomBytes : (n : ℕ) → List.Vector UInt8 n

def nonceAt32Algos : List String :=
  ["kawpow", "firopow", "evrprogpow", "meowpow", "etchash", "octopus", "autolykos2", "fishhash"]

def kaspaHeaderAlgos : List String := ["karlsenhashv2", "hoohash", "walahash"]

def zelHashAlgos : List String := ["equihash192_7", "zelhash", "zhash"]

def invalid (algo what : String) : String := "Invalid " ++ algo ++ " " ++ what

section Setup

variable (s : Setup)

/-! ## Devices and backends -/

def jobDev (algo : String) : List Char :=
  match (s.opt.algoParams.lookup algo).filter (·.dev ≠ []) with
  | some param => param.dev
  | none => s.opt.jobDev

def requestedJobBackend (algo : String) : Except String String :=
  match (s.opt.algoParams.lookup algo).filter (·.backend ≠ "auto") with
  | some param => validateBackend param.backend
  | none => validateBackend s.defaultRequest

def jobBackend (algo : String) : Except String String := do
  let requested ← requestedJobBackend s algo
  if requested ≠ "auto" then return requested
  return (← s.policy.selectedBackend algo).getD "auto"

def configuredTuning (algo : String) : Tuning :=
  ((s.opt.algoParams.lookup algo).map (·.tuning)).getD Tuning.empty

/-- The matrix shape of a device list: its first entry that is not a GPU, or else its first entry,
over the configured tuning, the profile of the GPU and the defaults. -/
def pearlhashShape (dev : List Char) : Except String PearlShape := do
  let entries ← parseDeviceList dev "pearlhash"
  let baseEntry := (entries.find? fun entry => !isGpu entry.device).or entries.head?
  let entryTuning := (baseEntry.map (·.tuning)).getD Tuning.empty
  let tuning := (configuredTuning s "pearlhash").merge entryTuning
  let profile ←
    if baseEntry.any (isGpu ·.device) then s.policy.pearlhashProfile else pure none
  let m := ((tuning.int? .m).or (profile.map (·.m))).getD 131072
  return {
    m
    n := (tuning.int? .n).getD
      (if (tuning.int? .m).isSome then m else (profile.map (·.n)).getD m)
    k := ((tuning.int? .k).or (profile.map (·.k))).getD 4096
    rank := ((tuning.int? .rank).or (profile.map (·.rank))).getD 256 }

def addPearlHashJobFields (job : MiningJob) : Except String MiningJob := do
  let shape ← pearlhashShape s job.dev
  throwIf (shape.rank < 128) "PearlHash certificate version 3 requires rank >= 128"
  return { job with
    noncebytes := some 8
    intensity := some shape.m
    pearlhashN := some shape.n
    pearlhashK := some shape.k
    pearlhashRank := some shape.rank }

/-! ## Targets -/

def validDifficulty (difficulty : Option ℚ) (algo : String) : Except String ℚ :=
  match difficulty with
  | none => .error (invalid algo "job difficulty")
  | some d => if 0 < d then .ok d else .error (invalid algo "job difficulty")

/-- A full target, as 64 digits. -/
def fullTarget (target : String) : String := padStart 64 '0' (stripHexMark target)

def pearlhashJobTarget (prev : PoolJob) (job : MiningJob) : Except String String := do
  match prev.pearlhashBaseTarget.filter (· ≠ "") with
  | some base =>
    match job.pearlhashK.filter (· ≠ 0), job.pearlhashRank.filter (· ≠ 0) with
    | some k, some rank => pearlhashTarget base k rank
    | _, _ => .error "PearlHash job shape is incomplete"
  | none =>
    let explicitTarget := prev.target.getD ""
    if explicitTarget ≠ "" then return fullTarget explicitTarget
    return fullDiff2Target (← validDifficulty prev.difficulty "pearlhash") uint256Max

def jobTarget (prev : PoolJob) (algo : String) (job : MiningJob) : Except String String := do
  let explicitTarget := prev.target.getD ""
  if algo = "pearlhash" then
    pearlhashJobTarget prev job
  else if algo ∈ zelHashAlgos ∨ algo = "nexapow" then
    if explicitTarget ≠ "" then return fullTarget explicitTarget
    return fullDiff2Target (← validDifficulty prev.difficulty algo) uint256Max
  else if algo = "verthash" then
    if explicitTarget ≠ "" then return fullTarget explicitTarget
    return ethDiff2Target (← validDifficulty prev.difficulty algo) 256
  else if algo ∉ nonceAt32Algos then
    if explicitTarget ≠ "" then return explicitTarget
    let difficulty ← validDifficulty prev.difficulty algo
    throwIf (difficulty.den ≠ 1) (invalid algo "job difficulty")
    return diff2target difficulty.num.toNat
  else if 16 < jsLength (stripHexMark explicitTarget) then
    return fullTarget explicitTarget
  else
    -- a compact target of a generic job
    let difficulty ← match prev.difficulty with
      | some difficulty => pure (some difficulty)
      | none =>
        if explicitTarget = "" then pure none
        else (target2diff explicitTarget).map fun (d : ℕ) => some (d : ℚ)
    return ethDiff2Target (← validDifficulty difficulty algo) 1

def baseJob (prev : PoolJob) (algo : String) (dev : List Char) : Except String MiningJob := do
  match s.pools[s.active]? with
  | none => .error ("Unknown pool " ++ toString s.active)
  | some (config, pool) =>
    let job : MiningJob := {
      algo
      dev
      workerId := ((prev.id.map Scalar.text).or (prev.workerId.or pool.workerId)).getD
        (.text config.login)
      jobId := prev.jobId
      headerHash := prev.headerHash.getD ""
      nonce := if algo = "pearlhash" then some (.number 0) else some (prev.nonce.getD (.number 0))
      height := prev.height.getD 0
      poolId := s.active
      backendRequest := ← requestedJobBackend s algo
      backend := ← jobBackend s algo
      jobToken := prev.jobToken.bind Json.str?
      -- an empty `seed_hash` gives way to `seed_hex`, whatever that is
      seedHex := (prev.seedHash.filter (· ≠ "")).or prev.seedHex
      difficulty := prev.difficulty
      pearlhashBaseTarget := if algo = "pearlhash" then prev.pearlhashBaseTarget else none }
    let job ← if algo = "pearlhash" then addPearlHashJobFields s job else pure job
    return { job with target := ← jobTarget prev algo job }

/-! ## Layouts -/

/-- `prev_job.blob || prev_job.blob_hex`. -/
def jobBlob (prev : PoolJob) : Option String := (prev.blob.filter (· ≠ "")).or prev.blobHex

/-- `value || fallback`, for numbers. -/
def orElse (value : Option ℕ) (fallback : ℕ) : ℕ := (value.filter (· ≠ 0)).getD fallback

def addC29JobFields (job : MiningJob) (prev : PoolJob) : MiningJob :=
  let job := { job with proofsize := some (orElse prev.proofsize 42) }
  match prev.prePow.filter (· ≠ ""), prev.blob.filter (· ≠ "") with
  | some prePow, _ =>
    let noncebytes := orElse prev.noncebytes 4
    { job with
      noncebytes := some noncebytes
      blobHex := some (prePow ++ repeatChar (2 * noncebytes) '0')
      nonceoffset := some (jsLength prePow / 2) }
  | none, some blob =>
    let noncebytes := orElse prev.noncebytes 8
    { job with
      noncebytes := some noncebytes
      blobHex := some (repeatChar (2 * noncebytes) '0' ++ blob)
      nonceoffset := some 0 }
  | none, none =>
    { job with
      noncebytes := prev.noncebytes.or job.noncebytes
      blobHex := prev.blobHex.or job.blobHex
      nonceoffset := prev.nonceoffset.or job.nonceoffset }

def addC30JobFields (job : MiningJob) (prev : PoolJob) : MiningJob :=
  { job with
    proofsize := some 42
    noncebytes := some 8
    nonceoffset := some 0
    blobHex := (jobBlob prev).or job.blobHex }

def addEthHashJobFields (job : MiningJob) (prev : PoolJob) : MiningJob :=
  { job with
    noncebytes := some (orElse prev.noncebytes 8)
    nonceoffset := some (prev.nonceoffset.getD 32)
    blobHex := ((jobBlob prev).map fun blob =>
      if jsLength blob = 64 then blob ++ repeatChar 16 '0' else blob).or job.blobHex }

def addFixedNonceBlobFields (job : MiningJob) (prev : PoolJob) (defaultOffset : ℕ) : MiningJob :=
  { job with
    noncebytes := some (orElse prev.noncebytes 8)
    nonceoffset := some (prev.nonceoffset.getD defaultOffset)
    blobHex := (jobBlob prev).or job.blobHex }

def addZelHashJobFields (job : MiningJob) (prev : PoolJob) : MiningJob :=
  { addFixedNonceBlobFields job prev 108 with
    ntime := some (prev.ntime.getD "")
    nonce1Len := some (prev.nonce1Len.getD 0) }

def addVerthashJobFields (job : MiningJob) (prev : PoolJob) : MiningJob :=
  { job with
    noncebytes := some 4
    nonceoffset := some 76
    blobHex := (jobBlob prev).or job.blobHex
    extranonce2 := some (prev.extranonce2.getD "")
    ntime := some (prev.ntime.getD "") }

/-- The nonce prefix of a Beam job, when it is hexadecimal and leaves a counter. -/
def beamPrefix (prev : PoolJob) (pool : Session) : Except String String := do
  let noncePrefix := stripHexMark ((prev.xn.or pool.job.beamNonceprefix).getD "")
  throwIf (¬isHex noncePrefix ∨ jsLength noncePrefix % 2 ≠ 0 ∨ 12 < jsLength noncePrefix)
    "Invalid Beam nonce prefix"
  return noncePrefix

def addBeamhash3JobFields (job : MiningJob) (prev : PoolJob) (pool : Session) :
    Except String MiningJob := do
  let prework := firstText prev.headerHash prev.blobHex
  throwIf (¬isHex prework ∨ jsLength prework ≠ 64) "Invalid BeamHash III prework"
  let noncePrefix ← beamPrefix prev pool
  -- the first free byte is one, since a zero nonce asks the native core for a test run
  let nonce := prev.nonce.getD (.text (padEnd 16 '0' (noncePrefix ++ "01")))
  throwIf (isValidNonce nonce 8 noncePrefix true = false) "Invalid Beam nonce"
  return { job with
    noncebytes := some 8
    nonceoffset := some 32
    blobHex := some (prework ++ repeatChar 24 '0')
    nonce := some nonce
    nicehashMask := some (padEnd 16 '0' (repeatChar (jsLength noncePrefix) 'f')) }

def addStandardJobFields (job : MiningJob) (prev : PoolJob) : MiningJob :=
  { job with
    noncebytes := some (orElse prev.noncebytes (orElse job.noncebytes 4))
    blobHex := (jobBlob prev).or job.blobHex
    nonceoffset := some (prev.nonceoffset.getD (if job.algo = "ghostrider" then 76 else 39)) }

/-- The builder that `set_job` chooses for the algorithm. -/
def addAlgoJobFields (job : MiningJob) (prev : PoolJob) (pool : Session) :
    Except String MiningJob :=
  if job.algo = "c29" then return addC29JobFields job prev
  else if job.algo = "c30" then return addC30JobFields job prev
  else if job.algo = "beamhash3" then addBeamhash3JobFields job prev pool
  else if job.algo ∈ kaspaHeaderAlgos then return addFixedNonceBlobFields job prev 72
  else if job.algo ∈ zelHashAlgos then return addZelHashJobFields job prev
  else if job.algo = "verthash" then return addVerthashJobFields job prev
  else if job.algo = "xelishashv3" ∨ job.algo = "nexapow" then
    return addFixedNonceBlobFields job prev 40
  else if job.algo ∈ nonceAt32Algos then return addEthHashJobFields job prev
  else return addStandardJobFields job prev

/-! ## Nonces -/

def nonceByteCount (job : MiningJob) : Except String ℕ :=
  match job.noncebytes with
  | some 4 => .ok 4
  | some 8 => .ok 8
  | _ => .error (invalid job.algo "nonce size")

/-- Random counter bytes that leave room to advance. -/
def randomSuffix : List UInt8 → List UInt8
  | [] => []
  | b :: bs => (b &&& 0x7f) :: bs

def addNoncePrefix (job : MiningJob) (prev : PoolJob) : Except String MiningJob := do
  let noncebytes ← nonceByteCount job
  let xn := prev.xn.getD ""
  throwIf (jsLength xn % 2 ≠ 0 ∨ ¬isHex xn) "Invalid extranonce"
  let nicehashPrefix := slice 0 (2 * noncebytes) (toLowerCase xn)
  let free := noncebytes - jsLength nicehashPrefix / 2
  let suffix :=
    if job.algo = "c29" ∧ prev.nonce.isNone then randomSuffix (s.randomBytes free).toList
    else List.replicate free 0
  let nonce := prev.nonce.getD (.text (nicehashPrefix ++ String.ofList (toHex suffix)))
  throwIf (isValidNonce nonce noncebytes xn false = false) (invalid job.algo "nonce")
  return { job with
    nicehashMask := some (repeatChar (jsLength nicehashPrefix) 'f' ++ repeatChar (2 * free) '0')
    nonce := some nonce }

def defaultNicehashMask (job : MiningJob) (config : PoolConfig) (pool : Session) :
    Except String String := do
  let noncebytes ← nonceByteCount job
  let nicehash := config.isNicehash || pool.negotiatedNicehash
  if nicehash ∧ noncebytes = 4 ∧ job.algo ≠ "c29" ∧ job.algo ≠ "verthash" then return "000000ff"
  return (if nicehash then "ff" else "00") ++ repeatChar (2 * noncebytes - 2) '0'

/-- The mask of the pool job, of the running job, or the one that the layout calls for. -/
def nicehashMask (reusable : Option MiningJob) (job : MiningJob) (prev : PoolJob)
    (config : PoolConfig) (pool : Session) : Except String String :=
  match prev.nicehashMask, (reusable.bind (·.nicehashMask)).filter (· ≠ "") with
  | some mask, _ => .ok mask
  | none, some mask => .ok mask
  | none, none => defaultNicehashMask job config pool

def addNonceFields (last : Option MiningJob) (job : MiningJob) (prev : PoolJob)
    (config : PoolConfig) (pool : Session) : Except String MiningJob := do
  if prev.xn.getD "" ≠ "" then
    addNoncePrefix s job prev
  else
    let reusable := last.filter fun last => last.poolId = s.active ∧ last.algo = job.algo
    let mask ← nicehashMask reusable job prev config pool
    return { job with
      nicehashMask := some mask
      nonce := some ((prev.nonce.or (reusable.bind (·.nonce))).getD (.text "0")) }

/-- What the next seed depends on. -/
def MiningJob.lastJob (job : MiningJob) : LastJob where
  algo := job.algo
  poolId := job.poolId
  blobHex := job.blobHex.getD ""
  nonce := job.nonce
  nonceStride := job.nonceStride.map fun stride => .num (.finite stride)

def addPearlSeed (last : Option MiningJob) (job : MiningJob) (prev : PoolJob) (pool : Session) :
    Except String MiningJob := do
  let threads ← getDevThreads job.dev
  let seed ← finalizePearlSeed pool (last.map MiningJob.lastJob) prev s.active threads
    (ofBE (s.randomBytes 4).toList)
  return { job with nonce := some (.text seed.nonce), nonceStride := seed.nonceStride }

/-- The nonce stages of `set_job`: BeamHash III has laid out its own nonce, and PearlHash replaces
the nonce by a seed. -/
def addJobNonce (last : Option MiningJob) (job : MiningJob) (prev : PoolJob) (config : PoolConfig)
    (pool : Session) : Except String MiningJob :=
  if job.algo = "beamhash3" then .ok job
  else if job.algo = "pearlhash" then do
    let job ← addNonceFields s last job prev config pool
    addPearlSeed s last job prev pool
  else addNonceFields s last job prev config pool

end Setup

/-! ## What the builders establish and keep -/

variable {s : Setup} {last : Option MiningJob} {job job' : MiningJob} {prev : PoolJob}
  {config : PoolConfig} {pool : Session} {algo : String} {dev : List Char}

/-- The job has the shape. -/
structure BaseJob.HasShape (job : BaseJob) (shape : PearlShape) : Prop where
  intensity : job.intensity = some shape.m
  n : job.pearlhashN = some shape.n
  k : job.pearlhashK = some shape.k
  rank : job.pearlhashRank = some shape.rank

/-- The job has no PearlHash field. -/
structure BaseJob.Shapeless (job : BaseJob) : Prop where
  intensity : job.intensity = none
  n : job.pearlhashN = none
  k : job.pearlhashK = none
  rank : job.pearlhashRank = none
  baseTarget : job.pearlhashBaseTarget = none

/-- What a PearlHash job takes from its pool job and from the device list. -/
structure PearlBased (s : Setup) (prev : PoolJob) (dev : List Char) (job : BaseJob) : Prop where
  shape : ∃ shape, pearlhashShape s dev = .ok shape ∧ job.HasShape shape
  baseTarget : job.pearlhashBaseTarget = prev.pearlhashBaseTarget
  parsed : ∀ base ∈ prev.pearlhashBaseTarget, base ≠ "" → ∃ v, parseTarget256 base = .ok v

/-- What a job is, as far as the workers' check looks at it. -/
structure Based (s : Setup) (prev : PoolJob) (algo : String) (dev : List Char) (job : BaseJob) :
    Prop where
  pearl : algo = "pearlhash" → PearlBased s prev dev job
  other : algo ≠ "pearlhash" → job.Shapeless
  algo : job.algo = algo
  height : job.height = prev.height.getD 0
  jobToken : job.jobToken = prev.jobToken.bind Json.str?
  difficulty : job.difficulty = prev.difficulty

theorem pearlhashJobTarget_parsed {target : String} (h : pearlhashJobTarget prev job = .ok target) :
    ∀ base ∈ prev.pearlhashBaseTarget, base ≠ "" → ∃ v, parseTarget256 base = .ok v := by
  intro base hbase hne
  have hfilter : prev.pearlhashBaseTarget.filter (· ≠ "") = some base :=
    Option.filter_eq_some_iff.mpr ⟨hbase, by simpa using hne⟩
  unfold pearlhashJobTarget at h
  rw [hfilter] at h
  simp only at h
  split at h
  · simp only [pearlhashTarget, Except.bind_eq_ok] at h
    obtain ⟨_, -, v, hv, -⟩ := h
    exact ⟨v, hv⟩
  · cases h

theorem baseJob_ok (h : baseJob s prev algo dev = .ok job) :
    Based s prev algo dev job.toBaseJob ∧ job.proofsize = none ∧ job.nonce1Len = none := by
  unfold baseJob at h
  split at h
  · cases h
  · by_cases halgo : algo = "pearlhash"
    · simp only [if_pos halgo, addPearlHashJobFields, Except.bind_eq_ok] at h
      obtain ⟨request, -, backend, -, job', ⟨shape, hshape, _, -, hjob'⟩, target, htarget, h⟩ := h
      cases hjob'
      cases h
      simp only [jobTarget, if_pos halgo] at htarget
      refine ⟨?_, rfl, rfl⟩
      exact {
        algo := rfl
        height := rfl
        jobToken := rfl
        difficulty := rfl
        pearl := fun _ => ⟨⟨shape, hshape, rfl, rfl, rfl, rfl⟩, rfl, pearlhashJobTarget_parsed htarget⟩
        other := fun h => absurd halgo h }
    · simp only [if_neg halgo, Except.bind_eq_ok] at h
      obtain ⟨request, -, backend, -, job', hjob', target, -, h⟩ := h
      cases hjob'
      cases h
      refine ⟨?_, rfl, rfl⟩
      exact {
        algo := rfl
        height := rfl
        jobToken := rfl
        difficulty := rfl
        pearl := fun h => absurd h halgo
        other := fun _ => ⟨rfl, rfl, rfl, rfl, rfl⟩ }

theorem addC29JobFields_base : (addC29JobFields job prev).toBaseJob = job.toBaseJob ∧
    (addC29JobFields job prev).proofsize = some (orElse prev.proofsize 42) ∧
    (addC29JobFields job prev).nonce1Len = job.nonce1Len := by
  unfold addC29JobFields
  dsimp only
  split <;> exact ⟨rfl, rfl, rfl⟩

/-- A layout changes nothing else, and it sets the two numbers only for two families. -/
theorem addAlgoJobFields_ok (h : addAlgoJobFields job prev pool = .ok job') :
    job'.toBaseJob = job.toBaseJob ∧
    job'.proofsize =
      (if job.algo = "c29" then some (orElse prev.proofsize 42)
      else if job.algo = "c30" then some 42 else job.proofsize) ∧
    job'.nonce1Len =
      if job.algo ∈ zelHashAlgos then some (prev.nonce1Len.getD 0) else job.nonce1Len := by
  unfold addAlgoJobFields at h
  split_ifs at h with hc29 hc30 hbeam hkaspa hzel hverthash hfixed hnonce
  · cases h
    obtain ⟨hbase, hproof, hlen⟩ := @addC29JobFields_base job prev
    have hzel : job.algo ∉ zelHashAlgos := by rw [hc29]; decide
    exact ⟨hbase, by rw [hproof, if_pos hc29], by rw [hlen, if_neg hzel]⟩
  · cases h
    have hzel : job.algo ∉ zelHashAlgos := by rw [hc30]; decide
    exact ⟨rfl, by rw [if_neg hc29, if_pos hc30]; rfl, by rw [if_neg hzel]; rfl⟩
  · simp only [addBeamhash3JobFields, Except.bind_eq_ok] at h
    obtain ⟨_, -, noncePrefix, -, _, -, h⟩ := h
    cases h
    have hzel : job.algo ∉ zelHashAlgos := by rw [hbeam]; decide
    exact ⟨rfl, by rw [if_neg hc29, if_neg hc30], by rw [if_neg hzel]⟩
  · cases h
    have hzel : job.algo ∉ zelHashAlgos := by
      have hdisjoint : ∀ name ∈ kaspaHeaderAlgos, name ∉ zelHashAlgos := by decide
      exact hdisjoint _ hkaspa
    exact ⟨rfl, by rw [if_neg hc29, if_neg hc30]; rfl, by rw [if_neg hzel]; rfl⟩
  · cases h
    exact ⟨rfl, by rw [if_neg hc29, if_neg hc30]; rfl, by rw [if_pos hzel]; rfl⟩
  all_goals
    cases h
    exact ⟨rfl, by rw [if_neg hc29, if_neg hc30]; rfl, by rw [if_neg hzel]; rfl⟩

/-- What the nonce stages keep. -/
structure MiningJob.Keeps (job job' : MiningJob) : Prop where
  base : job'.toBaseJob = job.toBaseJob
  proofsize : job'.proofsize = job.proofsize
  nonce1Len : job'.nonce1Len = job.nonce1Len

theorem addNonceFields_keeps (h : addNonceFields s last job prev config pool = .ok job') :
    job.Keeps job' := by
  unfold addNonceFields at h
  split_ifs at h with hxn
  · simp only [addNoncePrefix, Except.bind_eq_ok] at h
    obtain ⟨noncebytes, -, _, -, _, -, h⟩ := h
    cases h
    exact ⟨rfl, rfl, rfl⟩
  · simp only [Except.bind_eq_ok] at h
    obtain ⟨mask, -, h⟩ := h
    cases h
    exact ⟨rfl, rfl, rfl⟩

theorem addPearlSeed_keeps (h : addPearlSeed s last job prev pool = .ok job') : job.Keeps job' := by
  simp only [addPearlSeed, Except.bind_eq_ok] at h
  obtain ⟨threads, -, seed, -, h⟩ := h
  cases h
  exact ⟨rfl, rfl, rfl⟩

theorem MiningJob.Keeps.trans {job'' : MiningJob} (h : job.Keeps job') (h' : job'.Keeps job'') :
    job.Keeps job'' :=
  ⟨h'.base.trans h.base, h'.proofsize.trans h.proofsize, h'.nonce1Len.trans h.nonce1Len⟩

theorem addJobNonce_keeps (h : addJobNonce s last job prev config pool = .ok job') :
    job.Keeps job' := by
  unfold addJobNonce at h
  split_ifs at h with hbeam hpearl
  · cases h
    exact ⟨rfl, rfl, rfl⟩
  · obtain ⟨laid, hlaid, h⟩ := Except.bind_eq_ok.mp h
    exact (addNonceFields_keeps hlaid).trans (addPearlSeed_keeps h)
  · exact addNonceFields_keeps h

end MoMiner.Miner
