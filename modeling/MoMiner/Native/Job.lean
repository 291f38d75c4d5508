import MoMiner.Lib.Fallible
import MoMiner.Native.JobBoundary

/-!
# Validation of a native job

`Core::set_job` first reads and checks every key of the message and touches no state until all
of them are accepted (`native/job/execution.inc`). This part is the function `parseJob`: the
checks of the source in the order of the source, with their messages. What it returns carries
its own well-formedness: a `Partition` of the nonce space among the workers and a `Counter` that
fits its width.
-/

namespace MoMiner.Native

open MoMiner.Bytes

/-! ## Messages, devices and modes -/

/-- The keys and values of a message. -/
abbrev MessageValues := List (String × String)

inductive Dev
  | cpu | rxCpu | gpu | c29Gpu | c30Gpu | kawpowGpu | etchashGpu | autolykos2Gpu | pearlhashGpu
  | fishhashGpu | karlsenhashv2Gpu | miscGpu | verthashGpu | zelhashGpu | beamhash3Gpu
  deriving DecidableEq, Repr

inductive JobMode
  | mine | bench | test
  deriving DecidableEq, Repr

def Dev.isNonceAt32 : Dev → Bool
  | .kawpowGpu | .etchashGpu | .autolykos2Gpu | .fishhashGpu => true
  | _ => false

def Dev.isEquihash : Dev → Bool
  | .zelhashGpu | .beamhash3Gpu => true
  | _ => false

/-- Devices whose counter lives outside the input blob. -/
def Dev.externalNonce : Dev → Bool
  | .c30Gpu | .pearlhashGpu => true
  | _ => false

/-- Devices that hash a separate copy of the blob in each lane of a batch. -/
def Dev.perLane : Dev → Bool
  | .cpu | .gpu | .c29Gpu => true
  | _ => false

/-- What the job code asks of the machine and of the vendored hash library. -/
structure Env where
  /-- Whether `CnHash::fn` has a function for an algorithm and a number of ways. -/
  cnHash : String → ℕ → Bool
  /-- `Algorithm::l3()`. -/
  l3 : String → ℕ

def maxBlobLen : ℕ := 512
def hashLen : ℕ := 32
def maxCnCpuWays : ℕ := 5

def rxCpuNames : List String :=
  ["panthera", "rx/0", "rx/2", "rx/wow", "rx/arq", "rx/graft", "rx/sfx", "rx/yada"]

def cpuNames : List String :=
  ["cn/0", "cn/1", "cn/2", "cn/r", "cn/fast", "cn/half", "cn/xao", "cn/rto", "cn/rwz", "cn/zls",
   "cn/double", "cn/ccx", "cn/upx2", "cn-pico/0", "cn-pico/tlo", "cn-lite/0", "cn-lite/1",
   "cn-heavy/0", "cn-heavy/xhv", "cn-heavy/tube", "ghostrider", "argon2/chukwa",
   "argon2/chukwav2", "argon2/wrkz"] ++ rxCpuNames

/-- The key set of the function map that a GPU device looks its algorithm up in. -/
def Dev.gpuNames : Dev → List String
  | .gpu => ["cn/gpu"]
  | .c29Gpu | .c30Gpu => ["c29", "c30"]
  | .kawpowGpu => ["kawpow", "firopow", "evrprogpow", "meowpow"]
  | .etchashGpu => ["etchash", "octopus"]
  | .autolykos2Gpu => ["autolykos2"]
  | .pearlhashGpu => ["pearlhash"]
  | .fishhashGpu => ["fishhash"]
  | .karlsenhashv2Gpu => ["karlsenhashv2"]
  | .miscGpu => ["hoohash", "walahash", "xelishashv3", "nexapow"]
  | .verthashGpu => ["verthash"]
  | .zelhashGpu => ["equihash192_7", "zelhash", "zhash"]
  | .beamhash3Gpu => ["beamhash3"]
  | .cpu | .rxCpu => []

/-- `algo2mem`, for the algorithms that pass the lookups above. -/
def algoMem (env : Env) (algo : String) : ℕ :=
  if algo = "cn/gpu" then 2 * 1024 * 1024 else if cpuNames.contains algo then env.l3 algo else 0

/-- The device class of a job, from the device name and the algorithm. -/
def selectDev (devName algo : String) : Dev :=
  if devName = "cpu" then
    if rxCpuNames.contains algo then .rxCpu else .cpu
  else match algo with
    | "kawpow" | "firopow" | "evrprogpow" | "meowpow" => .kawpowGpu
    | "etchash" | "octopus" => .etchashGpu
    | "autolykos2" => .autolykos2Gpu
    | "pearlhash" => .pearlhashGpu
    | "fishhash" => .fishhashGpu
    | "karlsenhashv2" => .karlsenhashv2Gpu
    | "hoohash" | "walahash" | "xelishashv3" | "nexapow" => .miscGpu
    | "verthash" => .verthashGpu
    | "equihash192_7" | "zelhash" | "zhash" => .zelhashGpu
    | "beamhash3" => .beamhash3Gpu
    | "c29" => .c29Gpu
    | "c30" => .c30Gpu
    | _ => .gpu

/-! ## Reading the keys -/

def parseUint (value : List Char) (base max : ℕ) (key : String) :
    Except String {n : ℕ // n ≤ max} :=
  match parseUnsigned (2 ^ 64 - 1) value base (base == 16) with
  | none => .error ("Invalid unsigned job key: " ++ key)
  | some n =>
    if h : max < n then .error ("Invalid unsigned job key: " ++ key) else .ok ⟨n, not_lt.mp h⟩

def optStr (v : MessageValues) (key : String) : String := (v.lookup key).getD ""

def optUint (v : MessageValues) (key : String) (default : ℕ) : Except String ℕ :=
  match v.lookup key with
  | none => .ok default
  | some value => do
    let n ← parseUint value.toList 10 (2 ^ 32 - 1) key
    return n.val

def optU64Hex (v : MessageValues) (key : String) : Except String {n : ℕ // n ≤ 2 ^ 64 - 1} :=
  match v.lookup key with
  | none => .ok ⟨0, Nat.zero_le _⟩
  | some value => parseUint value.toList 16 (2 ^ 64 - 1) key

/-- The matrix profile of a PearlHash job. -/
structure PearlProfile where
  n : ℕ
  k : ℕ
  rank : ℕ
  certVersion : ℕ
  deriving DecidableEq, Repr

/-- The keys of a job message after parsing, before any check of their meaning. -/
structure Fields where
  dev : String
  algo : String
  inputHex : String
  seedHex : String
  backend : String
  height : ℕ
  threadId : ℕ
  threadNum : ℕ
  nonceBytes : ℕ
  nonceOffset : ℕ
  c29ProofSize : ℕ
  pearl : PearlProfile
  nonce : {n : ℕ // n ≤ 2 ^ 64 - 1}
  nicehashMask : {n : ℕ // n ≤ 2 ^ 64 - 1}

def required (v : MessageValues) (key : String) : Except String String :=
  match v.lookup key with
  | none => .error ("Missing " ++ key ++ " job key")
  | some value => .ok value

def parseFields (v : MessageValues) : Except String Fields := do
  let dev ← required v "dev"
  let algo ← required v "algo"
  let inputHex ← required v "blob_hex"
  let height ← optUint v "height" 0
  let threadId ← optUint v "thread_id" 0
  let threadNum ← optUint v "thread_num" 1
  let nonceBytes ← optUint v "noncebytes" 4
  let nonceOffset ← optUint v "nonceoffset" 39
  let c29ProofSize ← optUint v "proofsize" 32
  let n ← optUint v "pearlhash_n" 131072
  let k ← optUint v "pearlhash_k" 4096
  let rank ← optUint v "pearlhash_rank" 256
  let certVersion ← optUint v "pearlhash_cert_version" 3
  let nonce ← optU64Hex v "nonce"
  let nicehashMask ← optU64Hex v "nicehash_mask"
  return {
    dev, algo, inputHex, height, threadId, threadNum, nonceBytes, nonceOffset, c29ProofSize,
    nonce, nicehashMask
    seedHex := optStr v "seed_hex"
    backend := if optStr v "backend" = "" then "auto" else optStr v "backend"
    pearl := { n, k, rank, certVersion } }

/-- The device name and the batch size. A GPU takes its batch from the `intensity` key, a CPU
from the text after the star. -/
def parseDev (v : MessageValues) (dev : String) : Except String (String × ℕ) := do
  let hasBatch := dev.toList.contains '*'
  let split := if hasBatch then splitOnce dev.toList '*' else some (dev.toList, [])
  match split with
  | none => .error "Invalid dev specification"
  | some (name, batchText) =>
    throwIf (name = []) "Invalid dev specification"
    let isGpu := "gpu".toList.isPrefixOf name
    throwIf (isGpu = true ∧ hasBatch = true)
      "GPU intensity must use the explicit job intensity field"
    if isGpu then
      let batch ← optUint v "intensity" 1
      return (String.ofList name, batch)
    else if hasBatch then
      let batch ← parseUint batchText 10 (2 ^ 32 - 1) "dev batch"
      return (String.ofList name, batch.val)
    else return (String.ofList name, 1)

/-! ## The partition and the counter -/

/-- The share of one worker in the nonce space: worker `threadId` of `threadNum`, a batch of
`batch` nonces that lie `unit` apart. The step of a round fits 32 bits. -/
structure Partition where
  threadId : ℕ
  threadNum : ℕ
  batch : ℕ
  unit : ℕ
  unit_pos : 0 < unit
  batch_pos : 0 < batch
  id_lt : threadId < threadNum
  step_lt : batch * (threadNum * unit) < 2 ^ 32

theorem step_lt_of_le_div {batch threadNum unit : ℕ} (ht : 0 < threadNum) (hu : 0 < unit)
    (h : batch ≤ (2 ^ 32 - 1) / threadNum / unit) : batch * (threadNum * unit) < 2 ^ 32 := by
  rw [Nat.div_div_eq_div_mul] at h
  have := (Nat.le_div_iff_mul_le (Nat.mul_pos ht hu)).mp h
  omega

def checkPartition (threadId threadNum batch unit : ℕ) (hu : 0 < unit) :
    Except String Partition :=
  if hb : batch = 0 then .error "Batch size must be positive"
  else if ht : threadNum = 0 ∨ threadNum ≤ threadId then
    .error "Invalid worker thread index/count"
  else if hs : (2 ^ 32 - 1) / threadNum / unit < batch then
    .error "Worker nonce step is too large"
  else .ok {
    threadId, threadNum, batch, unit
    unit_pos := hu
    batch_pos := Nat.pos_of_ne_zero hb
    id_lt := by omega
    step_lt := step_lt_of_le_div (by omega) hu (not_lt.mp hs) }

theorem checkPartition_ok {threadId threadNum batch unit : ℕ} {hu : 0 < unit} {p : Partition}
    (h : checkPartition threadId threadNum batch unit hu = .ok p) :
    p.threadId = threadId ∧ p.threadNum = threadNum ∧ p.batch = batch ∧ p.unit = unit := by
  unfold checkPartition at h
  split_ifs at h
  cases h
  exact ⟨rfl, rfl, rfl, rfl⟩

inductive Width
  | four | eight
  deriving DecidableEq, Repr

def Width.bytes : Width → ℕ
  | .four => 4
  | .eight => 8

def Width.bits (w : Width) : ℕ := 8 * w.bytes

/-- A counter of 4 or 8 bytes with its base nonce and its protected bits. -/
structure Counter where
  width : Width
  nonce : ℕ
  mask : ℕ
  nonce_lt : nonce < 2 ^ width.bits
  mask_lt : mask < 2 ^ width.bits

def checkCounter (nonceBytes : ℕ) (nonce mask : {n : ℕ // n ≤ 2 ^ 64 - 1}) :
    Except String Counter :=
  if nonceBytes = 8 then .ok {
    width := .eight, nonce := nonce, mask := mask
    nonce_lt := Nat.lt_of_le_pred (by decide) nonce.property
    mask_lt := Nat.lt_of_le_pred (by decide) mask.property }
  else if h : nonce.val ≤ 2 ^ 32 - 1 ∧ mask.val ≤ 2 ^ 32 - 1 then .ok {
    width := .four, nonce := nonce, mask := mask
    nonce_lt := Nat.lt_of_le_pred (by decide) h.1
    mask_lt := Nat.lt_of_le_pred (by decide) h.2 }
  else .error "Nonce and mask must fit the configured 4-byte width"

/-- NiceHash reserves the last physical byte of a 4-byte nonce, so generic counters that are
stored big-endian advance by 256 there. -/
def nonceUnit (nonceBytes mask : ℕ) (dev : Dev) : ℕ :=
  if nonceBytes = 4 ∧ mask = 0xff ∧ (dev = .cpu ∨ dev = .rxCpu ∨ dev = .gpu) then 256 else 1

theorem nonceUnit_pos (nonceBytes mask : ℕ) (dev : Dev) : 0 < nonceUnit nonceBytes mask dev := by
  unfold nonceUnit
  split_ifs <;> decide

theorem low_byte_lt {n b w : ℕ} (hn : n < 2 ^ w) (hw : 8 ≤ w) : n / 256 * 256 + b % 256 < 2 ^ w := by
  have : 2 ^ w = 2 ^ (w - 8) * 256 := by
    rw [show (256 : ℕ) = 2 ^ 8 by rfl, ← pow_add, Nat.sub_add_cancel hw]
  omega

theorem Width.eight_le_bits (w : Width) : 8 ≤ w.bits := by
  cases w <;> decide

/-- `(new_nonce & ~0xff) | (blob_nonce & 0xff)`. -/
def Counter.withLowByte (c : Counter) (blobNonce : ℕ) : Counter where
  width := c.width
  nonce := c.nonce / 256 * 256 + blobNonce % 256
  mask := c.mask
  nonce_lt := low_byte_lt c.nonce_lt c.width.eight_le_bits
  mask_lt := c.mask_lt

/-! ## The checks -/

def checkSolvers (dev : Dev) (batch proofSize : ℕ) (backend : String) : Except String Unit := do
  throwIf ((dev = .c29Gpu ∨ dev = .c30Gpu) ∧ batch ≠ 1) "Cycle solvers require batch size 1"
  throwIf ((dev = .zelhashGpu ∨ dev = .beamhash3Gpu) ∧ batch ≠ 1)
    "Single-header solvers require intensity 1"
  throwIf (dev = .c29Gpu ∧ proofSize ≠ 32 ∧ proofSize ≠ 42) "c29 requires proof size 32 or 42"
  throwIf (dev = .c30Gpu ∧ proofSize ≠ 42) "c30 requires proof size 42"
  throwIf (¬["auto", "sycl", "sycl-opencl", "sycl-l0", "sycl-native", "native"].contains backend)
    "Invalid GPU backend"

def checkPearlProfile (dev : Dev) (mode : JobMode) (backend : String) (batch : ℕ)
    (p : PearlProfile) : Except String Unit := do
  if dev = .pearlhashGpu then
    throwIf (p.certVersion ≠ 3) "Unsupported pearlhash certificate version"
    let m := if mode = .test then (if backend = "native" then 2048 else 256)
      else if 128 ≤ batch then batch else 131072
    let n := if mode = .test then m else p.n
    throwIf (validPearlhashShape m n p.k p.rank = false) "Invalid pearlhash M/N/K/rank profile"
    throwIf (p.rank < 128) "PearlHash certificate V3 requires rank >= 128"

def parsePearlStride (v : MessageValues) : Except String ℕ :=
  match v.lookup "nonce_stride" with
  | none => .ok 1
  | some text => do
    let stride ← parseUint text.toList 10 (2 ^ 32 - 1) "nonce_stride"
    throwIf (stride.val = 0 ∨ stride.val &&& (stride.val - 1) ≠ 0)
      "PearlHash nonce stride must be a positive power of two"
    return stride.val

/-- The seed stride and the first seed of a PearlHash worker; other devices use none. -/
def parsePearlSeed (v : MessageValues) (dev : Dev) (f : Fields) : Except String (ℕ × ℕ) := do
  if dev = .pearlhashGpu then
    let stride ← parsePearlStride v
    throwIf (2 ^ 32 - 1 < f.nonce.val) "PearlHash seed slot exceeds uint32_t"
    match pearlSeedStart f.nonce f.threadId f.threadNum stride with
    | none => .error "PearlHash seed partition overflows uint32_t"
    | some start => return (stride, start)
  else return (1, 0)

def checkNonceLayout (dev : Dev) (algo : String) (nonceBytes nonceOffset : ℕ) :
    Except String Unit := do
  throwIf (dev = .rxCpu ∧ nonceBytes ≠ 4) "RandomX requires a 4-byte nonce"
  throwIf (dev.isNonceAt32 = true ∧ dev ≠ .fishhashGpu ∧ (nonceBytes ≠ 8 ∨ nonceOffset ≠ 32))
    (algo ++ " requires an 8-byte nonce at offset 32")
  throwIf (dev = .miscGpu ∧ algo ≠ "nexapow" ∧
      (nonceBytes ≠ 8 ∨ nonceOffset ≠ if algo = "xelishashv3" then 40 else 72))
    (algo ++ " requires an 8-byte nonce at offset " ++
      if algo = "xelishashv3" then "40" else "72")
  throwIf (dev = .verthashGpu ∧ (nonceBytes ≠ 4 ∨ nonceOffset ≠ 76))
    "verthash requires a 4-byte nonce at offset 76"
  throwIf (dev = .zelhashGpu ∧ (nonceBytes ≠ 8 ∨ nonceOffset < 108 ∨ 132 < nonceOffset))
    (algo ++ " requires an 8-byte counter inside its 32-byte nonce")
  throwIf (dev = .beamhash3Gpu ∧ (nonceBytes ≠ 8 ∨ nonceOffset ≠ 32))
    "beamhash3 requires an 8-byte nonce at offset 32"

/-- The function lookup of each device, with the seed and batch checks made beside it. -/
def checkFunction (env : Env) (dev : Dev) (algo seedHex : String) (batch : ℕ) :
    Except String Unit :=
  match dev with
  | .cpu => do
    throwIf (¬cpuNames.contains algo) "Unsupported algo"
    if algo = "ghostrider" then throwIf (batch ≠ 8) "Bad CPU batch"
    else
      throwIf (maxCnCpuWays < batch) "Bad CPU batch"
      throwIf (env.cnHash algo batch = false) "Unsupported CPU algorithm/batch combination"
  | .rxCpu => do
    throwIf (seedHex = "") "No seed_hex job key"
    throwIf (seedHex.toList.length % 2 = 1 ∨ maxBlobLen * 2 < seedHex.toList.length)
      "Bad seed length"
    throwIf (ofHex seedHex.toList = none) "Bad seed hex"
    throwIf (¬rxCpuNames.contains algo) "Unsupported algo"
  | .etchashGpu => do
    throwIf (seedHex ≠ "" ∧ seedHex.toList.length ≠ hashLen * 2) "Bad seed length"
    throwIf (seedHex ≠ "" ∧ ofHex seedHex.toList = none) "Bad seed hex"
    throwIf (¬dev.gpuNames.contains algo) "Unsupported algo"
  | _ => throwIf (¬dev.gpuNames.contains algo) "Unsupported algo"

/-- The smallest input of a device, and whether a longer one is refused. -/
def minInputLen (dev : Dev) (algo : String) : ℕ :=
  match dev with
  | .pearlhashGpu => 76
  | .karlsenhashv2Gpu => 80
  | .miscGpu => if algo = "xelishashv3" then 112 else if algo = "nexapow" then 40 else 80
  | .verthashGpu => 80
  | .zelhashGpu => 140
  | .beamhash3Gpu => 44
  | dev => if dev.isNonceAt32 then 40 else 0

def exactInputLen (dev : Dev) (algo : String) : Bool :=
  algo == "xelishashv3" || dev == .pearlhashGpu || dev == .miscGpu || dev == .verthashGpu ||
    dev == .zelhashGpu

def badInputLen (dev : Dev) (algo : String) (nonceBytes nonceOffset inputLen : ℕ) : Bool :=
  if algo = "nexapow" then nonceBytes != 8 || !validNexapowLayout inputLen nonceOffset
  else if dev = .beamhash3Gpu then !validBeamhash3Input inputLen
  else if exactInputLen dev algo then inputLen != minInputLen dev algo
  else decide (inputLen < minInputLen dev algo)

def parseInput (inputHex : String) : Except String (List UInt8) := do
  throwIf (inputHex.toList.length % 2 = 1 ∨ maxBlobLen < inputHex.toList.length / 2)
    "Bad input length"
  match ofHex inputHex.toList with
  | none => .error "Bad input hex"
  | some input => return input

/-- Test jobs of these devices hash arbitrary bytes and never touch an embedded nonce. -/
def testSkipsNonce : Dev → Bool
  | .cpu | .rxCpu | .gpu | .c29Gpu => true
  | _ => false

def checkInput (v : MessageValues) (mode : JobMode) (dev : Dev) (algo : String)
    (nonceBytes nonceOffset inputLen : ℕ) : Except String Unit := do
  throwIf (dev = .c30Gpu ∧ ¬(inputLen = 32 ∧ nonceBytes = 8 ∧ nonceOffset = 0) ∧
      ¬(mode = .test ∧ inputLen = 40 ∧ nonceBytes = 8 ∧ nonceOffset = 32))
    ("c30 requires a canonical 32-byte search header with an 8-byte nonce at offset 0; " ++
      "only test mode accepts the 40-byte header-plus-nonce vector at offset 32")
  throwIf (badInputLen dev algo nonceBytes nonceOffset inputLen = true)
    ("Bad " ++ algo ++ " input length")
  throwIf (dev = .gpu ∧ validCnGpuInput inputLen = false) "cn/gpu input must be 1 to 135 bytes"
  throwIf (dev = .fishhashGpu ∧
      (nonceBytes ≠ 8 ∨ validFishhashLayout inputLen nonceOffset = false))
    ("fishhash requires a 40-byte header with nonce at offset 32 or a 180-byte header with " ++
      "nonce at offset 172")
  throwIf (dev = .karlsenhashv2Gpu ∧
      (nonceBytes ≠ 8 ∨ validKarlsenhashv2Layout inputLen nonceOffset = false))
    "karlsenhashv2 requires an 80-byte header with nonce at offset 72"
  throwIf (dev.externalNonce = false ∧
      (mode ≠ .test ∨ testSkipsNonce dev = false ∨ (v.lookup "nonceoffset").isSome = true) ∧
      (inputLen < nonceOffset ∨ inputLen - nonceOffset < nonceBytes))
    "Nonce falls outside input blob"

/-- The threads of a RandomX worker must all have a first nonce. -/
def checkRxStart (dev : Dev) (mode : JobMode) (p : Partition) (nonce : ℕ) : Except String Unit :=
  if dev = .rxCpu ∧ mode ≠ .test then
    match nonceWithOffset 32 nonce (p.threadId * p.batch) p.unit 0 with
    | none => .error "Initial RandomX worker nonce overflows"
    | some first =>
      throwIf (nonceWithOffset 32 first (p.batch - 1) p.unit 0 = none)
        "Initial RandomX worker nonce overflows"
  else .ok ()

/-- A job with the reserved low byte takes that byte from the blob. -/
def mergeLowByte (unit : ℕ) (mode : JobMode) (counter : Counter) (blobNonce : ℕ) : Counter :=
  if unit = 256 ∧ mode ≠ .test then counter.withLowByte blobNonce else counter

/-! ## The accepted job -/

/-- The members of the core that `same_job_shape` compares. -/
structure Shape where
  batch : ℕ
  memSize : ℕ
  seedHex : String
  algo : String
  dev : Dev
  devStr : String
  height : ℕ
  nonceBytes : ℕ
  nonceOffset : ℕ
  c29ProofSize : ℕ
  inputLen : ℕ
  nicehashMask : ℕ
  threadId : ℕ
  threadNum : ℕ
  pearlSeedStart : ℕ
  pearlSeedStride : ℕ
  backend : String
  pearl : PearlProfile
  deriving DecidableEq, Repr

/-- A job that passed every check. -/
structure NewJob where
  mode : JobMode
  dev : Dev
  devStr : String
  algo : String
  seedHex : String
  backend : String
  height : ℕ
  nonceOffset : ℕ
  c29ProofSize : ℕ
  memSize : ℕ
  pearl : PearlProfile
  pearlSeedStart : ℕ
  pearlSeedStride : ℕ
  part : Partition
  counter : Counter
  inputHex : String
  input : List UInt8

def NewJob.shape (j : NewJob) : Shape where
  batch := j.part.batch
  memSize := j.memSize
  seedHex := j.seedHex
  algo := j.algo
  dev := j.dev
  devStr := j.devStr
  height := j.height
  nonceBytes := j.counter.width.bytes
  nonceOffset := j.nonceOffset
  c29ProofSize := j.c29ProofSize
  inputLen := j.input.length
  nicehashMask := j.counter.mask
  threadId := j.part.threadId
  threadNum := j.part.threadNum
  pearlSeedStart := j.pearlSeedStart
  pearlSeedStride := j.pearlSeedStride
  backend := j.backend
  pearl := j.pearl

/-- Whether the job sets a search nonce: test jobs do not. -/
def NewJob.setsNonce (j : NewJob) : Bool := j.mode != .test

def NewJob.noncePrefix (j : NewJob) : ℕ := j.counter.nonce &&& j.counter.mask

/-- The nonce that the pool left in the blob, read as the generic paths store it. -/
def NewJob.blobNonce (j : NewJob) : ℕ :=
  loadNonce j.counter.width.bytes (j.input.drop j.nonceOffset) true

/-- The validation part of `Core::set_job`. -/
def parseJob (env : Env) (mode : JobMode) (v : MessageValues) : Except String NewJob := do
  let f ← parseFields v
  let (devStr, batch) ← parseDev v f.dev
  let dev := selectDev devStr f.algo
  let (stride, start) ← parsePearlSeed v dev f
  let unit := nonceUnit f.nonceBytes f.nicehashMask dev
  let part ← checkPartition f.threadId f.threadNum batch unit (nonceUnit_pos _ _ _)
  checkSolvers dev batch f.c29ProofSize f.backend
  checkPearlProfile dev mode f.backend batch f.pearl
  throwIf (f.nonceBytes ≠ 4 ∧ f.nonceBytes ≠ 8) "Only support 4 or 8 bytes long nonces"
  throwIf (dev = .pearlhashGpu ∧ f.nonceBytes ≠ 8) "pearlhash requires an 8-byte external seed"
  let counter ← checkCounter f.nonceBytes f.nonce f.nicehashMask
  checkNonceLayout dev f.algo f.nonceBytes f.nonceOffset
  checkFunction env dev f.algo f.seedHex batch
  let input ← parseInput f.inputHex
  checkInput v mode dev f.algo f.nonceBytes f.nonceOffset input.length
  let counter := mergeLowByte unit mode counter (loadNonce 4 (input.drop f.nonceOffset) true)
  checkRxStart dev mode part counter.nonce
  return {
    mode, dev, devStr, part, counter, input
    algo := f.algo
    seedHex := f.seedHex
    backend := f.backend
    height := f.height
    nonceOffset := f.nonceOffset
    c29ProofSize := f.c29ProofSize
    memSize := algoMem env f.algo
    pearl := f.pearl
    pearlSeedStart := start
    pearlSeedStride := stride
    inputHex := f.inputHex }

end MoMiner.Native
