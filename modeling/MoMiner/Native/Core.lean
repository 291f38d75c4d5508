import MoMiner.Native.Job

/-!
# The state of the native core

`Core` holds the members of the native worker that a search depends on. `setJob` is
`Core::set_job` after validation: it decides between refreshing the metadata of the running search
and starting a new one, and it returns the state also when it throws. `dispatch` is one round of
`Core::Execute` after the compute function returned; `hashed` is what that function was given.
-/

namespace MoMiner.Native

open MoMiner.Bytes

/-! ## State -/

/-- A message to the controller. -/
inductive Sent
  | lastNonce (nonce poolId jobId jobToken : String)
  | error (message : String)
  deriving DecidableEq, Repr

/-- A RandomX thread of the current job: it completes the hash of `nonce`, then moves on by
`step`. The ids are captured when the thread is created. -/
structure RxThread where
  nonce : ℕ
  step : ℕ
  mask : ℕ
  exhausted : Bool
  isMining : Bool
  poolId : String
  jobId : String
  jobToken : String
  deriving DecidableEq, Repr

structure Core where
  shape : Shape
  jobMode : JobMode
  inputHex : String
  noncePrefix : ℕ
  hasFn : Bool
  exhausted : Bool
  nonceStep : ℕ
  nonce32 : ℕ
  nonce64 : ℕ
  target : ℕ
  poolId : String
  workerId : String
  jobId : String
  jobToken : String
  headerHash : String
  /-- The blob of each lane; a single blob for the devices that share one header. -/
  input : List (List UInt8)
  rxThreads : List RxThread
  toNode : List Sent
  deriving DecidableEq, Repr

/-- The core as its constructor leaves it. -/
def Core.initial : Core where
  shape := {
    batch := 0, memSize := 0, seedHex := "", algo := "", dev := .cpu, devStr := "", height := 0
    nonceBytes := 4, nonceOffset := 39, c29ProofSize := 32, inputLen := 0, nicehashMask := 0
    threadId := 0, threadNum := 1, pearlSeedStart := 0, pearlSeedStride := 1, backend := ""
    pearl := { n := 131072, k := 4096, rank := 256, certVersion := 3 } }
  jobMode := .mine
  inputHex := ""
  noncePrefix := 0
  hasFn := false
  exhausted := false
  nonceStep := 1
  nonce32 := 0
  nonce64 := 0
  target := 0
  poolId := ""
  workerId := ""
  jobId := ""
  jobToken := ""
  headerHash := ""
  input := []
  rxThreads := []
  toNode := []

/-- What a call leaves behind: the state, with the message if it threw. -/
inductive Outcome
  | done (core : Core)
  | threw (message : String) (core : Core)
  deriving DecidableEq, Repr

def Core.width (c : Core) : Width := if c.shape.nonceBytes = 4 then .four else .eight

def Core.nonce (c : Core) : Width → ℕ
  | .four => c.nonce32
  | .eight => c.nonce64

def Core.setNonce (c : Core) : Width → ℕ → Core
  | .four, n => { c with nonce32 := n }
  | .eight, n => { c with nonce64 := n }

/-- Clear the counter of the width that is not in use. -/
def Core.clearOther (c : Core) : Width → Core
  | .four => { c with nonce64 := 0 }
  | .eight => { c with nonce32 := 0 }

def Core.send (c : Core) (message : Sent) : Core := { c with toNode := c.toNode ++ [message] }

def nonceToHex (nonce nonceBytes : ℕ) : String :=
  if nonceBytes = 4 then String.ofList (hexFixed 8 (nonce % 2 ^ 32))
  else String.ofList (hexFixed 16 nonce)

def Core.sendLastNonce (c : Core) (nonce nonceBytes : ℕ) (poolId jobId jobToken : String) :
    Core :=
  if poolId = "" ∨ jobToken = "" then c
  else c.send (.lastNonce (nonceToHex nonce nonceBytes) poolId jobId jobToken)

/-- `last_nonce()`: the next batch start, or the final nonce of the prepared batch once the
search is exhausted. RandomX threads report for themselves. -/
def Core.lastNonce (c : Core) : ℕ :=
  if c.shape.dev = .rxCpu then 0
  else if c.shape.nonceBytes = 4 ∧ c.shape.dev ≠ .pearlhashGpu then c.nonce32 else c.nonce64

def Core.setFn (c : Core) : Core := { c with hasFn := true }

def Core.clearFn (c : Core) : Core := { c with hasFn := false }

def Core.clearMiningState (c : Core) : Core :=
  { c with target := 0, poolId := "", workerId := "", jobId := "", jobToken := "",
           headerHash := "" }

/-- A thread that leaves its loop reports its position, unless it ran out of nonces. -/
def RxThread.stop (c : Core) (th : RxThread) : Core :=
  if th.isMining ∧ ¬th.exhausted then
    c.sendLastNonce th.nonce 4 th.poolId th.jobId th.jobToken
  else c

def Core.stopRxThreads (c : Core) : Core :=
  { c.rxThreads.foldl RxThread.stop c with rxThreads := [] }

/-! ## Preparing a batch -/

/-- `next_nonce_after_batch`: the look-ahead that either finds room for the whole next batch or
marks the search exhausted. -/
def Core.nextNonceAfterBatch (c : Core) (w : Width) (first count laneStride batchStride : ℕ)
    (mask : ℕ) : Core :=
  if c.target = 0 then c.setNonce w ((first + batchStride % 2 ^ w.bits) % 2 ^ w.bits)
  else
    match nextNonceBatch w.bits first count laneStride batchStride mask first with
    | .next nonce => c.setNonce w nonce
    | .exhausted last => { c.setNonce w last with exhausted := true }

/-- Store the lane nonces of a batch that starts at `first` and look ahead. -/
def Core.prepareLanes (c : Core) (w : Width) (first : ℕ) : Core :=
  let input := c.input.mapIdx fun i blob =>
    storeNonce w.bytes blob c.shape.nonceOffset
      ((first + i * c.nonceStep % 2 ^ 32) % 2 ^ w.bits) true
  { c with input }.nextNonceAfterBatch w first c.shape.batch c.nonceStep
    (c.shape.batch * c.nonceStep) (c.shape.nicehashMask % 2 ^ w.bits)

/-- Store the start of a batch in the only blob and look ahead. -/
def Core.prepareSingle (c : Core) (w : Width) (bigEndian : Bool) (first : ℕ) : Core :=
  let input := c.input.map fun blob =>
    storeNonce w.bytes blob c.shape.nonceOffset first bigEndian
  { c with input }.nextNonceAfterBatch w first c.shape.batch 1 c.nonceStep
    (c.shape.nicehashMask % 2 ^ w.bits)

/-! ## Starting a search -/

/-- C30 and PearlHash keep their counters outside the blob. -/
def Core.startExternal (c : Core) (j : NewJob) : Outcome :=
  let c := { c with input := [j.input], nonceStep := j.part.threadNum }
  if j.dev = .pearlhashGpu then
    .done { c with nonce64 := if j.setsNonce then j.pearlSeedStart else 0, nonce32 := 0 }.setFn
  else
    let start := if j.setsNonce then (j.counter.nonce + j.part.threadId) % 2 ^ 64 else 0
    if c.target ≠ 0 ∧ j.setsNonce = true ∧
        nonceWithOffset 64 j.counter.nonce j.part.threadId 1 j.counter.mask = none then
      .threw "Initial worker nonce overflows" { c with nonce64 := start }
    else .done { c with nonce64 := start, nonce32 := 0 }.setFn

/-- The single-blob devices: Verthash with a 4-byte counter, the others with 8 bytes. -/
def Core.startSingle (c : Core) (j : NewJob) (w : Width) (bigEndian : Bool) : Outcome :=
  let c := { c with input := [j.input], nonceStep := j.part.threadNum * j.part.batch % 2 ^ 32 }
  let c := c.setNonce w 0
  if j.setsNonce then
    let mask := j.counter.mask % 2 ^ w.bits
    let base := j.counter.nonce % 2 ^ w.bits
    let first := (base + j.part.threadId * j.part.batch) % 2 ^ w.bits
    if c.target ≠ 0 ∧ (nonceWithOffset w.bits base j.part.threadId j.part.batch mask = none ∨
        nonceWithOffset w.bits first (j.part.batch - 1) 1 mask = none) then
      .threw "Initial worker nonce range overflows" c
    else .done ((c.prepareSingle w bigEndian first).clearOther w).setFn
  else .done (c.clearOther w).setFn

/-- The distance between the first nonces of two workers; only 4-byte counters have a unit. -/
def NewJob.laneUnit (j : NewJob) : ℕ :=
  match j.counter.width with
  | .four => j.part.unit
  | .eight => 1

/-- The first nonce of a worker before the reserved bits of the blob are merged. -/
def NewJob.laneStart (j : NewJob) : ℕ :=
  (j.counter.nonce + j.part.threadId * j.laneUnit) % 2 ^ j.counter.width.bits

/-- The bits that the pool fixed in the blob under the mask. -/
def NewJob.reserved (j : NewJob) : ℕ :=
  if j.counter.mask ≠ 0 then j.blobNonce &&& j.counter.mask else 0

/-- The devices with a copy of the blob for each lane. -/
def Core.startLanes (c : Core) (j : NewJob) : Outcome :=
  let w := j.counter.width
  let c := { c with
    nonceStep := j.part.threadNum * j.part.unit % 2 ^ 32
    input := List.replicate j.part.batch j.input
    nonce32 := 0
    nonce64 := 0 }
  if j.setsNonce then
    if c.target ≠ 0 ∧ nonceWithOffset w.bits j.counter.nonce j.part.threadId j.laneUnit 0 = none then
      .threw "Initial worker nonce overflows" (c.setNonce w j.laneStart)
    else
      let first := j.laneStart ||| j.reserved
      if c.target ≠ 0 ∧
          nonceWithOffset w.bits first (j.part.batch - 1) c.nonceStep j.counter.mask = none then
        .threw "Initial worker nonce range overflows" (c.setNonce w first)
      else .done (c.prepareLanes w first).setFn
  else .done c.setFn

/-- The threads of a RandomX job; `batchId` numbers them within the worker. -/
def NewJob.rxThread (j : NewJob) (c : Core) (batchId : ℕ) : RxThread where
  nonce := (j.counter.nonce + (j.part.threadId * j.part.batch + batchId) * j.part.unit) % 2 ^ 32 |||
    j.reserved
  step := j.part.threadNum * j.part.batch * j.part.unit % 2 ^ 32
  mask := j.counter.mask % 2 ^ 32
  exhausted := false
  isMining := j.mode == .mine
  poolId := c.poolId
  jobId := c.jobId
  jobToken := c.jobToken

/-- RandomX threads search; a test job hashes its input once and leaves no thread behind. -/
def Core.startRx (c : Core) (j : NewJob) : Outcome :=
  .done { c with
    nonce32 := 0
    nonce64 := 0
    rxThreads := if j.setsNonce then (List.range j.part.batch).map (j.rxThread c) else [] }

def Core.startSearch (c : Core) (j : NewJob) : Outcome :=
  if j.dev = .rxCpu then c.startRx j
  else if j.dev.externalNonce then c.startExternal j
  else if j.dev = .verthashGpu then c.startSingle j .four false
  else if j.dev.perLane then c.startLanes j
  else c.startSingle j .eight (nonceBigEndian j.algo j.input.length)

def Core.sameJobShape (c : Core) (noSameInput : Bool) (j : NewJob) : Bool :=
  noSameInput && c.jobMode == j.mode && c.shape == j.shape

def Core.sameComputeInput (c : Core) (noSameInput : Bool) (j : NewJob) : Bool :=
  c.sameJobShape noSameInput j && (j.dev == .rxCpu || c.hasFn) && c.inputHex == j.inputHex &&
    c.noncePrefix == j.noncePrefix

def Core.needsMemory (c : Core) (j : NewJob) : Bool :=
  c.shape.batch != j.part.batch || c.shape.memSize != j.memSize || c.shape.seedHex != j.seedHex ||
    c.shape.algo != j.algo || c.shape.dev != j.dev

/-- `Core::set_job` on an accepted job. `memory` is the error of the allocation block, if it has
one, and `extra` the setup that the caller runs before the search starts. -/
def Core.setAccepted (c : Core) (noSameInput : Bool) (memory : Option String) (extra : Core → Core)
    (j : NewJob) : Outcome :=
  let same := c.sameComputeInput noSameInput j
  let c := if c.shape.dev = .rxCpu then c.stopRxThreads else c
  let clear (c : Core) : Core := if j.mode = .mine then c else c.clearMiningState
  if same = true ∧ j.dev ≠ .rxCpu then
    -- The same work under a new target or job id: the running search goes on.
    .done (extra (clear { c with jobMode := j.mode }))
  else
    let cleared := c.clearFn
    match if cleared.needsMemory j then memory else none with
    | some message =>
      .threw message
        { cleared with shape := { cleared.shape with batch := j.part.batch, algo := "" } }
    | none =>
      let c := { cleared with
        shape := j.shape
        inputHex := j.inputHex
        noncePrefix := j.noncePrefix
        jobMode := j.mode }
      { extra (clear c) with exhausted := false }.startSearch j

def Core.setJob (env : Env) (mode : JobMode) (noSameInput : Bool) (memory : Option String)
    (v : MessageValues) (extra : Core → Core) (c : Core) : Outcome :=
  match parseJob env mode v with
  | .error message => .threw message c
  | .ok j => c.setAccepted noSameInput memory extra j

/-! ## One round of the compute loop -/

/-- The nonces given to the compute function in this state. A single-blob function searches the
batch that starts at the stored nonce. -/
def Core.hashed (c : Core) : List ℕ :=
  if c.shape.dev = .c30Gpu then [c.nonce64]
  else if c.shape.dev = .pearlhashGpu then [c.nonce64 % 2 ^ 32]
  else if c.shape.dev.perLane then
    c.input.map fun blob =>
      loadNonce c.width.bytes (blob.drop c.shape.nonceOffset) true
  else if c.shape.dev = .verthashGpu then
    c.input.flatMap fun blob =>
      (List.range c.shape.batch).map fun i =>
        loadNonce 4 (blob.drop c.shape.nonceOffset) false + i
  else
    c.input.flatMap fun blob =>
      (List.range c.shape.batch).map fun i =>
        loadNonce 8 (blob.drop c.shape.nonceOffset)
          (nonceBigEndian c.shape.algo c.shape.inputLen) + i

/-- What follows a dispatch when the look-ahead found no room: some devices report the error,
others the last nonce. -/
def Core.stopExhausted (c : Core) (w : Width) (reportsError : Bool) : Core :=
  if reportsError then (c.send (.error "Nonce overflow")).clearFn
  else c.clearFn.sendLastNonce (c.nonce w) w.bytes c.poolId c.jobId c.jobToken

def Core.advanceSingle (c : Core) (w : Width) (bigEndian reportsError : Bool) : Core :=
  if c.exhausted then c.stopExhausted w reportsError
  else c.prepareSingle w bigEndian (c.nonce w)

def Core.advanceLanes (c : Core) : Core :=
  if c.exhausted then c.stopExhausted c.width true else c.prepareLanes c.width (c.nonce c.width)

def Core.advancePearl (c : Core) : Core :=
  match pearlSeedNext (c.nonce64 % 2 ^ 32) (c.shape.threadNum * c.shape.pearlSeedStride) with
  | some next => { c with nonce64 := next }
  | none =>
    if c.target ≠ 0 then c.clearFn.sendLastNonce c.nonce64 8 c.poolId c.jobId c.jobToken
    else c.clearFn

def Core.advanceC30 (c : Core) : Core :=
  let next := (c.nonce64 + c.nonceStep) % 2 ^ 64
  if c.target ≠ 0 ∧ nonceOverflowed c.nonce64 next c.shape.nicehashMask = true then
    { c with nonce64 := next }.clearFn.sendLastNonce c.nonce64 8 c.poolId c.jobId c.jobToken
  else { c with nonce64 := next }

/-- The nonce part of a round of `Core::Execute` outside test mode. -/
def Core.advance (c : Core) : Core :=
  match c.shape.dev with
  | .kawpowGpu | .etchashGpu => c.advanceSingle .eight false true
  | .autolykos2Gpu | .fishhashGpu | .karlsenhashv2Gpu | .miscGpu =>
    c.advanceSingle .eight (nonceBigEndian c.shape.algo c.shape.inputLen) false
  | .verthashGpu => c.advanceSingle .four false false
  | .zelhashGpu => c.advanceSingle .eight false false
  | .beamhash3Gpu => c.advanceSingle .eight true false
  | .pearlhashGpu => c.advancePearl
  | .c30Gpu => c.advanceC30
  | .cpu | .gpu | .c29Gpu => c.advanceLanes
  | .rxCpu => c

/-- A round of the compute loop: nothing runs without a compute function. -/
def Core.dispatch (c : Core) : Core := if c.hasFn then c.advance else c

/-- One completed hash of a RandomX thread: it moves on, or it ends. -/
def RxThread.advance (th : RxThread) : RxThread :=
  if th.exhausted then th
  else
    let next := (th.nonce + th.step) % 2 ^ 32
    if nonceOverflowed th.nonce next th.mask then { th with exhausted := true }
    else { th with nonce := next }

/-- Thread `batchId` of the core completes a hash; it reports when it runs out of nonces. -/
def Core.rxAdvance (c : Core) (batchId : ℕ) : Core :=
  match c.rxThreads[batchId]? with
  | none => c
  | some th =>
    let c' := { c with rxThreads := c.rxThreads.set batchId th.advance }
    if th.advance.exhausted ∧ ¬th.exhausted then c'.send (.error "Nonce overflow") else c'

end MoMiner.Native
