import MoMiner.Pool.Adapters

/-!
# Decoding jobs

`jobFromPoolMessage` chooses the adapter of a message: the job of a login response whatever the
dialect, then the adapter of the pool's current dialect.
-/

namespace MoMiner.Pool

open MoMiner.Js

/-! ## PearlHash -/

/-- The difficulty in a job id of the form `<hex>_<difficulty>`. -/
def pearlhashDiffFromJobId (jobId : Scalar) : Option ℕ :=
  let reversed := jobId.toText.toList.reverse
  let digits := String.ofList (reversed.takeWhile Char.isDigit).reverse
  if digits ≠ "" ∧ (reversed.dropWhile Char.isDigit).head? = some '_' then
    some (decimalValue digits) |>.filter fun d => 0 < d && d ≤ maxSafeInteger
  else none

/-- A seed slot or stride: kept as it came, if it is a number or a string. -/
def pearlSeedField (params : Json) (key label : String) : Except String (Option Json) :=
  match params.get? key with
  | none => .ok none
  | some value =>
    if value.scalar?.isSome then .ok (some value) else .error ("Invalid PearlHash seed " ++ label)

def pearlProofEncodings (advertised : Option Json) : List String :=
  match advertised.bind Json.arr? with
  | some items =>
    if items.length ≤ 8 ∧ items.all Json.isString then
      ((items.filterMap Json.str?).filter fun e => e = "none" || e = "gzip").eraseDups
    else []
  | none => []

def pearlDifficulty (host : Host) (j : JobState) (params : Json) (jobId : Scalar) :
    Except String (Option ℚ) :=
  let supplied :=
    if Json.isNullish (params.get? "difficulty") then params.get? "diff"
    else params.get? "difficulty"
  match supplied with
  | none => .ok (((pearlhashDiffFromJobId jobId).map fun d => (d : ℚ)).or j.pearlhashDifficulty)
  | some value => do
    let difficulty ← positiveDifficulty host (some value) "PearlHash"
    return some difficulty

/-- The target of a PearlHash job; an absent one is the empty text. -/
def pearlTarget (raw : Option Json) : Except String String :=
  match raw with
  | none => .ok ""
  | some (.str s) => do
    let _ ← target256ToWork (stripHexMark s)
    return stripHexMark s
  | some _ => .error "Invalid PearlHash target"

def pearlHashJob (host : Host) (config : PoolConfig) (j : JobState) (params : Json)
    (messageAlgo : Option Json) : Except String (Option (PoolJob × Recorded)) :=
  match poolJobId (params.get? "job_id"), validHexBytes (params.get? "header") 76 with
  | some jobId, some header => do
    let target ← pearlTarget (params.get? "target")
    let difficulty ← pearlDifficulty host j params jobId
    let certVersion ← match params.get? "cert_version" with
      | none => pure 3
      | some version => poolHeight (some version) "PearlHash certificate version"
    throwIf (certVersion ≠ 3) "Unsupported PearlHash certificate version"
    let height ← match params.get? "height" with
      | none => pure 0
      | some height => poolHeight (some height) "PearlHash"
    let nonceSlot ← pearlSeedField params "nonce_slot" "slot"
    let nonceStride ← pearlSeedField params "nonce_stride" "stride"
    -- a subscribe pool may deliver the final threshold; otherwise the target is still to be scaled
    let final := target ≠ "" ∧ config.useSubscribe ∧ config.jackpotTarget
    return some (
      { algo := jobName host ((messageAlgo.bind Json.str?).or (params.text? "algo")) "pearlhash"
        blob := some header, jobId, height := some height, difficulty, nonceSlot, nonceStride
        target := if final then some target else none
        pearlhashBaseTarget := if target ≠ "" ∧ ¬final then some target else none },
      { proofEncodings := some (pearlProofEncodings (params.get? "proof_encodings")) })
  | _, _ => return none

/-! ## The shapes of job messages -/

/-- The parameters of a `mining.notify` that has at least so many. -/
def notifyParams (json : Json) (minimum : ℕ) : Option (List Json) :=
  if json.methodIs "mining.notify" then (json.items? "params").filter (minimum ≤ ·.length)
  else none

/-- PearlHash pools push `mining.notify` or `job` with a header in object parameters. -/
def pearlParams (json : Json) : Option Json :=
  if json.methodIs "mining.notify" || json.methodIs "job" then
    (json.object? "params").filter fun params => (params.text? "header").isSome
  else none

/-- The parameters of a generic `job` notification. -/
def jobParams (json : Json) : Option Json :=
  if json.methodIs "job" then json.object? "params" else none

def ironfishBody (json : Json) : Option Json :=
  if json.methodIs "mining.notify" then
    (json.object? "body").filter fun body => (body.text? "header").isSome
  else none

def kaspaParams (json : Json) : Option (List Json) :=
  (notifyParams json 3).filter fun p => (p[1]?.bind Json.arr?).any (4 ≤ ·.length)

def xelisParams (json : Json) : Option (List Json) :=
  (notifyParams json 5).filter fun p =>
    (p[3]?.bind Json.str?).any (normalizeAlgoName · = "xelishashv3") && p[4]?.any Json.isBool

/-- `json.id === n`. -/
def idIs (json : Json) (n : ℕ) : Bool := (json.get? "id").any (Json.isNumber n)

def cortexWork (json : Json) : Option (List Json) :=
  if idIs json 100 || idIs json 0 then (json.items? "result").filter (3 ≤ ·.length) else none

/-- `"error" in json && json.error !== null`. -/
def hasError (json : Json) : Bool := json.has "error" && !Json.isNullish (json.get? "error")

/-- The result object of a response that carries a login job. -/
def loginResult (json : Json) : Option Json :=
  if hasError json then none else (json.object? "result").filter (·.has "job")

/-! ## Choosing the adapter -/

def commitSubmitMode (mode : Option Dialect) (built : Option (PoolJob × Recorded)) :
    Option (PoolJob × Recorded) :=
  built.map fun (job, recorded) => ({ job with submitMode := mode }, recorded)

/-- A job for which nothing is recorded on the pool. -/
def plain (mode : Dialect) (job : Option PoolJob) : Option (PoolJob × Recorded) :=
  commitSubmitMode (some mode) (job.map (·, {}))

def loginJob (host : Host) (config : PoolConfig) (s : Session) (result : Json) :
    Except String (Option (PoolJob × Recorded)) :=
  match result.object? "job" with
  | none => .error "Malformed login job: expected response id 1"
  | some rawJob => do
    let messageAlgo :=
      if Json.isNullish (result.get? "algo") then rawJob.get? "algo" else result.get? "algo"
    let loginAlgo := (messageAlgo.bind Json.str?).map normalizeAlgoName
    let nativePearl := (loginAlgo = some "pearlhash" || poolProtocol host config s = .pearlhash) &&
      (rawJob.text? "header").isSome
    let built ←
      if nativePearl then pearlHashJob host config s.job rawJob messageAlgo
      else pure ((loginJobWithResultMetadata result rawJob).map (·, {}))
    match built with
    | none => .error "Malformed login job"
    | some (job, recorded) =>
      return some ({ job with submitMode := if nativePearl then some .pearlhash else none },
        { recorded with loggedIn := true })

/-- The adapters that read the array parameters of a notification. -/
def dialectJob (host : Host) (config : PoolConfig) (dialect : Dialect) (j : JobState)
    (json : Json) : Except String (Option (PoolJob × Recorded)) :=
  match dialect with
  | .raven => match notifyParams json 6 with
    | some p => return plain .raven (← ravenNotifyJob host config j json p)
    | none => return none
  | .verthash => match notifyParams json 9 with
    | some p => return plain .verthash (← verthashNotifyJob host j p)
    | none => return none
  | .eth => match notifyParams json 4 with
    | some p => return plain .eth (← ethNotifyJob host j json p)
    | none => return none
  | .conflux => match notifyParams json 4 with
    | some p => return plain .conflux (← confluxNotifyJob j p)
    | none => return none
  | .echelon => match (notifyParams json 4).filter (·.length ≤ 5) with
    | some p => return plain .echelon (← nexaNotifyJob j p)
    | none => return none
  | .erg => match notifyParams json 7 with
    | some p => return plain .erg (← ergNotifyJob host j json p)
    | none => return none
  | .zelhash => match notifyParams json 8 with
    | some p => return plain .zelhash (zelhashNotifyJob host j json p)
    | none => return none
  | .ironfish => match ironfishBody json with
    | some body => return plain .ironfish (ironfishNotifyJob host j json body)
    | none => return none
  | .kaspa | .hoosat => match kaspaParams json with
    | some p => return plain dialect (← kaspaNotifyJob host config dialect j json p)
    | none => return none
  | .xelis => match xelisParams json with
    | some p => return plain .xelis (← xelisNotifyJob j p)
    | none => return none
  | .beam =>
    if json.methodIs "job" && (json.text? "input").isSome then
      return commitSubmitMode (some .beam) (← beamNotifyJob j json)
    else return none
  | .login | .pearlhash | .cortex => return none

/-- `jobFromPoolMessage`. `random` is what `crypto.randomBytes` would draw. -/
def jobFromPoolMessage (host : Host) (config : PoolConfig) (s : Session) (random : String)
    (json : Json) : Except String (Option (PoolJob × Recorded)) :=
  let dialect := poolProtocol host config s
  match if idIs json 1 then loginResult json else none with
  | some result => loginJob host config s result
  | none =>
    if !s.loggedIn then .ok none
    else match if dialect = .cortex then cortexWork json else none with
    | some result => .ok (commitSubmitMode (some .cortex) (cortexWorkJob s.job random result))
    | none =>
      let pearl := dialect = .pearlhash ∨ s.lastJob.any (·.submitMode = some .pearlhash)
      match if pearl then pearlParams json else none with
      | some params => do
        let built ← pearlHashJob host config s.job params (json.get? "algo")
        return commitSubmitMode (some .pearlhash) built
      | none => match if dialect ≠ .pearlhash then jobParams json else none with
        | some params => match readPoolJob params with
          | some job => .ok (some (job, {}))
          | none => .error "Invalid generic pool job"
        | none => dialectJob host config dialect s.job json

end MoMiner.Pool
