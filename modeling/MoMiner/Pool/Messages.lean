import MoMiner.Pool.Decode

/-!
# Messages from a pool

`pool_message` handles one message on the session of its connection. Its outcome is a `Reply`:
the new session, what was written back, how a share response was classified, and the job that
was decoded. An error means that the connection is dropped, so no session survives it.

A job announced before the login completes is held back and handled when the login does, so
`pool_message` calls itself; it does so on job announcements only, and on those it never does
again. `poolMessageWith` is the function with that call as a parameter.
-/

namespace MoMiner.Pool

open MoMiner.Js

/-- What handling one message leads to. -/
structure Reply where
  session : Session
  /-- The messages written to the pool. -/
  sent : List Json := []
  /-- A share response: accepted or rejected. -/
  share : Option Bool := none
  /-- The job that was decoded, as `handlePoolJob` receives it. -/
  job : Option PoolJob := none

/-! ## Writing to the pool -/

def request (id : Json) (method : String) (params : Json) : Json :=
  .obj [("jsonrpc", .str "2.0"), ("id", id), ("method", .str method), ("params", params)]

/-- A message that `pool_write` counts as a share submission. -/
def isSubmission (json : Json) : Bool :=
  idIs json 3 && (json.methodIs "mining.submit" || json.methodIs "submit")

section

variable (host : Host) (config : PoolConfig) (s : Session)

/-- `pool_write` arms the keepalive timer for the dialects that use it. -/
def keepaliveArmed : Bool :=
  (config.isKeepalive || s.negotiatedKeepalive) && !usesMiningSubscribe host config s &&
  !pearlhashUsesSubscribe host config s && poolProtocol host config s ≠ .ironfish &&
  poolProtocol host config s ≠ .cortex

/-- `pool_write`, on a session whose socket is open. -/
def Session.write (json : Json) : Session :=
  { s with
    pendingSubmitCount :=
      if isSubmission json then s.pendingSubmitCount + 1 else s.pendingSubmitCount
    keepalive := s.keepalive || keepaliveArmed host config s }

/-- `pool_write`: nothing is sent to a closed socket. -/
def poolWrite (json : Json) : Reply :=
  if s.socket.isSome then { session := s.write host config json, sent := [json] }
  else { session := s }

/-! ## What a login negotiates -/

def rememberPoolProtocol (result : Json) : Session :=
  if config.protocol.isSome && !s.native then s
  else
    let offered := match config.useSubscribe, config.algoParams with
      | false, some [(algo, _)] => some algo
      | _, _ => none
    let resultAlgo := (result.text? "algo").or ((result.object? "job").bind (·.text? "algo"))
    let marked := resultAlgo.filter (· ≠ "")
    let protocol := (firstName [marked, offered, algoFromPass config]).bind protocolForAlgo
    if protocol.isNone && marked.isNone then s
    else
      let s := { s with inferredProtocol := some (protocol.getD .login) }
      { s with keepalive := s.keepalive && !usesMiningSubscribe host config s }

def applyLoginExtensions (extensions : Option Json) : Session :=
  match extensions with
  | some (.arr items) =>
    let names := items.filterMap Json.str?
    { s with
      extensions := some ((s.requestedExtensions.getD []).filter (names.contains ·))
      negotiatedNicehash := names.contains "nicehash"
      negotiatedKeepalive := names.contains "keepalive" }
  | _ => s

/-- A change of family forgets the job state. -/
def leaveFamily (algo : String) : Session :=
  match s.jobAlgo with
  | some previous => if previous ≠ algo then clearPoolJobState s else s
  | none => s

/-- The family a native pool mines from now on. -/
def preparePoolFamily (algo : String) : Except String Session :=
  if (s.requestedAlgos.getD []).contains algo then
    .ok { leaveFamily s algo with
      jobAlgo := some algo, inferredProtocol := some ((protocolForAlgo algo).getD .login) }
  else .error ("Pool assigned an unadvertised algorithm: " ++ algo)

def rememberWorkerId (id : Option Json) : Session :=
  match id with
  | some (.str id) => { s with workerId := some (.text id) }
  | some (.num n) => if n.safe?.isSome then { s with workerId := some (.number n) } else s
  | _ => s

/-- A login that is marked with an algorithm selects its family on a native pool. -/
def assignedFamily (algo : Option String) : Except String Session :=
  match algo with
  | some algo => if s.native then preparePoolFamily s algo else .ok s
  | none => .ok s

def rememberPoolResponseMetadata (result : Option Json) : Except String Session :=
  match result.filter Json.isObject with
  | none => .ok s
  | some result => do
    let s := applyLoginExtensions (rememberWorkerId s (result.get? "id"))
      (result.get? "extensions")
    let algo ← messageAlgorithm result
    let s ← assignedFamily s algo
    let job := s.job.rememberPoolExtraNonceHex (result.get? "extra_nonce")
    let job ← job.rememberExtraNonceSize (result.get? "extra_nonce2_size")
    return rememberPoolProtocol host config { s with job } result

/-! ## Responses -/

/-- The handlers of responses. -/
inductive Handler
  | login | subscribe | authorize | cortexWork | share | ignore
  deriving DecidableEq, Repr

/-- The handler of the handshake responses of the id-keyed dialects. -/
def handshakeHandler (id : Option Json) : Option Handler :=
  let dialect := poolProtocol host config s
  let first := id.any (Json.isNumber 1)
  let second := id.any (Json.isNumber 2)
  let whenPending (pending : Bool) (handler : Handler) : Handler :=
    if pending then handler else .ignore
  if first && s.requestedExtensions.isSome then some .login
  else if !config.useSubscribe then
    if first then some .login else if second then some .ignore else none
  else if dialect = .conflux then
    if first then some .login else none
  else if pearlhashUsesSubscribe host config s then
    if first then some .ignore
    else if second then some (whenPending s.pendingAuthorize .authorize) else none
  else if usesMiningSubscribe host config s then
    if first then some (whenPending s.pendingSubscribe .subscribe)
    else if second then some (whenPending s.pendingAuthorize .authorize) else none
  else
    if first then some .login else if second then some .ignore else none

/-- `typeof id === "string"` or a safe integer. -/
def isResponseId : Option Json → Bool
  | some (.str _) => true
  | some (.num n) => n.safe?.isSome
  | _ => false

/-- The natural number an id is. -/
def idNumber? (id : Option Json) : Option ℕ := (id.bind Json.num?).bind Number.safeNat?

/-- Cortex keeps 72 for the login and 100 for `getWork`; every share has an id of its own. -/
def cortexResponse (id : Option Json) : Handler × Session :=
  if id.any (Json.isNumber 72) then (if s.pendingCortexLogin then .login else .ignore, s)
  else if id.any (Json.isNumber 100) then
    (if s.pendingCortexWork then .cortexWork else .ignore, s)
  else match idNumber? id with
    | some n =>
      if s.pendingCortexSubmitIds.contains n then
        (.share, { s with pendingCortexSubmitIds := s.pendingCortexSubmitIds.erase n })
      else (.ignore, s)
    | none => (.ignore, s)

/-- All shares of the other dialects have the id 3, so only their number is known. -/
def submitResponse (id : Option Json) : Handler × Session :=
  if id.any (Json.isNumber 3) && 0 < s.pendingSubmitCount then
    (.share, { s with pendingSubmitCount := s.pendingSubmitCount - 1 })
  else (.ignore, s)

/-- `poolResponseHandler`: the handler, and the session with the answered submission crossed
off. -/
def poolResponseHandler (id : Option Json) : Handler × Session :=
  if !isResponseId id then (.ignore, s)
  else if poolProtocol host config s = .cortex then cortexResponse s id
  else if poolProtocol host config s = .ironfish then (.ignore, s)
  else match handshakeHandler host config s id with
    | some handler => (handler, s)
    | none => submitResponse s id

def xelisAuthorizeParams : Json :=
  let login := config.login.toList
  let wallet := login.takeWhile (· ≠ '.')
  let embedded := login.dropWhile (· ≠ '.')
  let worker := if embedded = [] then config.worker else String.ofList (embedded.drop 1)
  .arr [.str (String.ofList wallet), .str (if worker = "" then "mom" else worker), .str config.pass]

def handleLoginResponse (ok : Bool) : Reply :=
  let cortex := poolProtocol host config s = .cortex
  let s := if cortex then { s with pendingCortexLogin := false } else s
  if !ok then { session := { s with job.pendingJob := none, loggedIn := false } }
  else
    let s := { s with loggedIn := true }
    if cortex then
      poolWrite host config { s with pendingCortexWork := true }
        (request (.num 100) "ctxc_getWork" (.arr [.str ""]))
    else { session := s }

def handleSubscribeResponse (isErr isOk : Bool) (result : Option Json) : Reply :=
  let s := { s with pendingSubscribe := false }
  if isErr || !isOk then { session := { s with job.pendingJob := none } }
  else
    let dialect := poolProtocol host config s
    let s := { s with job := s.job.rememberSubscribeExtraNonce dialect result }
    if s.loggedIn then { session := s }
    else
      let params := if dialect = .xelis then xelisAuthorizeParams config
        else .arr [.str config.login, .str config.pass]
      poolWrite host config { s with pendingAuthorize := true }
        (request (.num 2) "mining.authorize" params)

end

section

variable (host : Host) (config : PoolConfig) (random : String)
  (resume : Session → Json → Except String Reply)

/-- Handle a held-back announcement, if there is one. -/
def releasePending (s : Session) : Except String Reply :=
  match s.job.pendingJob with
  | some json => resume { s with job.pendingJob := none } json
  | none => .ok { session := s }

def handleAuthorizeResponse (s : Session) (isErr : Bool) (result : Option Json) :
    Except String Reply :=
  let s := { s with pendingAuthorize := false }
  if !isErr && result.any Json.isTrue then releasePending resume { s with loggedIn := true }
  else .ok { session := { s with job.pendingJob := none, loggedIn := false } }

/-- `"result" in json && json.result !== null && json.result !== false`. -/
def resultOk (json : Json) : Bool :=
  match json.get? "result" with
  | none | some .null | some (.bool false) => false
  | _ => true

/-- Whether a share was accepted. A Conflux result may be `[accepted, reason]`. -/
def shareAccepted (dialect : Dialect) (json : Json) : Bool :=
  let isOk := match dialect, json.items? "result" with
    | .conflux, some items => items[0]?.any Json.isTrue
    | _, _ => resultOk json
  !hasError json && isOk

/-- The response handlers, on the session they are called with. -/
def runHandler (handler : Handler) (s : Session) (json : Json) : Except String Reply :=
  let isErr := hasError json
  let isOk := resultOk json
  match handler with
  | .login => .ok (handleLoginResponse host config s (!isErr && isOk))
  | .subscribe => .ok (handleSubscribeResponse host config s isErr isOk (json.get? "result"))
  | .authorize => handleAuthorizeResponse resume s isErr (json.get? "result")
  | .cortexWork => .ok { session := { s with pendingCortexWork := false } }
  | .share => .ok { session := s, share := some (shareAccepted (poolProtocol host config s) json) }
  | .ignore => .ok { session := s }

def handlePoolResponse (s : Session) (json : Json) : Except String Reply := do
  let handled := poolResponseHandler host config s (json.get? "id")
  let reply ← runHandler host config resume handled.1 handled.2 json
  if handled.1 ≠ .ignore ∧ ¬hasError json ∧ resultOk json ∧ idIs json 1 then
    let session ← rememberPoolResponseMetadata host config reply.session (json.get? "result")
    return { reply with session }
  else return reply

/-! ## Dialects that answer with methods -/

/-- The id of an Iron Fish error: the one inside the error, or the message's own. -/
def ironfishErrorId (json : Json) : Option Json :=
  let nested := (json.object? "error").bind (·.get? "id")
  if Json.isNullish nested then json.get? "id" else nested

def isIdText (id : Option Json) (n : ℕ) (text : String) : Bool :=
  id.any fun id => id.isNumber n || id.isText text

def ironfishError (s : Session) (json : Json) : Reply :=
  let failed : Reply := handleLoginResponse host config { s with job.pendingJob := none } false
  let id := ironfishErrorId json
  if json.methodIs "mining.subscribed" then failed
  else if json.methodIs "mining.submitted" then { session := s, share := some false }
  else if isIdText id 1 "1" then failed
  else if isIdText id 2 "2" then { session := s, share := some false }
  else if !s.loggedIn || s.job.pendingJob.isSome then failed
  else { session := s }

def handleIronfishSubscribed (s : Session) (json : Json) : Except String Session := do
  let xn := (json.object? "body").bind (·.get? "xn")
  let extraNonce := validExtraNonce xn
  throwIf (extraNonce = "" ∧ xn.isSome ∧ ¬xn.any (Json.isText "")) "Invalid Iron Fish extranonce"
  return { s with job.ironfishXn := some extraNonce, loggedIn := true }

/-- `handleIronfishMessage`: the reply, when the message is one of Iron Fish's own. -/
def handleIronfishMessage (s : Session) (json : Json) : Except String (Option Reply) := do
  if poolProtocol host config s ≠ .ironfish then return none
  if hasError json then return some (ironfishError host config s json)
  if json.methodIs "mining.subscribed" then
    let s ← handleIronfishSubscribed s json
    let reply ← releasePending resume s
    return some reply
  if json.methodIs "mining.submitted" then
    let ok := ((json.object? "body").bind (·.get? "result")).any Json.isTrue
    return some { session := s, share := some ok }
  return none

def isBeamResult (json : Json) : Bool :=
  json.methodIs "result" && (((json.get? "code").bind Json.num?).bind Number.safe?).isSome

/-- The nonce prefix of a Beam login: at most six bytes. -/
def beamPrefix? (value : Json) : Option String :=
  (value.str?.map stripHexMark).filter fun hex =>
    isHex hex && hex.length % 2 = 0 && hex.length ≤ 12

def handleBeamResult (s : Session) (json : Json) : Reply :=
  let isCode := fun n => (json.get? "code").any (Json.isNumber n)
  if (json.get? "id").any (Json.isText "login") || json.has "nonceprefix" then
    if isCode 0 then match json.get? "nonceprefix" with
      | none => { session := { s with loggedIn := true } }
      | some value => match beamPrefix? value with
        | some pre => { session := { s with job.beamNonceprefix := some pre, loggedIn := true } }
        | none => { session := { s with loggedIn := false } }
    else { session := { s with loggedIn := false } }
  else { session := s, share := some (isCode 1) }

/-! ## The message handler -/

/-- A message without a method that answers a request. -/
def responseEnvelope (json : Json) : Bool :=
  (json.text? "method").isNone && json.has "id" && (json.has "result" || json.has "error")

/-- A response whose id is the text of an integer is read as having that integer for its id. -/
def normalizedResponse (json : Json) : Json :=
  match responseEnvelope json, json.text? "id" with
  | true, some id =>
    if isCanonicalDecimal id ∧ decimalValue id ≤ maxSafeInteger then
      json.set "id" (.num (.finite (decimalValue id)))
    else json
  | _, _ => json

def isAnnouncement (json : Json) : Bool := json.methodIs "job" || json.methodIs "mining.notify"

/-- A control takes effect at once, or with `mo-native` waits for the next announcement: one is
kept for each kind and marker. -/
def poolControl (s : Session) (json : Json) (control : Control) : Except String Session :=
  if !s.native then do
    let job ← applyPoolControl host (poolProtocol host config s) s.job control
    return { s with job }
  else do
    let algo ← messageAlgorithm json
    if algo.any fun algo => !(s.requestedAlgos.getD []).contains algo then return s
    let kept := s.pendingControls.filter fun pending => !pending.sameSlot ⟨algo, control⟩
    return { s with pendingControls := kept ++ [⟨algo, control⟩] }

/-- The pending controls that belong to a family, applied in order of arrival. -/
def applyControls (dialect : Dialect) (algo : String) (j : JobState)
    (controls : List PendingControl) : Except String JobState :=
  controls.foldlM (fun j pending =>
    if pending.appliesTo algo then applyPoolControl host dialect j pending.control
    else .ok j) j

/-- A native announcement selects its family, consumes the pending controls and is marked. -/
def nativeAnnouncement (s : Session) (json : Json) : Except String (Session × Json) := do
  let marker ← messageAlgorithm json
  match marker.or (s.jobAlgo.filter (· ≠ "")) with
  | none => .error "Native pool job has no algorithm"
  | some algo =>
    let s ← preparePoolFamily s algo
    let job ← applyControls host (poolProtocol host config s) algo s.job s.pendingControls
    return ({ s with job, pendingControls := [] }, json.set "algo" (.str algo))

/-- The work that a Cortex pool sends as response 100 answers the pending `getWork`. -/
def workReceived (s : Session) (json : Json) : Session :=
  if poolProtocol host config s = .cortex ∧ idIs json 100 then
    { s with pendingCortexWork := false }
  else s

/-- The session after a job was decoded from a message. -/
def jobDecoded (s : Session) (json : Json) (recorded : Recorded) : Except String Session :=
  if idIs json 1 ∧ (json.object? "result").any (·.has "job") then
    rememberPoolResponseMetadata host config (workReceived host config (s.record recorded) json)
      (json.get? "result")
  else .ok (workReceived host config (s.record recorded) json)

/-- The messages that Beam and Iron Fish alone send. -/
def dialectMessage (s : Session) (json : Json) : Except String (Option Reply) :=
  if poolProtocol host config s = .beam ∧ isBeamResult json then
    .ok (some (handleBeamResult s json))
  else handleIronfishMessage host config resume s json

/-- The session that holds an announcement back until the login completes. -/
def heldBack (s : Session) (json : Json) : Option Session :=
  if h : json.methodIs "job" ∨ json.methodIs "mining.notify" then
    if !s.loggedIn && (s.pendingAuthorize || poolProtocol host config s = .ironfish) then
      some { s with job.pendingJob := some ⟨json, h⟩ }
    else none
  else none

/-- Decode the job of a message, or else handle it as a response. -/
def decodeMessage (s : Session) (native : Bool) (json : Json) : Except String Reply := do
  match ← jobFromPoolMessage host config s random json with
  | some (job, recorded) =>
    let session ← jobDecoded host config s json recorded
    return { session, job := some job }
  | none =>
    throwIf (native ∧ isAnnouncement json) "Invalid native pool job"
    if responseEnvelope json then handlePoolResponse host config resume s json
    else return { session := s }

/-- The rest of `pool_message`, for a message that is not a control. -/
def routeMessage (s : Session) (native : Bool) (json : Json) : Except String Reply := do
  match ← dialectMessage host config resume s json with
  | some reply => return reply
  | none =>
    let dialect := poolProtocol host config s
    if dialect = .xelis ∧ json.methodIs "mining.ping" then
      return poolWrite host config s
        (.obj [("jsonrpc", .str "2.0"), ("id", (json.get? "id").getD .null),
          ("method", .str "mining.pong")])
    else match heldBack host config s json with
    | some session => return { session }
    | none =>
      -- the work of the initial `getWork` is answered once, as response 100
      if dialect = .cortex ∧ idIs json 100 ∧ s.pendingCortexWork ∧ hasError json then
        handlePoolResponse host config resume s json
      else if dialect = .cortex ∧ idIs json 100 ∧ ¬s.pendingCortexWork then
        return { session := s }
      else decodeMessage host config random resume s native json

/-- The dialect that a pushed message announces. -/
def announcedDialect (s : Session) (json : Json) : Session :=
  if !s.native && (json.text? "method").isSome then rememberPoolProtocol host config s json else s

def poolMessageWith (s : Session) (message : Json) : Except String Reply :=
  let json := normalizedResponse message
  let native := s.native
  let s := announcedDialect host config s json
  match control? json with
  | some control => do
    let session ← poolControl host config s json control
    return { session }
  | none =>
    if native ∧ isAnnouncement json then do
      let announced ← nativeAnnouncement host config s json
      routeMessage host config random resume announced.1 native announced.2
    else routeMessage host config random resume s native json

/-- `pool_message`, on a job announcement: it holds nothing back for itself. -/
def announcedMessage (s : Session) (json : Json) : Except String Reply :=
  poolMessageWith host config random (fun s _ => .ok { session := s }) s json

/-- `pool_message`. -/
def poolMessage (s : Session) (json : Json) : Except String Reply :=
  poolMessageWith host config random (announcedMessage host config random) s json

end

end MoMiner.Pool
