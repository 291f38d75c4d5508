import MoMiner.Pool.Frame
import MoMiner.Pool.Jobs

/-!
# One connection to a pool

A connection starts with a fresh session on a new socket. The events that can change it are the
socket's `connect`, the messages of the pool, and the program's writes, among them the share
submissions. A message that cannot be processed drops the connection.

Iron Fish apart, the pool answers a share by response id: all dialects but Cortex use the id 3, so
the session counts them; Cortex shares get an id of their own from `nextCortexSubmitId`, a counter
of the whole process.
-/

namespace MoMiner.Pool

open MoMiner.Js

/-! ## The handshake -/

section

variable (host : Host) (config : PoolConfig) (s : Session)

/-- The algorithms a login offers: the measured ones, and the configured one. -/
def offeredAlgos : List String :=
  let fixed := host.jobAlgo.map normalizeAlgoName
  ((config.algoParams.getD host.algoParams).filter fun (algo, params) =>
    params.measured || some algo = fixed).map Prod.fst

/-- `poolLoginParams`: what the login requests, and its parameters. -/
def poolLoginParams : Session × Json :=
  let algos := (offeredAlgos host config).map fun algo => if algo = "kawpow" then "kawpow1" else algo
  let requested := algos.map normalizeAlgoName
  let extensions := if algos = [] then [] else
    ["mo-native"] ++ (if requested.contains "pearlhash" then ["pearl-seed-split"] else []) ++
      ["submit-result"]
  let names (l : List String) : Json := .arr (l.map .str)
  ({ s with requestedAlgos := some requested, requestedExtensions := some extensions },
    .obj ([("login", .str config.login), ("pass", .str config.pass), ("agent", .str host.agent),
      ("algo", names algos)] ++
      if extensions = [] then [] else [("extensions", names extensions)]))

def loginRequest : Reply :=
  let (s, params) := poolLoginParams host config s
  poolWrite host config s (request (.num 1) "login" params)

/-- A login `wallet.worker` in two parts, split at its last point. -/
def pearlhashAuthorizeParams : Json :=
  let reversed := config.login.toList.reverse
  let embedded := (reversed.takeWhile (· ≠ '.')).reverse
  let wallet := ((reversed.dropWhile (· ≠ '.')).drop 1).reverse
  let hasWorker := wallet ≠ [] ∧ embedded ≠ []
  let worker := (firstName [some config.worker,
    if hasWorker then some (String.ofList embedded) else none, some "mom"]).getD "mom"
  .obj [("wallet", .str (if hasWorker then String.ofList wallet else config.login)),
    ("worker", .str worker), ("pass", .str config.pass)]

def subscribeRequest (params : List Json) : Reply :=
  poolWrite host config { s with pendingSubscribe := true }
    (request (.num 1) "mining.subscribe" (.arr (.str host.agent :: params)))

def handlePoolConnect : Reply :=
  let dialect := poolProtocol host config s
  if dialect = .ironfish then
    poolWrite host config s (.obj [("id", .num 1), ("method", .str "mining.subscribe"),
      ("body", .obj [("version", .num 3), ("agent", .str host.agent),
        ("publicAddress", .str config.login), ("extend", .arr [.str "mining.submitted"])])])
  else if dialect = .cortex then
    poolWrite host config { s with pendingCortexLogin := true }
      (request (.num 72) "ctxc_submitLogin" (.arr [.str config.login]))
  else if !config.useSubscribe then loginRequest host config s
  else if pearlhashUsesSubscribe host config s then
    -- the subscription is not waited for: the authorization follows at once
    let subscribed := poolWrite host config { s with pendingAuthorize := true }
      (request (.num 1) "mining.subscribe" (.arr [.str host.agent]))
    let authorized := poolWrite host config subscribed.session
      (request (.num 2) "mining.authorize" (pearlhashAuthorizeParams config))
    { authorized with sent := subscribed.sent ++ authorized.sent }
  else if dialect = .beam then
    poolWrite host config s (.obj [("jsonrpc", .str "2.0"), ("id", .str "login"),
      ("method", .str "login"), ("api_key", .str config.login)])
  else if dialect = .conflux then
    poolWrite host config s
      (request (.num 1) "mining.subscribe" (.arr [.str config.login, .str ""]))
  else if dialect = .xelis then
    subscribeRequest host config s [.arr [.str "xel/v3"]]
  else if usesMiningSubscribe host config s then subscribeRequest host config s []
  else loginRequest host config s

/-- The handshake writes no submission. -/
theorem handlePoolConnect_account :
    (handlePoolConnect host config s).session.account = s.account := by
  have hreq : ∀ {s' : Session} {id params : Json} {method : String}, s'.account = s.account →
      method ≠ "mining.submit" → method ≠ "submit" →
      (poolWrite host config s' (request id method params)).session.account = s.account := by
    intro s' id params method hs h₁ h₂
    rw [poolWrite_account (by simp [isSubmission_request, h₁, h₂]), hs]
  have hlogin : (loginRequest host config s).session.account = s.account :=
    hreq rfl (by decide) (by decide)
  have hobj : ∀ {s' : Session} {json : Json}, s'.account = s.account →
      isSubmission json = false →
      (poolWrite host config s' json).session.account = s.account := by
    intro s' json hs h
    rw [poolWrite_account h, hs]
  simp only [handlePoolConnect]
  split_ifs
  · exact hobj rfl (by simp [isSubmission, Json.methodIs, Json.get?, List.lookup_cons, Json.isText])
  · exact hreq rfl (by decide) (by decide)
  · exact hlogin
  · exact hreq (hreq rfl (by decide) (by decide)) (by decide) (by decide)
  · exact hobj rfl (by simp [isSubmission, Json.methodIs, Json.get?, List.lookup_cons, Json.isText])
  · exact hreq rfl (by decide) (by decide)
  · exact hreq rfl (by decide) (by decide)
  · exact hreq rfl (by decide) (by decide)
  · exact hlogin

end

/-! ## Events of a connection -/

/-- The reply once its job is stored. What the miner writes on the stored job later is not read by
any handler of the connection. -/
def keepJob (host : Host) (r : Reply) : Except String Reply :=
  match r.job with
  | none => .ok r
  | some job => do
    let job ← acceptedJob host r.session job
    return { r with session.lastJob := some job, job := some job }

theorem keepJob_eq_ok {host : Host} {r r' : Reply} (h : keepJob host r = .ok r') :
    ∃ last job, r' = { r with session.lastJob := last, job } := by
  unfold keepJob at h
  split at h
  · cases h
    exact ⟨r.session.lastJob, r.job, rfl⟩
  · obtain ⟨job, -, h⟩ := Except.bind_eq_ok.mp h
    cases h
    exact ⟨some job, some job, rfl⟩

/-- A message is handled, and the job that it brings is stored. -/
def receivedReply (host : Host) (config : PoolConfig) (random : String) (s : Session)
    (message : Json) : Except String Reply :=
  poolMessage host config random s message >>= keepJob host

section

variable {host : Host} {config : PoolConfig} {random : String} {s : Session} {message : Json}
  {r r' : Reply}

theorem receivedReply_eq_ok (h : receivedReply host config random s message = .ok r') :
    ∃ r last job, poolMessage host config random s message = .ok r ∧
      r' = { r with session.lastJob := last, job } := by
  obtain ⟨r, hr, h⟩ := Except.bind_eq_ok.mp h
  obtain ⟨last, job, h⟩ := keepJob_eq_ok h
  exact ⟨r, last, job, hr, h⟩

theorem receivedReply_of_no_job (h : poolMessage host config random s message = .ok r)
    (hjob : r.job = none) : receivedReply host config random s message = .ok r := by
  rw [receivedReply, h]
  change keepJob host r = .ok r
  rw [keepJob, hjob]

@[simp] theorem poolProtocol_lastJob (last : Option PoolJob) :
    poolProtocol host config { s with lastJob := last } = poolProtocol host config s := rfl

end

/-- The counters that a share response moves. -/
def countShare (pool : MoMiner.Pool) : Option Bool → MoMiner.Pool
  | some true => { pool with goodShares := pool.goodShares + 1 }
  | some false => { pool with badShares := pool.badShares + 1 }
  | none => pool

@[simp] theorem countShare_session (pool : MoMiner.Pool) (share : Option Bool) :
    (countShare pool share).session = pool.session := by
  rcases share with _ | _ | _ <;> rfl

@[simp] theorem countShare_config (pool : MoMiner.Pool) (share : Option Bool) :
    (countShare pool share).config = pool.config := by
  rcases share with _ | _ | _ <;> rfl

/-- `nextCortexSubmitId`. The id 100 belongs to the concurrent `ctxc_getWork`. -/
def nextCortexSubmitId (current : ℕ) : Option ℕ :=
  if current = maxSafeInteger then none
  else if current + 1 = 100 then some 101
  else some (current + 1)

def cortexPendingLimit : ℕ := 4096

/-- A pool during one connection, with the process's Cortex counter. The last three fields are
the history of the connection: nothing reads them. -/
structure Connection where
  pool : MoMiner.Pool
  cortexSubmitId : ℕ
  /-- The submissions written with the id 3. -/
  written : ℕ := 0
  /-- The responses with the id 3 that were counted as shares. -/
  consumed : ℕ := 0
  /-- The ids of the Cortex submissions. -/
  cortexIds : List ℕ := []

/-- A connection right after `connect_pool` opened its socket. -/
def Connection.onPool (pool : MoMiner.Pool) (socket cortexSubmitId : ℕ) : Connection :=
  { pool := { pool with session := pool.session.connect socket }, cortexSubmitId }

/-- A connection of a pool that was cleared before. -/
def Connection.open (pool : MoMiner.Pool) : ℕ → ℕ → Connection := onPool pool.clearConnection

inductive ConnectionEvent
  /-- The socket reports that it is connected. -/
  | connected
  /-- The program writes a message; a share submission is one of them. -/
  | write (json : Json)
  /-- A Cortex share is submitted on this connection. -/
  | cortexShare (params : Json)
  /-- A Cortex share is submitted to another pool. -/
  | cortexElsewhere
  /-- The pool sends a message; `random` is what a draw for it would give. -/
  | receive (message : Json) (random : String)

namespace Connection

/-- A response with the id 3. -/
def isSubmitResponse (message : Json) : Bool :=
  responseEnvelope message && idIs (normalizedResponse message) 3

def withSession (c : Connection) (session : Session) : Connection :=
  { c with pool := { c.pool with session } }

def write (host : Host) (c : Connection) (json : Json) : Connection :=
  { c.withSession (poolWrite host c.pool.config c.pool.session json).session with
    written := if c.pool.session.socket.isSome ∧ isSubmission json then c.written + 1
      else c.written }

/-- A Cortex submission with a given id becomes pending. -/
def issue (c : Connection) (id : ℕ) : Connection :=
  let s := c.pool.session
  { c.withSession { s with pendingCortexSubmitIds := s.pendingCortexSubmitIds ++ [id] } with
    cortexSubmitId := id
    cortexIds := c.cortexIds ++ [id] }

/-- The id of the next Cortex submission, when one can be made. -/
def cortexRequestId (c : Connection) : Option ℕ :=
  if cortexPendingLimit ≤ c.pool.session.pendingCortexSubmitIds.length then none
  else nextCortexSubmitId c.cortexSubmitId

def cortexRequest (params : Json) (id : ℕ) : Json :=
  request (.num (.finite id)) "ctxc_submitWork" params

/-- The Cortex branch of `handleResult`. -/
def cortexShare (host : Host) (c : Connection) (params : Json) : Connection :=
  match c.cortexRequestId with
  | none => c
  | some id => (c.issue id).write host (cortexRequest params id)

/-- The connection after the reply to a message. -/
def replied (host : Host) (c : Connection) (message : Json) (r : Reply) : Connection :=
  { c with
    pool := countShare { c.pool with session := r.session } r.share
    consumed :=
      if r.share.isSome ∧ isSubmitResponse message ∧
          poolProtocol host c.pool.config c.pool.session ≠ .ironfish then c.consumed + 1
      else c.consumed }

/-- A message from the pool. One that cannot be processed ends the connection. -/
def receive (host : Host) (c : Connection) (message : Json) (random : String) :
    Option Connection :=
  match receivedReply host c.pool.config random c.pool.session message with
  | .error _ => none
  | .ok r => some (c.replied host message r)

def step (host : Host) (c : Connection) : ConnectionEvent → Option Connection
  | .connected => some (c.withSession (handlePoolConnect host c.pool.config c.pool.session).session)
  | .write json => some (c.write host json)
  | .cortexShare params => some (c.cortexShare host params)
  | .cortexElsewhere => some { c with
      cortexSubmitId := (nextCortexSubmitId c.cortexSubmitId).getD c.cortexSubmitId }
  | .receive message random => c.receive host message random

end Connection

/-! ## A sample connection -/

/-- A host that has measured RandomX, FishHash and Cuckaroo30. -/
def exampleHost : Host where
  agent := "mom"
  jobAlgo := none
  jobDev := "cpu"
  algoParams := [("rx/0", ⟨some "cpu", true⟩), ("fishhash", ⟨some "gpu1", true⟩),
    ("c30", ⟨some "gpu1", true⟩)]
  pearlhashLogin := false
  number := fun s => .finite (decimalValue s)
  hash256 := fun bytes => bytes
  devThreads := fun _ => 1
  pearlhashShape := fun _ => ⟨131072, 131072, 4096, 256⟩
  donateLength := 60000
  connectThrottle := 60000

def examplePool : MoMiner.Pool := { config := { login := "user", useSubscribe := false } }

/-- The response to the login: a RandomX job, with `mo-native` negotiated. -/
def exampleLogin : Json :=
  .obj [("id", .num 1), ("error", .null), ("result", .obj [("id", .str "w1"),
    ("extensions", .arr [.str "mo-native"]),
    ("job", .obj [("algo", .str "rx/0"), ("job_id", .str "a"),
      ("blob", .str (repeatChar 86 '0')), ("target", .str "b88d0600")])])]

/-- The connection after some events. -/
def exampleAfter (es : List ConnectionEvent) : Connection :=
  (es.foldlM (Connection.step exampleHost) (Connection.open examplePool 0 72)).getD
    (Connection.open examplePool 0 72)

end MoMiner.Pool
