import MoMiner.Pool.Targets

/-!
# The state of a pool

A pool of `global.opt.pools` has four kinds of fields. `PoolConfig` is what the options layer
fixed. `Session` is everything a connection writes: the handshake flags, what was negotiated, the
controls of the current algorithm family (`JobState`), and the last job. The share counters, the
connect time and the donation deadline outlive a connection.

`clearPoolJobState` and `clearPoolConnection` reset the session field by field, as the source's
two lists of deletes do.
-/

namespace MoMiner.Pool

open MoMiner.Js

/-! ## Algorithms and dialects -/

/-- `normalizeAlgoName`, on a name that is present. -/
def normalizeAlgoName (algo : String) : String :=
  match toLowerCase algo with
  | "cuckaroo" | "cuckaroo29" | "c29xtm" => "c29"
  | "cuckaroo30" | "c30ctx" => "c30"
  | "kawpow1" | "kawpow4" => "kawpow"
  | "xel/2" | "xel/3" | "xel/v3" => "xelishashv3"
  | name => name

/-- The first name of the list that is not empty: `a || b || …`. -/
def firstName (names : List (Option String)) : Option String :=
  (names.find? fun name => name.getD "" ≠ "").join

/-- The stratum dialects of `poolProtocols`. -/
inductive Dialect
  | login | raven | eth | erg | pearlhash | zelhash | verthash | kaspa | hoosat | beam | ironfish
  | xelis | conflux | echelon | cortex
  deriving DecidableEq, Repr

/-- The dialect of an algorithm, when it does not use the default `login` dialect. -/
def protocolForAlgo (algo : String) : Option Dialect :=
  match normalizeAlgoName algo with
  | "kawpow" | "firopow" | "evrprogpow" | "meowpow" => some .raven
  | "etchash" => some .eth
  | "octopus" => some .conflux
  | "nexapow" => some .echelon
  | "c30" => some .cortex
  | "autolykos2" => some .erg
  | "pearlhash" => some .pearlhash
  | "fishhash" => some .ironfish
  | "equihash192_7" | "zelhash" | "zhash" => some .zelhash
  | "beamhash3" => some .beam
  | "karlsenhashv2" | "walahash" => some .kaspa
  | "hoohash" => some .hoosat
  | "verthash" => some .verthash
  | "xelishashv3" => some .xelis
  | _ => none

/-! ## Configuration -/

/-- An entry of an `algo_params` map: its devices, and whether its rate has been measured. -/
structure AlgoParam where
  dev : Option String
  measured : Bool
  deriving DecidableEq, Repr

structure PoolConfig where
  login : String
  pass : String := ""
  worker : String := ""
  protocol : Option Dialect := none
  useSubscribe : Bool := true
  isNicehash : Bool := false
  isKeepalive : Bool := true
  /-- `pearlhash_target_format` is `"jackpot"`. -/
  jackpotTarget : Bool := false
  algoParams : Option (List (String × AlgoParam)) := none

/-- What the controller asks of its options and of the runtime. -/
structure Host where
  /-- The name and version the program logs in with. -/
  agent : String
  /-- `global.opt.job.algo` and `global.opt.job.dev`. -/
  jobAlgo : Option String
  jobDev : String
  /-- `global.opt.algo_params`. -/
  algoParams : List (String × AlgoParam)
  /-- `MOM_PEARLHASH_LOGIN` is set. -/
  pearlhashLogin : Bool
  /-- `Number(text)`, on a decimal literal. -/
  number : String → Number
  /-- SHA-256 applied twice. -/
  hash256 : List UInt8 → List UInt8
  /-- The number of workers of a device list. -/
  devThreads : String → ℕ
  /-- The matrix shape tuned for a device list. -/
  pearlhashShape : String → PearlShape
  /-- `pool_time.donate_length` and `pool_time.connect_throttle`, in milliseconds. -/
  donateLength : ℕ
  connectThrottle : ℕ

/-! ## Jobs -/

/-- A job as the pool adapters deliver it. A job that came through the generic adapter keeps
whatever its message had, so `jobToken`, `nonceSlot` and `nonceStride` may be any value. -/
structure PoolJob where
  algo : Option String := none
  id : Option String := none
  jobId : Scalar
  jobToken : Option Json := none
  workerId : Option Scalar := none
  blob : Option String := none
  blobHex : Option String := none
  prePow : Option String := none
  headerHash : Option String := none
  seedHash : Option String := none
  seedHex : Option String := none
  target : Option String := none
  difficulty : Option ℚ := none
  height : Option ℕ := none
  nonce : Option Scalar := none
  noncebytes : Option ℕ := none
  nonceoffset : Option ℕ := none
  nicehashMask : Option String := none
  xn : Option String := none
  extraNonce : Option String := none
  extraNonce2Size : Option ℕ := none
  extranonce2 : Option String := none
  ntime : Option String := none
  nonce1Len : Option ℕ := none
  proofsize : Option ℕ := none
  pearlhashBaseTarget : Option String := none
  nonceSlot : Option Json := none
  nonceStride : Option Json := none
  /-- The dialect that decoded the job and that its shares are written in. -/
  submitMode : Option Dialect := none
  /-- Shares carry the hash, as the `submit-result` extension promises. -/
  submitResult : Bool := false

/-! ## The session -/

inductive ControlKind
  | target | difficulty | extranonce
  deriving DecidableEq, Repr

/-- A control message and the part of it that `applyPoolControl` reads. -/
inductive Control
  | target (value : Json)
  | difficulty (raw : Json)
  | extranonce (value : Json) (rest : List Json)

def Control.kind : Control → ControlKind
  | .target _ => .target
  | .difficulty _ => .difficulty
  | .extranonce .. => .extranonce

/-- A control that waits for a job announcement, with the algorithm it is marked with. -/
structure PendingControl where
  marker : Option String
  control : Control

/-- The later of two such controls replaces the earlier. -/
def PendingControl.sameSlot (a b : PendingControl) : Bool :=
  a.control.kind = b.control.kind && a.marker = b.marker

/-- The control is unmarked, or marked with the algorithm. -/
def PendingControl.appliesTo (algo : String) (c : PendingControl) : Bool := c.marker.all (· = algo)

/-- A job announcement held back until the login completes. -/
abbrev Announcement := {json : Json // json.methodIs "job" ∨ json.methodIs "mining.notify"}

/-- The fields that `clearPoolJobState` deletes. -/
structure JobState where
  beamDifficulty : Option ℕ := none
  beamNonceprefix : Option String := none
  cortexNonce : Option String := none
  ethDifficulty : Option ℚ := none
  ethTarget : Option String := none
  extraNonce : Option String := none
  extraNonce2Size : Option ℕ := none
  ironfishTarget : Option String := none
  ironfishXn : Option String := none
  kaspaDifficulty : Option ℚ := none
  kaspaTarget : Option String := none
  nexaDifficulty : Option ℚ := none
  nexaTarget : Option String := none
  pearlhashDifficulty : Option ℚ := none
  pearlhashProofEncodings : Option (List String) := none
  ravenTarget : Option String := none
  stratumTarget : Option String := none
  verthashDifficulty : Option ℚ := none
  xelisDifficulty : Option Scalar := none
  xelisExtraNonce : Option String := none
  xelisPublicKey : Option String := none
  zelhashTarget : Option String := none
  pendingJob : Option Announcement := none

structure Session where
  /-- The current socket; sockets are numbered as they are opened. -/
  socket : Option ℕ := none
  /-- The keepalive timer is armed. -/
  keepalive : Bool := false
  lastJob : Option PoolJob := none
  job : JobState := {}
  inferredProtocol : Option Dialect := none
  negotiatedKeepalive : Bool := false
  negotiatedNicehash : Bool := false
  workerId : Option Scalar := none
  extensions : Option (List String) := none
  requestedExtensions : Option (List String) := none
  requestedAlgos : Option (List String) := none
  jobAlgo : Option String := none
  pendingControls : List PendingControl := []
  pendingCortexSubmitIds : List ℕ := []
  pendingCortexLogin : Bool := false
  pendingCortexWork : Bool := false
  pendingSubscribe : Bool := false
  loggedIn : Bool := false
  pendingAuthorize : Bool := false
  pendingSubmitCount : ℕ := 0

def clearPoolJobState (s : Session) : Session :=
  { s with
    job.beamDifficulty := none
    job.beamNonceprefix := none
    job.cortexNonce := none
    job.ethDifficulty := none
    job.ethTarget := none
    job.extraNonce := none
    job.extraNonce2Size := none
    job.ironfishTarget := none
    job.ironfishXn := none
    job.kaspaDifficulty := none
    job.kaspaTarget := none
    job.nexaDifficulty := none
    job.nexaTarget := none
    job.pearlhashDifficulty := none
    job.pearlhashProofEncodings := none
    job.ravenTarget := none
    job.stratumTarget := none
    job.verthashDifficulty := none
    job.xelisDifficulty := none
    job.xelisExtraNonce := none
    job.xelisPublicKey := none
    job.zelhashTarget := none
    job.pendingJob := none }

/-- The body of `clear_pool_connection`, once its socket is known to be the current one. -/
def Session.clear (s : Session) : Session :=
  { clearPoolJobState { s with keepalive := false, socket := none, lastJob := none } with
    inferredProtocol := none
    negotiatedKeepalive := false
    negotiatedNicehash := false
    workerId := none
    extensions := none
    requestedExtensions := none
    requestedAlgos := none
    jobAlgo := none
    pendingControls := []
    pendingCortexSubmitIds := []
    pendingCortexLogin := false
    pendingCortexWork := false
    pendingSubscribe := false
    loggedIn := false
    pendingAuthorize := false
    pendingSubmitCount := 0 }

/-- What `connect_pool` writes when it opens a socket. -/
def Session.connect (s : Session) (socket : ℕ) : Session :=
  { s with socket := some socket, lastJob := none }

/-- The job state of a session is exactly what `clearPoolJobState` deletes. -/
@[simp] theorem clearPoolJobState_eq (s : Session) : clearPoolJobState s = { s with job := {} } :=
  rfl

/-- **A cleared session is a fresh one.** -/
@[simp] theorem Session.clear_eq (s : Session) : s.clear = {} := rfl

/-! ## The dialect of a pool -/

section

variable (host : Host) (config : PoolConfig) (s : Session)

def Session.hasExtension (name : String) : Bool := (s.extensions.getD []).contains name

/-- The `mo-native` extension is negotiated: the pool switches algorithm families. -/
def Session.native : Bool := s.hasExtension "mo-native"

def defaultPoolProtocol : Dialect :=
  (host.jobAlgo.bind protocolForAlgo).getD .login

def poolProtocol : Dialect :=
  match s.native, s.inferredProtocol with
  | true, some dialect => dialect
  | _, inferred => config.protocol.getD (inferred.getD (defaultPoolProtocol host))

def usesMiningSubscribe : Bool :=
  config.useSubscribe && match poolProtocol host config s with
    | .raven | .eth | .erg | .conflux | .zelhash | .kaspa | .hoosat | .verthash | .xelis
    | .echelon => true
    | _ => false

def pearlhashUsesSubscribe : Bool :=
  !host.pearlhashLogin && poolProtocol host config s = .pearlhash && config.useSubscribe

end

/-- The algorithm names that a pool password may carry. -/
def passAlgos : List String :=
  ["kawpow", "firopow", "evrprogpow", "meowpow", "etchash", "autolykos2", "pearlhash", "fishhash",
   "equihash192_7", "zelhash", "zhash", "karlsenhashv2", "walahash", "hoohash", "verthash",
   "xelishashv3", "xel/2", "xel/3", "xel/v3", "nexapow"]

/-- The parts of a password between `~`, `;` and `,`. -/
def passParts : List Char → List Char → List (List Char)
  | part, [] => [part.reverse]
  | part, c :: rest =>
    if c = '~' ∨ c = ';' ∨ c = ',' then part.reverse :: passParts [] rest
    else passParts (c :: part) rest

/-- `algoFromPass`: the first part that is an algorithm, bare or after `algo=`. -/
def algoFromPass (config : PoolConfig) : Option String :=
  (passParts [] config.pass.toList).findSome? fun part =>
    let name := part.map Char.toLower
    let bare := if name.take 5 = "algo=".toList then name.drop 5 else name
    if passAlgos.contains (String.ofList bare) then some (normalizeAlgoName (String.ofList bare))
    else none

end MoMiner.Pool

namespace MoMiner

open Pool

/-- An entry of `global.opt.pools`. -/
structure Pool where
  config : PoolConfig
  session : Session := {}
  goodShares : ℕ := 0
  badShares : ℕ := 0
  lastConnectTime : ℕ := 0
  donationUntil : ℕ := 0

/-- `clear_pool_connection`, once its socket is known to be the current one. -/
def Pool.clearConnection (pool : Pool) : Pool := { pool with session := pool.session.clear }

end MoMiner
