import MoMiner.Pool.Controls

/-!
# Job adapters

`jobFromPoolMessage` turns a message into a job, by dialect. A message that is not a job of the
dialect gives no job; a job with a malformed field gives no job or an error, as each adapter
chooses. Besides the job, building one records a few things on the pool (`Recorded`).
-/

namespace MoMiner.Pool

open MoMiner.Bytes MoMiner.Js

/-! ## Fields of jobs -/

/-- `poolJobId`: a short non-empty text or a safe integer. -/
def poolJobId : Option Json → Option Scalar
  | some (.str s) => if s ≠ "" ∧ jsLength s ≤ 256 then some (.text s) else none
  | some (.num n) => if n.safe?.isSome then some (.number n) else none
  | _ => none

/-- `Number(text)` of a decimal or `0x` literal, when it is a safe integer. -/
def safeLiteral? (s : String) : Option ℕ :=
  let hex := stripHexMark s
  let value :=
    if isDigits s then some (decimalValue s)
    else if hex ≠ s ∧ hex ≠ "" ∧ isHex hex then some (hexNumber hex)
    else none
  value.filter (· ≤ maxSafeInteger)

def poolHeight (value : Option Json) (label : String) : Except String ℕ :=
  let height := match value with
    | some (.num n) => n.safeNat?
    | some (.str s) => safeLiteral? s
    | _ => none
  match height with
  | some h => .ok h
  | none => .error ("Invalid " ++ label ++ " height")

def parseCortexHeight (value : Option Json) : Option ℕ :=
  if Json.isNullish value || value.any (Json.isText "") then some 0
  else
    let hex := hexWithoutPrefix value
    if hex ≠ "" ∧ isHex hex then some (hexNumber hex) |>.filter (· ≤ maxSafeInteger) else none

def fixedHexBytesLE (hex : String) (bytes : ℕ) : String :=
  String.ofList (reverseHex (slice 0 (2 * bytes) (padEnd (2 * bytes) '0' hex)).toList)

/-- `Buffer.from(hex, "hex").reverse().toString("hex")`. -/
def reverseBuffer (hex : String) : String :=
  toLowerCase (String.ofList (reverseHex hex.toList))

def poolExtraNonce (j : JobState) : String := stripHexMark (j.extraNonce.getD "")

def poolNonce (j : JobState) : String := slice 0 16 (padEnd 16 '0' (poolExtraNonce j))

/-- So many `ff` bytes, filled up with zeros to `width` digits. -/
def prefixMask (bytes width : ℕ) : String := padEnd width '0' (repeatChar (2 * bytes) 'f')

def poolNonceMask (j : JobState) : String := prefixMask ((poolExtraNonce j).length / 2) 16

/-- The algorithm of a job whose dialect leaves it open: its marker, the configured algorithm, or
the dialect's own. -/
def jobName (host : Host) (marked : Option String) (fallback : String) : String :=
  (firstName [(firstName [marked, host.jobAlgo, some fallback]).map normalizeAlgoName,
    some fallback]).getD fallback

def fixedAlgoJobName (host : Host) (json : Json) (fallback : String) : String :=
  jobName host (json.text? "algo") fallback

/-- What building a job records on its pool. -/
structure Recorded where
  loggedIn : Bool := false
  cortexNonce : Option String := none
  proofEncodings : Option (List String) := none
  beamDifficulty : Option ℕ := none

def Session.record (s : Session) (r : Recorded) : Session :=
  { s with
    loggedIn := s.loggedIn || r.loggedIn
    job.cortexNonce := r.cortexNonce.or s.job.cortexNonce
    job.pearlhashProofEncodings := r.proofEncodings.or s.job.pearlhashProofEncodings
    job.beamDifficulty := r.beamDifficulty.or s.job.beamDifficulty }

/-! ## Generic jobs -/

def maxPoolJobStringChars : ℕ := 128 * 1024

def poolJobStringFields : List String :=
  ["backend", "backend_request", "blob", "blob_hex", "dev", "extra_nonce", "extranonce2",
   "header_hash", "id", "nicehash_mask", "ntime", "pearlhash_base_target", "pre_pow", "seed_hex",
   "seed_hash", "solution", "submit_mode", "target", "xn", "nbits"]

def poolJobNumberFields : List String :=
  ["difficulty", "extra_nonce2_size", "height", "intensity", "nonce1_len", "noncebytes",
   "nonceoffset", "pearlhash_cert_version", "pearlhash_k", "pearlhash_n", "pearlhash_rank",
   "proofsize", "thread_id", "thread_num"]

def poolJobStringOrNumberFields : List (String × ℕ) :=
  [("job_id", 256), ("nonce", 256), ("pool_id", 256), ("worker_id", 4096)]

def poolJobIntegerFields : List String :=
  ["extra_nonce2_size", "height", "nonce1_len", "nonceoffset", "thread_id"]

def poolJobPositiveIntegerFields : List String :=
  ["intensity", "noncebytes", "pearlhash_k", "pearlhash_n", "pearlhash_rank", "proofsize",
   "thread_num"]

/-- A property that is absent or passes a test. -/
def absentOr (j : Json) (key : String) (test : Json → Bool) : Bool :=
  (j.get? key).all test

def isHexNonce (s : String) : Bool := s ≠ "" && s.length ≤ 16 && isHex s

def isPoolJob (value : Json) : Bool :=
  let finite (j : Json) : Bool := (j.num?.bind Number.finite?).isSome
  let natural (j : Json) : Option ℕ := j.num?.bind Number.safeNat?
  value.isObject &&
  (Json.isNullish (value.get? "algo") || (value.text? "algo").any (jsLength · ≤ 128)) &&
  poolJobStringFields.all (fun key =>
    absentOr value key fun j => j.str?.any (jsLength · ≤ maxPoolJobStringChars)) &&
  poolJobNumberFields.all (fun key => absentOr value key finite) &&
  poolJobStringOrNumberFields.all (fun (key, limit) => absentOr value key fun j =>
    j.str?.any (jsLength · ≤ limit) || (j.num?.bind Number.safe?).isSome) &&
  (poolJobId (value.get? "job_id")).isSome &&
  ["blob", "blob_hex", "header_hash", "pre_pow"].any (fun key => (value.text? key).any (· ≠ "")) &&
  absentOr value "difficulty" (fun j => (j.num?.bind Number.finite?).any (0 < ·)) &&
  poolJobIntegerFields.all (fun key =>
    absentOr value key fun j => (natural j).isSome) &&
  absentOr value "nonce" (fun j => j.str?.any isHexNonce || (natural j).isSome) &&
  poolJobPositiveIntegerFields.all (fun key =>
    absentOr value key fun j => (natural j).any (0 < ·)) &&
  absentOr value "pearlhash_cert_version" (Json.isNumber 3)

/-- The fields of a generic job. -/
def readPoolJob (value : Json) : Option PoolJob :=
  let natural (key : String) : Option ℕ := ((value.get? key).bind Json.num?).bind Number.safeNat?
  if isPoolJob value then
    (poolJobId (value.get? "job_id")).map fun jobId =>
      { algo := value.text? "algo"
        id := value.text? "id"
        jobId
        jobToken := value.get? "job_token"
        workerId := (value.get? "worker_id").bind Json.scalar?
        blob := value.text? "blob"
        blobHex := value.text? "blob_hex"
        prePow := value.text? "pre_pow"
        headerHash := value.text? "header_hash"
        seedHash := value.text? "seed_hash"
        seedHex := value.text? "seed_hex"
        target := value.text? "target"
        difficulty := ((value.get? "difficulty").bind Json.num?).bind Number.finite?
        height := natural "height"
        nonce := (value.get? "nonce").bind Json.scalar?
        noncebytes := natural "noncebytes"
        nonceoffset := natural "nonceoffset"
        nicehashMask := value.text? "nicehash_mask"
        xn := value.text? "xn"
        extraNonce := value.text? "extra_nonce"
        extraNonce2Size := natural "extra_nonce2_size"
        extranonce2 := value.text? "extranonce2"
        ntime := value.text? "ntime"
        nonce1Len := natural "nonce1_len"
        proofsize := natural "proofsize"
        pearlhashBaseTarget := value.text? "pearlhash_base_target"
        nonceSlot := value.get? "nonce_slot"
        nonceStride := value.get? "nonce_stride" }
  else none

def loginMetadataKeys : List String :=
  ["algo", "height", "seed_hash", "target", "difficulty", "extra_nonce", "extra_nonce2_size",
   "noncebytes", "nonceoffset", "xn", "nicehash_mask", "pearlhash_cert_version", "worker_id"]

/-- A login job, completed with the metadata beside it. -/
def loginJobWithResultMetadata (result job : Json) : Option PoolJob :=
  readPoolJob <| loginMetadataKeys.foldl (fun job key =>
    match job.get? key, result.get? key with
    | none, some value => job.set key value
    | _, _ => job) job

/-! ## Dialects with a search nonce after a 32-byte header -/

def nonceAt32Job (j : JobState) (headerHash : String) (job : PoolJob) : PoolJob :=
  { job with
    headerHash := some headerHash
    blob := some (headerHash ++ fixedHexBytesLE (poolExtraNonce j) 8)
    nonce := some (.text (poolNonce j))
    nicehashMask := some (poolNonceMask j)
    noncebytes := some 8
    nonceoffset := some 32 }

def ethTarget (j : JobState) : Except String String := do
  let target := stripHexMark (firstText j.ethTarget j.stratumTarget)
  if target = "" then return ethDiff2Target (j.ethDifficulty.getD 1) 1
  throwIf (¬boundedHex target 32) "Invalid Ethash target"
  return padStart 64 '0' target

def ravenNotifyJob (host : Host) (config : PoolConfig) (j : JobState) (json : Json)
    (p : List Json) : Except String (Option PoolJob) :=
  match poolJobId p[0]?, validHexBytes p[1]? 32, validHexBytes p[2]? 32 with
  | some jobId, some headerHash, some seedHash => do
    let target ← ravenTarget j p[3]?
    let height ← poolHeight p[5]? "Raven"
    return some <| nonceAt32Job j headerHash
      { algo := fixedAlgoJobName host json ((algoFromPass config).getD "kawpow")
        seedHash := some seedHash, target := some target, jobId, height := some height }
  | _, _, _ => return none

def ethNotifyJob (host : Host) (j : JobState) (json : Json) (p : List Json) :
    Except String (Option PoolJob) :=
  match poolJobId p[0]?, validHexBytes p[1]? 32, validHexBytes p[2]? 32 with
  | some jobId, some seedHash, some headerHash => do
    let target ← ethTarget j
    return some <| nonceAt32Job j headerHash
      { algo := fixedAlgoJobName host json "etchash"
        seedHash := some seedHash, target := some target, jobId }
  | _, _, _ => return none

/-- The target of a Conflux job: a marked hexadecimal boundary or a decimal one. -/
def confluxTarget (raw : Option Json) : Except String String := do
  match raw with
  | some (.str s) =>
    let hex := stripHexMark s
    let target ←
      if hex ≠ s ∧ hex ≠ "" ∧ hex.length ≤ 64 ∧ isHex hex then pure (padStart 64 '0' hex)
      else do
        let value ← unsignedDecimal raw uint256Max "Conflux target"
        throwIf (value = 0) "Conflux target must be positive"
        pure (decimalTargetToHex value)
    throwIf (target.toList.all (· = '0')) "Conflux target must be positive"
    return target
  | _ => .error "Invalid Conflux target"

def confluxNotifyJob (j : JobState) (p : List Json) : Except String (Option PoolJob) :=
  match poolJobId p[0]?, validHexBytes p[2]? 32 with
  | some jobId, some headerHash => do
    let target ← confluxTarget p[3]?
    let height ← poolHeight p[1]? "Conflux"
    return some <| nonceAt32Job j headerHash
      { algo := "octopus", target := some target, jobId, height := some height }
  | _, _ => return none

def ergNotifyJob (host : Host) (j : JobState) (json : Json) (p : List Json) :
    Except String (Option PoolJob) :=
  let noTime := p[7]?.isNone || p[7]?.any (Json.isText "")
  let ntime := if noTime then some "" else validHexBytes p[7]? 4
  match poolJobId p[0]?, validHexBytes p[2]? 32, ntime with
  | some jobId, some headerHash, some ntime => do
    let target ← unsignedDecimal p[6]? uint256Max "Autolykos2 target"
    throwIf (target = 0) "Autolykos2 target must be positive"
    let height ← poolHeight p[1]? "Autolykos2"
    let extraNonce := poolExtraNonce j
    return some <| nonceAt32Job j headerHash
      { algo := fixedAlgoJobName host json "autolykos2"
        target := some (decimalTargetToHex target), jobId, height := some height
        ntime := some ntime, extraNonce := some extraNonce
        extraNonce2Size := some (j.extraNonce2Size.getD (8 - (extraNonce.length + 1) / 2)) }
  | _, _, _ => return none

/-! ## Dialects with a fixed header layout -/

def nexaNotifyJob (j : JobState) (p : List Json) : Except String (Option PoolJob) :=
  let shortNonce := p.length = 4
  let size := if shortNonce then 4 else 8
  let difficulty := j.nexaDifficulty.getD 1
  match poolJobId p[0]?, validHexBytes p[1]? 32, validHexBytes (j.extraNonce.map .str) size with
  | some jobId, some header, some extraNonce =>
    if j.extraNonce2Size ≠ some size then .ok none
    else
      let common : PoolJob :=
        { algo := "nexapow", jobId, extraNonce := some extraNonce, noncebytes := some 8
          target := some (firstText j.nexaTarget (ethDiff2Target difficulty 1))
          difficulty := some difficulty }
      if shortNonce then
        match validHexBytes p[3]? 4 with
        | none => .ok none
        | some _ => do
          let height ← poolHeight p[2]? "Nexa"
          -- the wire header is serialized; the native ABI wants display order
          return some { common with
            blob := some (reverseBuffer header ++ extraNonce ++ repeatChar 16 '0')
            height := some height, extraNonce2Size := some 4, nonceoffset := some 36
            nonce := some (.text (repeatChar 16 '0')), nicehashMask := some (repeatChar 16 '0') }
      else
        match validHexBytes p[2]? 4, validHexBytes p[3]? 8 with
        | some _, some ntime =>
          if p[4]?.any Json.isBool then
            .ok (some { common with
              blob := some (header ++ extraNonce ++ repeatChar 16 '0')
              ntime := some ntime, nonceoffset := some 40 })
          else .ok none
        | _, _ => .ok none
  | _, _, _ => .ok none

/-- The 140-byte Equihash header: the notification's fields, then the pool's nonce prefix and
zeros for the rest of the 32-byte nonce. -/
def zelhashNotifyJob (host : Host) (j : JobState) (json : Json) (p : List Json) :
    Option PoolJob := do
  let jobId ← poolJobId p[0]?
  let version ← validHexBytes p[1]? 4
  let prevhash ← validHexBytes p[2]? 32
  let merkle ← validHexBytes p[3]? 32
  let reserved ← validHexBytes p[4]? 32
  let ntime ← validHexBytes p[5]? 4
  let bits ← validHexBytes p[6]? 4
  let nonce1 := poolExtraNonce j
  let nonce := slice 0 64 (nonce1 ++ repeatChar 64 '0')
  return {
    algo := fixedAlgoJobName host json "zelhash"
    blob := some (version ++ prevhash ++ merkle ++ reserved ++ ntime ++ bits ++ nonce)
    jobId
    ntime := some ntime
    nonce1Len := some (nonce1.length / 2)
    noncebytes := some 8
    nonceoffset := some (108 + nonce1.length / 2)
    target := j.zelhashTarget.or (j.stratumTarget.map fun t => padStart 64 '0' (stripHexMark t)) }

/-- `le8Hex`: a 64-bit word, low byte first. -/
def le8Hex (value : ℕ) : String := String.ofList (toHex (leBytes 8 value))

def uint64Decimal (value : Option Json) : Except String ℕ :=
  unsignedDecimal value (2 ^ 64 - 1) "uint64 decimal"

def kaspaNotifyJob (host : Host) (config : PoolConfig) (dialect : Dialect) (j : JobState)
    (json : Json) (p : List Json) : Except String (Option PoolJob) :=
  match poolJobId p[0]? with
  | none => .ok none
  | some jobId =>
    match json.items? "__kaspa_words", json.get? "__kaspa_timestamp" with
    | some (w0 :: w1 :: w2 :: w3 :: _), some time => do
      let words ← [w0, w1, w2, w3].mapM fun w => uint64Decimal (some w)
      let timestamp ← uint64Decimal (some time)
      let xn := poolExtraNonce j
      let xnBytes := min (xn.length / 2) 8
      let difficulty := j.kaspaDifficulty.getD 1
      return some {
        algo := fixedAlgoJobName host json
          ((algoFromPass config).getD (if dialect = .hoosat then "hoohash" else "karlsenhashv2"))
        blob := some (String.join (words.map le8Hex) ++ le8Hex timestamp ++ repeatChar 64 '0' ++
          repeatChar 16 '0')
        jobId
        target := some (firstText j.kaspaTarget (fullDiff2Target difficulty kaspaDiff1Target))
        difficulty := some difficulty
        noncebytes := some 8
        nonceoffset := some 72
        nonce := some (.text (slice 0 16 (xn ++ repeatChar 16 '0')))
        nicehashMask := some (prefixMask xnBytes 16) }
    | _, _ => .error "Missing exact Kaspa pre-pow values"

def xelisHex (value : Option Json) : Except String String :=
  match value with
  | some (.num n) => match n.safeNat? with
    | some v => .ok (toHexString v)
    | none => .error "Invalid XELIS timestamp"
  | other => .ok (hexWithoutPrefix other)

/-- The difficulty of a XELIS job and its number, when that is exact. -/
def xelisJobDifficulty (j : JobState) : Except String (ℕ × Option ℚ) := do
  let raw : Json := match j.xelisDifficulty with
    | some (.text s) => .str s
    | some (.number n) => .num n
    | none => .num 1
  let difficulty ← xelisDifficulty (some raw)
  return (difficulty, if difficulty ≤ maxSafeInteger then some difficulty else none)

def xelisNotifyJob (j : JobState) (p : List Json) : Except String (Option PoolJob) := do
  let timestamp ← xelisHex p[1]?
  match poolJobId p[0]?, validHexBytes p[2]? 32, j.xelisExtraNonce, j.xelisPublicKey with
  | some jobId, some header, some extraNonce, some publicKey =>
    if !isHexNonce timestamp || extraNonce = "" || publicKey = "" then return none
    let (difficulty, exact) ← xelisJobDifficulty j
    return some {
      algo := "xelishashv3"
      blob := some (header ++ padStart 16 '0' timestamp ++ repeatChar 16 '0' ++ extraNonce ++
        publicKey)
      headerHash := some header
      jobId
      target := some (String.ofList (hexFixed 64 (uint256Max / difficulty)))
      noncebytes := some 8
      nonceoffset := some 40
      difficulty := exact }
  | _, _, _, _ => return none

/-- The four-byte words of a text, each reversed. -/
def reverseWords (hex : String) (words : ℕ) : String :=
  String.join ((List.range words).map fun i => reverseBuffer (slice (8 * i) (8 * i + 8) hex))

def hexBytes (hex : String) : List UInt8 := (ofHex hex.toList).getD []

/-- The merkle branch of a Verthash job. -/
def verthashBranches (value : Option Json) : Except String (List String) :=
  match value.bind Json.arr? with
  | some items =>
    match items.mapM fun branch => validHexBytes (some branch) 32 with
    | some branches =>
      if items.length ≤ 64 then .ok branches else .error "Invalid Verthash merkle branch"
    | none => .error "Invalid Verthash merkle branch"
  | none => .error "Invalid Verthash merkle branch"

def verthashNotifyJob (host : Host) (j : JobState) (p : List Json) :
    Except String (Option PoolJob) := do
  let xnonce2 := repeatChar (2 * j.extraNonce2Size.getD 4) '0'
  let branches ← verthashBranches p[4]?
  match p[2]?.bind Json.str?, p[3]?.bind Json.str? with
  | some first, some second =>
    let coinbase1 := stripHexMark first
    let coinbase2 := stripHexMark second
    match poolJobId p[0]?, validHexBytes p[1]? 32, validHexBytes p[5]? 4, validHexBytes p[6]? 4,
        validHexBytes p[7]? 4 with
    | some jobId, some previousHash, some version, some bits, some ntime =>
      throwIf (¬isHex (coinbase1 ++ coinbase2) ∨ coinbase1.length % 2 ≠ 0 ∨
        coinbase2.length % 2 ≠ 0) "Invalid Verthash job fields"
      let coinbase := hexBytes (coinbase1 ++ poolExtraNonce j ++ xnonce2 ++ coinbase2)
      let merkle := branches.foldl (fun m branch => host.hash256 (m ++ hexBytes branch))
        (host.hash256 coinbase)
      return some {
        algo := "verthash"
        jobId
        blob := some (reverseBuffer version ++ reverseWords previousHash 8 ++
          String.ofList (toHex merkle) ++ reverseBuffer ntime ++ reverseBuffer bits ++ "00000000")
        noncebytes := some 4
        nonceoffset := some 76
        difficulty := some (j.verthashDifficulty.getD 1)
        extranonce2 := some xnonce2
        ntime := some ntime }
    | _, _, _, _, _ => .error "Invalid Verthash job fields"
  | _, _ => .error "Invalid Verthash job fields"

def ironfishNotifyJob (host : Host) (j : JobState) (json body : Json) : Option PoolJob := do
  let jobId ← poolJobId (body.get? "miningRequestId")
  let header ← validHexBytes (body.get? "header") 180
  return {
    algo := fixedAlgoJobName host json "fishhash"
    blob := some header
    jobId
    noncebytes := some 8
    nonceoffset := some 172
    xn := some (j.ironfishXn.getD "")
    target := j.ironfishTarget }

/-- `cortexWorkJob`. The counter's start is drawn once per family and kept; `random` is the draw
of this call. -/
def cortexWorkJob (j : JobState) (random : String) (result : List Json) :
    Option (PoolJob × Recorded) := do
  let header ← validHexBytes result[0]? 32
  let target ← validHexBytes result[2]? 32
  let height ← parseCortexHeight result[3]?
  let nonce := j.cortexNonce.getD random
  return (
    { algo := "c30", blob := some header, headerHash := some ("0x" ++ header)
      jobId := .text header, target := some target, proofsize := some 42, noncebytes := some 8
      nonceoffset := some 0, nonce := some (.text nonce), height := some height },
    { cortexNonce := some nonce })

/-- The packed difficulty of a Beam message: the low four bytes of its target. -/
def beamPacked (json : Json) (j : JobState) : Except String ℕ :=
  let raw := json.get? "difficulty"
  let packed := match raw with
    | none | some .null => j.beamDifficulty
    | some (.num n) => n.safeNat?
    | some (.str s) => if isDigits s then some (decimalValue s) else none
    | _ => none
  match packed.filter fun n => 0 < n && n ≤ 0xFFFFFFFF with
  | some n => .ok n
  | none => .error "Invalid Beam packed difficulty"

def beamNotifyJob (j : JobState) (json : Json) : Except String (Option (PoolJob × Recorded)) :=
  match poolJobId (json.get? "id"), validHexBytes (json.get? "input") 32 with
  | some jobId, some input => do
    let packed ← beamPacked json j
    return some (
      { algo := "beamhash3", headerHash := some input, jobId, difficulty := some packed
        target := some (repeatChar 56 '0' ++ String.ofList (Bytes.hexFixed 8 packed))
        xn := some (j.beamNonceprefix.getD "") },
      { beamDifficulty := some packed })
  | _, _ => return none

end MoMiner.Pool
