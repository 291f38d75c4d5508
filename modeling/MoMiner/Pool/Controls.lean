import MoMiner.Pool.State

/-!
# Pool controls

`mining.set_target`, `mining.set_difficulty` and `set_extranonce` set the parameters of the jobs
that follow. What a control writes depends on the dialect only, and it writes nothing but the job
state: `applyPoolControl` maps a `JobState` to a `JobState`.
-/

namespace MoMiner.Pool

open MoMiner.Js

/-! ## Reading fields of messages -/

/-- The text of a value without a `0x` mark; anything but a string reads as empty. -/
def hexWithoutPrefix : Option Json → String
  | some (.str s) => stripHexMark s
  | _ => ""

/-- `validExtraNonce`: one to eight bytes of hexadecimal, or the empty text. -/
def validExtraNonce (value : Option Json) : String :=
  let hex := hexWithoutPrefix value
  if 0 < jsLength hex ∧ jsLength hex % 2 = 0 ∧ jsLength hex ≤ 16 ∧ isHex hex then hex else ""

/-- `validHexBytes`: exactly so many bytes of hexadecimal. -/
def validHexBytes (value : Option Json) (bytes : ℕ) : Option String :=
  let hex := hexWithoutPrefix value
  if hex ≠ "" ∧ jsLength hex = 2 * bytes ∧ isHex hex then some hex else none

/-- `boundedHex`: at least one digit and at most so many bytes of hexadecimal. -/
def boundedHex (value : String) (maximumBytes : ℕ) : Bool :=
  let hex := stripHexMark value
  hex ≠ "" && jsLength hex ≤ 2 * maximumBytes && isHex hex

/-- `/^(0|[1-9]\d*)$/`. -/
def isCanonicalDecimal (s : String) : Bool :=
  isDigits s && (s = "0" || s.toList.head? ≠ some '0')

def unsignedDecimal (value : Option Json) (maximum : ℕ) (label : String) : Except String ℕ := do
  let parsed ← match value with
    | some (.num n) => match n.safeNat? with
      | some v => pure v
      | none => .error ("Invalid " ++ label)
    | some (.str s) =>
      if isCanonicalDecimal s then pure (decimalValue s) else .error ("Invalid " ++ label)
    | _ => .error ("Invalid " ++ label)
  throwIf (maximum < parsed) (label ++ " is out of range")
  return parsed

def positiveDifficulty (host : Host) (value : Option Json) (label : String) :
    Except String ℚ :=
  let positive (n : Number) : Except String ℚ :=
    match n.finite? with
    | some q => if 0 < q then .ok q else .error ("Invalid " ++ label ++ " difficulty")
    | none => .error ("Invalid " ++ label ++ " difficulty")
  match value with
  | some (.num n) => positive n
  | some (.str s) =>
    if (parseDecimal s).isSome then positive (host.number s)
    else .error ("Invalid " ++ label ++ " difficulty")
  | _ => .error ("Invalid " ++ label ++ " difficulty")

def xelisDifficulty (value : Option Json) : Except String ℕ := do
  let difficulty ← unsignedDecimal value uint256Max "XELIS difficulty"
  throwIf (difficulty = 0) "XELIS difficulty must be positive"
  return difficulty

def kaspaDiff1Target : ℕ := 2 ^ 224 - 1

def kaspaDiffToTarget (host : Host) (diff : Option Json) : Except String String := do
  let _ ← positiveDifficulty host diff "Kaspa"
  let ratio ← match diff.bind Json.scalar? with
    | some value => decimalToRatio value
    | none => .error "Invalid decimal value"
  return fullDiff2Target ratio kaspaDiff1Target

/-- The size of the miner's part of an extranonce, when the value denotes one. -/
def extraNonceSize? (value : Json) : Option ℕ :=
  let size := match value with
    | .num n => n.safeNat?
    | .str s => if isDigits s then some (decimalValue s) else none
    | _ => none
  size.filter (· ≤ 8)

/-! ## The controls -/

/-- The control a message is. Ironfish sends its target in `body`. -/
def control? (json : Json) : Option Control :=
  match json.items? "params" with
  | some (value :: rest) =>
    if json.methodIs "mining.set_target" then some (.target value)
    else if json.methodIs "mining.set_difficulty" then some (.difficulty value)
    else if json.methodIs "set_extranonce" || json.methodIs "mining.set_extranonce" then
      some (.extranonce value rest)
    else none
  | _ =>
    if json.methodIs "mining.set_target" then
      ((json.object? "body").bind (·.text? "target")).map fun t => .target (.str t)
    else none

def controlKind (json : Json) : Option ControlKind := (control? json).map Control.kind

/-- The algorithm a message is marked with, outside or inside its parameters. -/
def messageAlgorithm (value : Json) : Except String (Option String) :=
  let nested := (value.object? "params").or (value.object? "job")
  let name (j : Json) : Option String :=
    ((j.text? "algo").map normalizeAlgoName).filter (· ≠ "")
  match name value, nested.bind name with
  | some outer, some inner =>
    if outer = inner then .ok (some outer) else .error "Conflicting pool algorithm markers"
  | outer, inner => .ok (outer.or inner)

/-! ## What the controls write -/

namespace JobState

def rememberPoolExtraNonceHex (j : JobState) (value : Option Json) : JobState :=
  let extraNonce := validExtraNonce value
  if extraNonce ≠ "" ∨ value.any (Json.isText "") then { j with extraNonce := some extraNonce }
  else j

def rememberExtraNonceSize (j : JobState) (value : Option Json) : Except String JobState :=
  match value with
  | none => .ok j
  | some v => match extraNonceSize? v with
    | some size => .ok { j with extraNonce2Size := some size }
    | none => .error "Invalid extra_nonce2_size"

/-- `rememberXelisExtranonce`, on the parameters of a `set_extranonce`. -/
def rememberXelisExtranonce (j : JobState) (value : Json) (rest : List Json) : JobState :=
  let extraNonce := validHexBytes (some value) 32
  if 2 ≤ rest.length then
    match extraNonce, validHexBytes rest[1]? 32 with
    | some xn, some key => { j with xelisExtraNonce := some xn, xelisPublicKey := some key }
    | _, _ => { j with xelisExtraNonce := some "", xelisPublicKey := some "" }
  else match extraNonce with
    | some xn => { j with xelisExtraNonce := some xn }
    | none => j

def rememberXelisSubscribeExtraNonce (j : JobState) : Option Json → JobState
  | some (.arr result) =>
    { j with
      xelisExtraNonce := some ((validHexBytes result[1]? 32).getD "")
      xelisPublicKey := some ((validHexBytes result[3]? 32).getD "") }
  | _ => j

/-- The entries of a subscribe result that may be the extranonce. -/
def subscribeExtraNonceCandidates : Option Json → List (Option Json)
  | some (.arr result) =>
    if result[0]?.any Json.isArray || Json.isNullish result[0]? then [result[1]?]
    else result.map some
  | _ => []

def subscribeExtraNonce2Size : Option Json → Option ℕ
  | some (.arr result) =>
    if result[0]?.any Json.isArray || Json.isNullish result[0]? then result[2]?.bind extraNonceSize?
    else none
  | _ => none

def rememberSubscribeExtraNonce (dialect : Dialect) (j : JobState) (result : Option Json) :
    JobState :=
  if dialect = .xelis then j.rememberXelisSubscribeExtraNonce result
  else
    let found := (subscribeExtraNonceCandidates result).find? fun v => validExtraNonce v ≠ ""
    let j := j.rememberPoolExtraNonceHex found.join
    match subscribeExtraNonce2Size result with
    | some size => { j with extraNonce2Size := some size }
    | none => j

end JobState

/-- The first of two optional texts that is not empty: `a || b || ""`. -/
def firstText (a b : Option String) : String := (firstName [a, b]).getD ""

/-- `ravenTarget`: the target of a notification, or the one set before, padded on the right. -/
def ravenTarget (j : JobState) (notifyTarget : Option Json) : Except String String := do
  let raw :=
    if Json.isNullish notifyTarget || notifyTarget.any (Json.isText "") then
      some (.str (firstText j.ravenTarget j.stratumTarget))
    else notifyTarget
  let target := hexWithoutPrefix raw
  throwIf (¬boundedHex target 32) "Invalid Raven target"
  return padEnd 64 '0' target

def handleSetTarget (dialect : Dialect) (j : JobState) (target : Json) :
    Except String JobState :=
  match target with
  | .str text => do
    if dialect = .raven then
      let target ← ravenTarget j (some target)
      return { j with ravenTarget := some target }
    let hex := stripHexMark text
    let _ ← target256ToWork hex
    match dialect with
    | .eth => return { j with ethTarget := some hex }
    | .zelhash => return { j with zelhashTarget := some (padStart 64 '0' hex) }
    | .ironfish => return { j with ironfishTarget := some (padStart 64 '0' hex) }
    | _ => return { j with stratumTarget := some hex }
  | _ => .error "Invalid pool target message"

def handleSetDifficulty (host : Host) (dialect : Dialect) (j : JobState) (raw : Json) :
    Except String JobState := do
  if dialect = .xelis then
    let exact ← xelisDifficulty (some raw)
    let kept := match raw with
      | .str s => Scalar.text s
      | _ => .number (.finite exact)
    return { j with xelisDifficulty := some kept }
  let difficulty ← positiveDifficulty host (some raw) "pool"
  let j := { j with ethDifficulty := some difficulty }
  match dialect with
  | .verthash => return { j with verthashDifficulty := some difficulty }
  | .pearlhash => return { j with pearlhashDifficulty := some difficulty }
  | .kaspa | .hoosat =>
    let target ← kaspaDiffToTarget host (some raw)
    return { j with kaspaDifficulty := some difficulty, kaspaTarget := some target }
  | .echelon =>
    return { j with
      nexaDifficulty := some difficulty
      nexaTarget := some (ethDiff2Target difficulty 1) }
  | _ => return j

def handleSetExtranonce (dialect : Dialect) (j : JobState) (value : Json) (rest : List Json) :
    Except String JobState := do
  if dialect = .xelis then return j.rememberXelisExtranonce value rest
  let pre := validExtraNonce (some value)
  throwIf (pre = "" ∧ ¬value.isText "") "Invalid pool extranonce"
  let j := { j with extraNonce := some pre }
  let j ← match dialect with
    | .ironfish => pure { j with ironfishXn := some pre }
    | .beam => do
      throwIf (12 < pre.length) "Invalid Beam nonce prefix"
      pure { j with beamNonceprefix := some pre }
    | _ => pure j
  j.rememberExtraNonceSize rest[0]?

def applyPoolControl (host : Host) (dialect : Dialect) (j : JobState) :
    Control → Except String JobState
  | .target value => handleSetTarget dialect j value
  | .difficulty raw => handleSetDifficulty host dialect j raw
  | .extranonce value rest => handleSetExtranonce dialect j value rest

end MoMiner.Pool
