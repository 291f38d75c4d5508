import MoMiner.Native.Core

/-!
# Commands of the native worker

`Core::process_message` for the commands that touch a search (`native/core/commands.inc`), with
the target parsing of `native/core/messages.inc`. A job command reports the position of the
search that it replaces, under the ids of the replaced job, once the new job is installed.
-/

namespace MoMiner.Native

open MoMiner.Bytes

/-! ## Targets -/

def stripHexPrefix (value : List Char) : List Char :=
  if hasHexPrefix value then value.drop 2 else value

def parsePaddedLeHex (hex : List Char) (bytes : ℕ) : Except String ℕ :=
  match ofHex (hex ++ List.replicate (2 * bytes - hex.length) '0') with
  | none => .error "Bad target hex"
  | some bs => .ok (ofLE bs)

def parseHighTargetWord (target : List Char) : Except String ℕ := do
  throwIf (target = [] ∨ hashLen * 2 < target.length) "Bad target hex"
  throwIf (¬target.all (fun c => (hexValue c).isSome)) "Bad target hex"
  let target64 := target.take 16
  match ofHex (target64 ++ List.replicate (16 - target64.length) '0') with
  | none => .error "Bad target hex"
  | some bs =>
    throwIf (ofBE bs = 0) "Bad target hex"
    return ofBE bs

def parseTargetHex (target : List Char) (isKawpow : Bool) : Except String ℕ := do
  if isKawpow = true ∨ 16 < target.length then parseHighTargetWord target
  else
    let value ← parsePaddedLeHex target (if target.length ≤ 8 then 4 else 8)
    throwIf (value = 0) "Bad target hex"
    if 8 < target.length then return value
    return (2 ^ 64 - 1) / ((2 ^ 32 - 1) / value)

/-- `parse_big_target_hex`, without the bytes: only the compute functions read those. -/
def checkBigTargetHex (target : List Char) : Except String Unit := do
  let hex := stripHexPrefix target
  throwIf (hex = [] ∨ hashLen * 2 < hex.length ∨ hex.length % 2 = 1) "Bad target hex"
  match ofHex hex with
  | none => .error "Bad target hex"
  | some bs => throwIf (bs.all (· == 0)) "Bad target hex"

def bigTargetAlgos : List String :=
  ["etchash", "octopus", "autolykos2", "pearlhash", "fishhash", "c30", "equihash192_7", "zelhash",
   "zhash", "beamhash3", "karlsenhashv2", "hoohash", "walahash", "verthash", "xelishashv3",
   "nexapow"]

/-- The share target of a job message: one 64-bit word, or 1 for the algorithms that compare all
32 bytes. -/
def jobTarget (algo : String) (target : List Char) : Except String ℕ := do
  if bigTargetAlgos.contains algo then
    checkBigTargetHex target
    return 1
  else parseTargetHex target (algo == "kawpow")

/-! ## Commands -/

/-- The ids that a job message carries to the results of its search. -/
structure JobIds where
  target : ℕ
  poolId : String
  workerId : String
  jobId : String
  jobToken : String
  headerHash : String

def parseIds (v : MessageValues) : Except String JobIds := do
  let target ← required v "target"
  let poolId ← required v "pool_id"
  let workerId ← required v "worker_id"
  let jobId ← required v "job_id"
  let jobToken ← required v "job_token"
  throwIf (jobToken = "") "Missing job_token job key"
  let text := stripHexPrefix target.toList
  throwIf (text.length % 2 = 1) "Bad target hex"
  let target ← jobTarget (optStr v "algo") text
  return { target, poolId, workerId, jobId, jobToken, headerHash := optStr v "header_hash" }

def Core.setIds (ids : JobIds) (c : Core) : Core :=
  { c with target := ids.target, poolId := ids.poolId, workerId := ids.workerId,
           jobId := ids.jobId, jobToken := ids.jobToken, headerHash := ids.headerHash }

/-- Report the position of the search that a command replaced. -/
def Core.reportPrevious (previous : Core) (c : Core) : Core :=
  if previous.lastNonce = 0 then c
  else c.sendLastNonce previous.lastNonce previous.shape.nonceBytes previous.poolId previous.jobId
    previous.jobToken

def Core.processJob (env : Env) (memory : Option String) (v : MessageValues) (c : Core) :
    Outcome :=
  match parseIds v with
  | .error message => .threw message c
  | .ok ids =>
    match c.setJob env .mine true memory v (Core.setIds ids) with
    | .threw message c' => .threw message c'
    | .done c' => .done (c.reportPrevious c')

/-- The `bench` and `test` commands. -/
def Core.processBench (env : Env) (memory : Option String) (isBench : Bool) (v : MessageValues)
    (c : Core) : Outcome :=
  match c.setJob env (if isBench then .bench else .test) isBench memory v id with
  | .threw message c' => .threw message c'
  | .done c' => .done (c.reportPrevious c')

def Core.processPause (c : Core) : Core := c.stopRxThreads.clearFn

/-- The `close` command, after which the worker leaves its loop. -/
def Core.processClose (c : Core) : Core := (c.reportPrevious c).stopRxThreads

/-- The message loop turns an exception into an error message and goes on. -/
def Outcome.caught : Outcome → Core
  | .done c => c
  | .threw message c => c.send (.error ("Message processing exception: " ++ message))

/-! ## A mining target is never zero -/

theorem parseHighTargetWord_pos {target : List Char} {n : ℕ}
    (h : parseHighTargetWord target = .ok n) : n ≠ 0 := by
  simp only [parseHighTargetWord, Except.bind_eq_ok, throwIf_eq_ok] at h
  obtain ⟨-, -, -, -, h⟩ := h
  split at h
  · cases h
  · simp only [Except.bind_eq_ok, throwIf_eq_ok] at h
    obtain ⟨-, hne, h⟩ := h
    cases h
    exact hne

theorem parsePaddedLeHex_lt {hex : List Char} {bytes n : ℕ} (hl : hex.length ≤ 2 * bytes)
    (h : parsePaddedLeHex hex bytes = .ok n) : n < 256 ^ bytes := by
  unfold parsePaddedLeHex at h
  split at h
  · cases h
  · rename_i bs hbs
    cases h
    have hlen := length_of_ofHex hbs
    rw [List.length_append, List.length_replicate, Nat.add_sub_cancel' hl] at hlen
    have := ofLE_lt bs
    rwa [show bs.length = bytes by omega] at this

theorem parseTargetHex_pos {target : List Char} {isKawpow : Bool} {n : ℕ}
    (h : parseTargetHex target isKawpow = .ok n) : n ≠ 0 := by
  unfold parseTargetHex at h
  by_cases hk : isKawpow = true ∨ 16 < target.length
  · rw [if_pos hk] at h
    exact parseHighTargetWord_pos h
  rw [if_neg hk] at h
  simp only [Except.bind_eq_ok, throwIf_eq_ok] at h
  obtain ⟨value, hvalue, -, hne, h⟩ := h
  by_cases hl : 8 < target.length
  · rw [if_pos hl] at h
    cases h
    exact hne
  · rw [if_neg hl] at h
    cases h
    -- The short form divides 2^64 - 1 by a quotient between 1 and 2^32 - 1.
    rw [if_pos (not_lt.mp hl)] at hvalue
    have hlt : value < 2 ^ 32 := parsePaddedLeHex_lt (by omega) hvalue
    have quotient_pos : 0 < (2 ^ 32 - 1) / value :=
      Nat.div_pos (by omega) (Nat.pos_of_ne_zero hne)
    have small : (2 ^ 32 - 1) / value ≤ 2 ^ 64 - 1 :=
      le_trans (Nat.div_le_self _ _) (by decide)
    exact (Nat.div_pos small quotient_pos).ne'

theorem jobTarget_pos {algo : String} {target : List Char} {n : ℕ}
    (h : jobTarget algo target = .ok n) : n ≠ 0 := by
  unfold jobTarget at h
  split_ifs at h
  · simp only [Except.bind_eq_ok] at h
    obtain ⟨-, -, h⟩ := h
    cases h
    decide
  · exact parseTargetHex_pos h

theorem parseIds_target_pos {v : MessageValues} {ids : JobIds} (h : parseIds v = .ok ids) :
    ids.target ≠ 0 := by
  simp only [parseIds, Except.bind_eq_ok, throwIf_eq_ok] at h
  obtain ⟨_, -, _, -, _, -, _, -, _, -, _, -, _, -, target, ht, h⟩ := h
  cases h
  exact jobTarget_pos ht

end MoMiner.Native
