import MoMiner.Pool.Messages

/-!
# Accepting a job

Before a job becomes the last job of its pool, `handlePoolJob` settles its algorithm, fits a
native pool's extranonce into its nonce, and rejects a malformed target. What else `handlePoolJob`
does concerns the other pools: it is part of the controller.
-/

namespace MoMiner.Pool

open MoMiner.Js

def progpowAlgos : List String := ["kawpow", "firopow", "evrprogpow", "meowpow"]

def fullTargetAlgos : List String :=
  ["etchash", "octopus", "autolykos2", "fishhash", "c30", "equihash192_7", "zelhash", "zhash",
   "karlsenhashv2", "walahash", "hoohash", "verthash", "xelishashv3", "nexapow"]

/-- `jobTargetWork`: the work of a share, when the job says what it is. Only a dispatched
PearlHash job has a shape. -/
def jobTargetWork (algo : String) (target : Option String) (difficulty : Option ℚ)
    (shape : Option PearlShape) : Except String (Option ℕ) :=
  if algo = "beamhash3" then
    -- the packed difficulty stands for itself; `BigInt` takes integers only
    match difficulty.filter (· ≠ 0) with
    | none => .ok none
    | some d => if d.den = 1 then .ok (some d.num.toNat) else .error "Invalid BigInt"
  else match target.filter (· ≠ "") with
    | none => .ok none
    | some target => do
      let work ←
        if progpowAlgos.contains algo then kawpowTarget2diff target
        else if algo = "pearlhash" then match shape with
          | some shape => pearlhashTargetWork target shape.k shape.rank
          | none => .error "Invalid PearlHash K/rank"
        else if fullTargetAlgos.contains algo then target256ToWork target
        else target2diff target
      return some work

section

variable (host : Host) (s : Session) (job : PoolJob)

/-- The algorithm of a job: its own, the family of its pool, or the configured one. -/
def jobAlgorithm : Option String :=
  ((firstName [job.algo, s.jobAlgo, host.jobAlgo]).map normalizeAlgoName).filter (· ≠ "")

/-- The nonce of a generic job of a native pool, laid out around the pool's extranonce. -/
def fitExtraNonce (algo : String) : Except String PoolJob :=
  match job.submitMode, job.xn, s.job.extraNonce, s.job.extraNonce2Size with
  | none, none, some extraNonce, some size => do
    let width := job.noncebytes.getD (if algo = "c29" ∧ job.blob.getD "" ≠ "" then 8 else 4)
    throwIf ((width ≠ 4 ∧ width ≠ 8) ∨ extraNonce.length + 2 * size ≠ 2 * width)
      "Pool extranonce does not fit the job nonce"
    return { job with
      xn := some extraNonce
      extraNonce := some (job.extraNonce.getD extraNonce)
      extraNonce2Size := some (job.extraNonce2Size.getD size)
      noncebytes := some width
      nicehashMask :=
        if extraNonce = "" then some (job.nicehashMask.getD (repeatChar (2 * width) '0'))
        else job.nicehashMask }
  | _, _, _, _ => .ok job

/-- The job with its algorithm settled, before it is checked. -/
def settledJob : Except String PoolJob :=
  match jobAlgorithm host s job with
  | none => .error "Pool job has no algorithm"
  | some algo => do
    throwIf (s.native ∧ some algo ≠ s.jobAlgo) "Decoded pool job does not match its algorithm marker"
    let job ← if s.native then fitExtraNonce s job algo else pure job
    return { job with algo := some algo }

/-- The target is checked before the job is stored. The shape of a PearlHash job is chosen later,
so only its final threshold is. -/
def checkTarget : Except String Unit := do
  match job.target.filter (· ≠ "") with
  | none => return ()
  | some target =>
    let algo := job.algo.getD ""
    if algo = "pearlhash" then
      let _ ← target256ToWork target
    else
      let _ ← jobTargetWork algo (some target) job.difficulty none

/-- The job as it becomes the last job of its pool. -/
def storedJob : PoolJob := { job with submitResult := s.hasExtension "submit-result" }

/-- What `handlePoolJob` makes of a decoded job, the donation checks apart. -/
def acceptedJob : Except String PoolJob := do
  let job ← settledJob host s job
  checkTarget job
  return storedJob s job

end

end MoMiner.Pool
