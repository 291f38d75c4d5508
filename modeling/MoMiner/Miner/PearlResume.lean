import MoMiner.Miner.PearlSeed
import MoMiner.Miner.PearlShape

/-!
# Resuming a PearlHash search

A worker reports the seed it has reached when its job is replaced. `handleLastNonce` of
`miner/messages.js` stores the report in the job of the pool that is no longer active, and
`finalizePearlSeed` looks for a seed in that job when the pool becomes active again. The report has
sixteen digits and a carried seed has at most eight, so a stored report is never the seed.

Main result: `pearl_resume_iff`.
-/

namespace MoMiner.Miner

open MoMiner.Js MoMiner.Native MoMiner.Pool

/-! ## Storing the report of a worker -/

/-- A `last_nonce` message. -/
structure LastNonce where
  nonce : String
  poolId : String
  jobId : String
  jobToken : String

/-- The report of a PearlHash worker that has reached a seed. -/
def LastNonce.ofSeed (seed : ℕ) (poolId jobId jobToken : String) : LastNonce :=
  { nonce := nonceToHex seed 8, poolId, jobId, jobToken }

/-- `poolAt`, with the place of the pool. -/
def poolAt (pools : List Session) (poolId : String) : Option (ℕ × Session) :=
  if isDigits poolId then pools[decimalValue poolId]?.map (decimalValue poolId, ·) else none

/-- `/^[0-9a-f]{1,16}$/i`. -/
def isNonce (s : String) : Bool := s ≠ "" && isHex s && jsLength s ≤ 16

def isNewerNonce (prevNonce : Option Scalar) (newNonce : String) : Bool :=
  match prevNonce with
  | some (.number n) => match n.safeNat? with
    | some v => v < hexNumber newNonce
    | none => true
  | some (.text s) => !isNonce s || hexNumber s < hexNumber newNonce
  | none => true

/-- The digits of a nonce: a safe integer is written in hexadecimal. -/
def nonceDigits : Scalar → Option String
  | .number n => n.safeNat?.map toHexString
  | .text s => some s

def isValidNonce (value : Scalar) (noncebytes : ℕ) (noncePrefix : String) (requireNonzero : Bool) :
    Bool :=
  match nonceDigits value with
  | none => false
  | some hex =>
    let width := 2 * noncebytes
    (noncebytes = 4 || noncebytes = 8) && hex ≠ "" && isHex hex && jsLength hex ≤ width &&
      (!requireNonzero || hex.toList.any (· ≠ '0')) &&
      (toLowerCase (slice 0 width noncePrefix)).toList.isPrefixOf
        (toLowerCase (padStart width '0' hex)).toList

def matchingPoolJob (pool : Session) (jobId jobToken : String) : Option PoolJob :=
  pool.lastJob.filter fun job =>
    (match job.jobToken with
      | some (.str s) => s = jobToken
      | _ => false) && job.jobId.toText = jobId

inductive LastNonceOutcome
  | ignored
  | invalid
  /-- The job of a pool with the reported nonce. -/
  | stored (pool : ℕ) (job : PoolJob)

def handleLastNonce (pools : List Session) (active : ℕ) (value : LastNonce) : LastNonceOutcome :=
  if value.poolId = "" then .ignored
  else match poolAt pools value.poolId with
  | none => .invalid
  | some (poolId, pool) =>
    if isNonce value.nonce = false ∨ value.jobId = "" ∨ 256 < jsLength value.jobId ∨
        value.jobToken = "" ∨ 256 < jsLength value.jobToken then .invalid
    else if poolId = active then .ignored
    else match matchingPoolJob pool value.jobId value.jobToken with
    | none => .ignored
    | some job =>
      if job.noncebytes.any fun n => !isValidNonce (.text value.nonce) n (job.xn.getD "")
          (job.algo = some "beamhash3") then .invalid
      else if isNewerNonce job.nonce value.nonce then
        .stored poolId { job with nonce := some (.text value.nonce) }
      else .ignored

/-- What is stored is the job that the report names, with the reported nonce. -/
theorem handleLastNonce_stored {pools : List Session} {active i : ℕ} {value : LastNonce}
    {job : PoolJob} (h : handleLastNonce pools active value = .stored i job) :
    ∃ pool old, pools[i]? = some pool ∧ i ≠ active ∧ pool.lastJob = some old ∧
      job = { old with nonce := some (.text value.nonce) } := by
  unfold handleLastNonce at h
  by_cases hempty : value.poolId = ""
  · rw [if_pos hempty] at h
    cases h
  rw [if_neg hempty] at h
  cases hpool : poolAt pools value.poolId with
  | none =>
    rw [hpool] at h
    cases h
  | some found =>
    obtain ⟨poolId, pool⟩ := found
    simp only [hpool] at h
    split at h
    · cases h
    split at h
    · cases h
    · next hactive =>
      cases hold : matchingPoolJob pool value.jobId value.jobToken with
      | none =>
        rw [hold] at h
        cases h
      | some old =>
        simp only [hold] at h
        split_ifs at h
        cases h
        unfold poolAt at hpool
        split_ifs at hpool
        simp only [Option.map_eq_some_iff, Prod.mk.injEq] at hpool
        obtain ⟨pool', hpool, rfl, rfl⟩ := hpool
        rw [matchingPoolJob, Option.filter_eq_some_iff] at hold
        exact ⟨pool', old, hpool, hactive, hold.1, rfl⟩

/-! ## The seed of the stored job -/

theorem hexValue_digitChar {d : ℕ} (h : d < 16) : Bytes.hexValue (Nat.digitChar d) = some d := by
  interval_cases d <;> decide

/-- A padded number is read back. -/
theorem hexNumber_paddedHex (width n : ℕ) : hexNumber (paddedHex width n) = n := by
  have hzeros : ∀ k, (List.replicate k '0').foldl
      (fun v c => 16 * v + (Bytes.hexValue c).getD 0) 0 = 0 := by
    intro k
    induction k with
    | zero => rfl
    | succ k ih =>
      rw [List.replicate_succ', List.foldl_append, ih]
      rfl
  have hdigits : ∀ n, (Nat.toDigits 16 n).foldl
      (fun v c => 16 * v + (Bytes.hexValue c).getD 0) 0 = n := by
    intro n
    induction n using Nat.strong_induction_on with
    | _ n ih =>
      rw [Nat.toDigits_eq_if (by decide)]
      split_ifs with hlt
      · simp [hexValue_digitChar hlt]
      · rw [List.foldl_append, ih _ (Nat.div_lt_self (by omega) (by decide))]
        simp only [List.foldl_cons, List.foldl_nil, hexValue_digitChar (Nat.mod_lt n (by decide)),
          Option.getD_some]
        omega
  obtain ⟨k, hk⟩ := toList_paddedHex width n
  rw [hexNumber, hk, List.foldl_append, hzeros, hdigits]

theorem paddedHex_inj {width n m : ℕ} : paddedHex width n = paddedHex width m ↔ n = m := by
  refine ⟨fun h => ?_, fun h => h ▸ rfl⟩
  rw [← hexNumber_paddedHex width n, h, hexNumber_paddedHex]

/-- A report of sixteen digits is no carried seed. -/
theorem carriedSeed_report {prev : PoolJob} {x slot stride : ℕ} {accepted : Bool}
    (h : prev.nonce = some (.text (nonceToHex x 8))) :
    carriedSeed prev slot stride accepted = none := by
  have hlength : jsLength (nonceToHex x 8) = 16 := jsLength_hexFixed 16 x
  have hseed : pearlSeedHexValue (.text (nonceToHex x 8)) = none := by
    rw [pearlSeedHexValue, if_neg]
    omega
  rw [carriedSeed, h, Option.bind_some, hseed]
  split_ifs <;> rfl

/-- The workers still run a job of this pool that searches the same input in the same slot, from this
seed. -/
structure StillRuns (last : Option LastJob) (prev : PoolJob) (poolId stride slot seed : ℕ) :
    Prop where
  running : ∃ job, last = some job ∧ job.algo = "pearlhash" ∧ job.poolId = poolId ∧
    firstText prev.blob prev.blobHex ≠ "" ∧ job.blobHex = firstText prev.blob prev.blobHex ∧
    (∃ value, job.nonceStride = some value ∧ pearlSeedStride value = some stride) ∧
    ∃ nonce, job.nonce = some nonce ∧ pearlSeedHexValue nonce = some seed
  inSlot : seed % stride = slot

/-- The random choice falls on a seed. -/
structure Draws (slot stride threadNum random seed : ℕ) : Prop where
  workers : 1 ≤ threadNum
  room : slot + (threadNum - 1) * stride ≤ 0xffffffff
  seed_eq : seed = random % ((0xffffffff - (threadNum - 1) * stride - slot) / stride + 1) * stride +
    slot

theorem lastSeed_eq_some {last : Option LastJob} {prev : PoolJob}
    {poolId slot stride seed : ℕ} :
    lastSeed last prev poolId slot stride true = some seed ↔
      StillRuns last prev poolId stride slot seed := by
  constructor
  · intro h
    unfold lastSeed at h
    split at h
    · cases h
    · next job =>
      extract_lets input lastStride at h
      split_ifs at h with hsame hinput hstride
      simp only [not_or, not_not] at hsame hinput hstride
      simp only [Option.filter_eq_some_iff, Option.bind_eq_some_iff, decide_eq_true_eq] at h
      obtain ⟨⟨nonce, hnonce, hseed⟩, hslot⟩ := h
      obtain ⟨value, hvalue⟩ := Option.isSome_iff_exists.mp hsame.2.2
      refine ⟨⟨job, rfl, hsame.1, hsame.2.1, hinput.1, hinput.2, ⟨value, hvalue, ?_⟩,
        nonce, hnonce, hseed⟩, hslot⟩
      simpa [lastStride, hvalue] using hstride
  · rintro ⟨⟨job, rfl, halgo, hpool, hinput, hblob, ⟨value, hvalue, hstride⟩, nonce, hnonce, hseed⟩,
      hslot⟩
    simp [lastSeed, halgo, hpool, hinput, hblob, hvalue, hstride, hnonce, hseed, hslot]

theorem randomPearlSeed_eq_ok {slot stride threadNum random seed : ℕ} :
    randomPearlSeed slot stride threadNum random = .ok (paddedHex 8 seed) ↔
      Draws slot stride threadNum random seed := by
  unfold randomPearlSeed
  extract_lets maximum choices start
  have hmaximum : 1 ≤ threadNum → maximum = 0xffffffff - ((threadNum - 1 : ℕ) * stride : ℕ) := by
    intro h
    push_cast [Nat.cast_sub h]
    rfl
  have hbad : (threadNum < 1 ∨ maximum < slot) ↔
      ¬(1 ≤ threadNum ∧ slot + (threadNum - 1) * stride ≤ 0xffffffff) := by
    constructor
    · rintro (h | h) ⟨hworkers, hroom⟩
      · omega
      · have := hmaximum hworkers
        omega
    · intro h
      by_cases hworkers : 1 ≤ threadNum
      · have := hmaximum hworkers
        have hroom := fun hle => h ⟨hworkers, hle⟩
        omega
      · exact .inl (not_le.mp hworkers)
  have hstart : 1 ≤ threadNum → start =
      random % ((0xffffffff - (threadNum - 1) * stride - slot) / stride + 1) * stride + slot := by
    intro h
    have htoNat : maximum.toNat = 0xffffffff - (threadNum - 1) * stride := by
      have := hmaximum h
      omega
    rw [show start = random % choices * stride + slot from rfl,
      show choices = (maximum.toNat - slot) / stride + 1 from rfl, htoNat]
  constructor
  · intro h
    by_cases hlow : threadNum < 1 ∨ maximum < slot
    · rw [if_pos hlow] at h
      cases h
    · rw [if_neg hlow] at h
      obtain ⟨hworkers, hroom⟩ := not_not.mp (mt hbad.mpr hlow)
      exact ⟨hworkers, hroom, (paddedHex_inj.mp (Except.ok.inj h)).symm.trans (hstart hworkers)⟩
  · rintro ⟨hworkers, hroom, rfl⟩
    rw [if_neg (mt hbad.mp (not_not.mpr ⟨hworkers, hroom⟩)), hstart hworkers]

/-- The seed of a job that carries a report. -/
theorem finalizePearlSeed_report {pool : Session} {last : Option LastJob} {job : PoolJob}
    {poolId x threadNum random stride slot : ℕ} (hnonce : job.nonce = some (.text (nonceToHex x 8)))
    (haccepted : splitAccepted pool = true) (hstride : seedStride pool job = .ok stride)
    (hslot : seedSlot pool job stride = .ok slot) :
    (∃ seed, finalizePearlSeed pool last job poolId threadNum random = .ok seed ∧
      hexNumber seed.nonce = x) ↔
    StillRuns last job poolId stride slot x ∨
      (∀ seed, ¬StillRuns last job poolId stride slot seed) ∧
        Draws slot stride threadNum random x := by
  have hreuse : reusablePearlSeed last job poolId slot stride true =
      (lastSeed last job poolId slot stride true).map (paddedHex 8) := by
    rw [reusablePearlSeed, resumedSeed, carriedSeed_report hnonce, Option.none_or]
  have hfinal : (∃ seed, finalizePearlSeed pool last job poolId threadNum random = .ok seed ∧
      hexNumber seed.nonce = x) ↔
      ∃ nonce, chosenSeed last job poolId slot stride true threadNum random = .ok nonce ∧
        hexNumber nonce = x := by
    simp only [finalizePearlSeed, haccepted, hstride, hslot, bind, Except.bind]
    cases chosenSeed last job poolId slot stride true threadNum random with
    | error message => simp
    | ok nonce => simp [pure, Except.pure]
  rw [hfinal, chosenSeed, hreuse]
  cases hlast : lastSeed last job poolId slot stride true with
  | some seed =>
    have hruns := lastSeed_eq_some.mp hlast
    simp only [Option.map_some, Except.ok.injEq, exists_eq_left', hexNumber_paddedHex]
    constructor
    · rintro rfl
      exact .inl hruns
    · rintro (h | ⟨hnone, -⟩)
      · rw [lastSeed_eq_some.mpr h] at hlast
        exact (Option.some.inj hlast).symm
      · exact absurd hruns (hnone seed)
  | none =>
    have hnone : ∀ seed, ¬StillRuns last job poolId stride slot seed := by
      intro seed h
      rw [lastSeed_eq_some.mpr h] at hlast
      cases hlast
    simp only [Option.map_none]
    constructor
    · rintro ⟨nonce, h, rfl⟩
      have hlt := seedSlot_lt hslot
      obtain ⟨seed, rfl, -, -⟩ := randomPearlSeed_ok hlt h
      rw [hexNumber_paddedHex]
      exact .inr ⟨hnone, randomPearlSeed_eq_ok.mp h⟩
    · rintro (h | ⟨-, h⟩)
      · exact absurd h (hnone x)
      · exact ⟨_, randomPearlSeed_eq_ok.mpr h, hexNumber_paddedHex 8 x⟩

/-- **Resuming a search.** A stored report brings the search back to its seed exactly when the seed
comes from elsewhere: the workers still run the job from it, or no such job runs and the random
choice falls on it. -/
theorem pearl_resume_iff {pools : List Session} {active i x : ℕ} {poolId jobId jobToken : String}
    {pool : Session} {last : Option LastJob} {job : PoolJob} {threadNum random stride slot : ℕ}
    (hstored : handleLastNonce pools active (.ofSeed x poolId jobId jobToken) = .stored i job)
    (haccepted : splitAccepted pool = true) (hstride : seedStride pool job = .ok stride)
    (hslot : seedSlot pool job stride = .ok slot) :
    (∃ seed, finalizePearlSeed pool last job i threadNum random = .ok seed ∧
      hexNumber seed.nonce = x) ↔
    StillRuns last job i stride slot x ∨
      (∀ seed, ¬StillRuns last job i stride slot seed) ∧ Draws slot stride threadNum random x := by
  obtain ⟨-, old, -, -, -, hjob⟩ := handleLastNonce_stored hstored
  have hnonce : job.nonce = some (.text (nonceToHex x 8)) := by rw [hjob]; rfl
  exact finalizePearlSeed_report hnonce haccepted hstride hslot

/-! ### A report of seed 5, while another pool is active -/

def reportedJob : PoolJob := { jobId := .text "j", jobToken := some (.str "t") }

/-- The pool that is no longer active, with its job. -/
def idlePool : Session := { splitPool with lastJob := some reportedJob }

def resumedJob : PoolJob := { reportedJob with nonce := some (.text "0000000000000005") }

theorem handleLastNonce_five :
    handleLastNonce [idlePool, {}] 1 (.ofSeed 5 "0" "j" "t") = .stored 0 resumedJob := by
  rfl

theorem pearl_resume_iff_five :
    (∃ seed, finalizePearlSeed idlePool none resumedJob 0 1 7 = .ok seed ∧
      hexNumber seed.nonce = 5) ↔
    StillRuns none resumedJob 0 1 0 5 ∨
      (∀ seed, ¬StillRuns none resumedJob 0 1 0 seed) ∧ Draws 0 1 1 7 5 :=
  pearl_resume_iff handleLastNonce_five (by decide +kernel)
    (by decide +kernel) (by decide +kernel)

/-- The stored report is passed over for a random seed. -/
theorem pearl_report_lost :
    ¬∀ (pools : List Session) (active i x : ℕ) (poolId jobId jobToken : String) (pool : Session)
      (last : Option LastJob) (job : PoolJob) (threadNum random stride slot : ℕ),
      x < 2 ^ 32 → x % stride = slot →
      handleLastNonce pools active (.ofSeed x poolId jobId jobToken) = .stored i job →
      splitAccepted pool = true → seedStride pool job = .ok stride →
      seedSlot pool job stride = .ok slot →
      ∃ seed, finalizePearlSeed pool last job i threadNum random = .ok seed ∧
        hexNumber seed.nonce = x := by
  intro h
  obtain ⟨seed, hseed, hx⟩ := h [idlePool, {}] 1 0 5 "0" "j" "t" idlePool none resumedJob 1 7 1 0
    (by decide) (by decide) handleLastNonce_five (by decide +kernel) (by decide +kernel)
    (by decide +kernel)
  have hrandom : finalizePearlSeed idlePool none resumedJob 0 1 7 = .ok ⟨"00000007", some 1⟩ := by
    decide +kernel
  rw [hrandom] at hseed
  cases hseed
  exact absurd hx (by decide)

end MoMiner.Miner
