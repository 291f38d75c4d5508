import MoMiner.Native.Numerals
import MoMiner.Native.Partition
import MoMiner.Pool.Controls

/-!
# The seed partition of PearlHash

A proxy that acknowledges `pearl-seed-split` gives every client a slot of a power-of-two stride.
The controller chooses a base seed of the slot, at random or resumed from an earlier job
(`finalizePearlSeed` of `miner/jobs.js`), and the native workers walk from it in steps of the
stride. `pearl_seed_partition` says which seeds the workers search: those of the slot, each at
most once. A random base leaves room for every worker; a resumed one is not checked for it.
-/

namespace MoMiner.Miner

open MoMiner.Js MoMiner.Native MoMiner.Pool

/-! ## Choosing the seed -/

/-- The fields of the job that the workers run, as far as the next seed depends on them. -/
structure LastJob where
  algo : String
  poolId : ℕ
  blobHex : String
  nonce : Option Scalar
  nonceStride : Option Json

/-- The seed fields of a finished job. -/
structure PearlSeed where
  nonce : String
  nonceStride : Option ℕ
  deriving DecidableEq

def seedNumber (n : Number) : Option ℕ := n.safeNat?.filter (· ≤ 0xffffffff)

def pearlSeedValue (value : Json) (decimalOnly : Bool) : Option ℕ :=
  match value with
  | .num n => seedNumber n
  | .str s =>
    if 16 < jsLength s ∨ (if decimalOnly then isDigits s else s ≠ "" && isHex s) = false then none
    else
      let parsed := if decimalOnly || isDigits s then decimalValue s else hexNumber s
      if parsed ≤ 0xffffffff then some parsed else none
  | _ => none

def pearlSeedStride (value : Json) : Option ℕ :=
  match pearlSeedValue value true with
  | none => none
  | some stride => if stride = 0 ∨ stride &&& (stride - 1) ≠ 0 then none else some stride

def randomPearlSeed (slot stride threadNum random : ℕ) : Except String String :=
  let maximum : ℤ := 0xffffffff - ((threadNum : ℤ) - 1) * stride
  if threadNum < 1 ∨ maximum < slot then .error "PearlHash seed range is exhausted"
  else
    let choices := (maximum.toNat - slot) / stride + 1
    let start := random % choices * stride + slot
    .ok (paddedHex 8 start)

def pearlSeedHexValue : Scalar → Option ℕ
  | .number n => seedNumber n
  | .text s => if s ≠ "" ∧ isHex s = true ∧ jsLength s ≤ 8 then some (hexNumber s) else none

/-- The seed that the previous job carries, when it belongs to the slot. -/
def carriedSeed (prev : PoolJob) (slot stride : ℕ) (accepted : Bool) : Option ℕ :=
  if accepted then (prev.nonce.bind pearlSeedHexValue).filter (· % stride = slot) else none

/-- The seed of the running job, when it searches the same input in the same slot. -/
def lastSeed (last : Option LastJob) (prev : PoolJob) (poolId slot stride : ℕ) (accepted : Bool) :
    Option ℕ :=
  match last with
  | none => none
  | some last =>
    let input := firstText prev.blob prev.blobHex
    let lastStride := match last.nonceStride with
      | none => some 1
      | some value => pearlSeedStride value
    if last.algo ≠ "pearlhash" ∨ last.poolId ≠ poolId ∨ last.nonceStride.isSome ≠ accepted then none
    else if input = "" ∨ last.blobHex ≠ input then none
    else if lastStride ≠ some stride then none
    else (last.nonce.bind pearlSeedHexValue).filter (· % stride = slot)

def resumedSeed (last : Option LastJob) (prev : PoolJob) (poolId slot stride : ℕ)
    (accepted : Bool) : Option ℕ :=
  (carriedSeed prev slot stride accepted).or (lastSeed last prev poolId slot stride accepted)

def reusablePearlSeed (last : Option LastJob) (prev : PoolJob) (poolId slot stride : ℕ)
    (accepted : Bool) : Option String :=
  (resumedSeed last prev poolId slot stride accepted).map (paddedHex 8)

/-- The proxy acknowledged the seed split. -/
def splitAccepted (pool : Session) : Bool := pool.hasExtension "pearl-seed-split"

def seedStride (pool : Session) (prev : PoolJob) : Except String ℕ :=
  match if splitAccepted pool then prev.nonceStride else none with
  | none => .ok 1
  | some raw =>
    match pearlSeedStride raw with
    | none => .error "Invalid PearlHash seed stride"
    | some stride => .ok stride

def seedSlot (pool : Session) (prev : PoolJob) (stride : ℕ) : Except String ℕ :=
  let slot := match if splitAccepted pool then prev.nonceSlot else none with
    | none => some 0
    | some raw => pearlSeedValue raw false
  match slot with
  | none => .error "Invalid PearlHash seed slot"
  | some slot => if stride ≤ slot then .error "Invalid PearlHash seed slot" else .ok slot

/-- `resumed || randomPearlSeed(...)`. -/
def chosenSeed (last : Option LastJob) (prev : PoolJob) (poolId slot stride : ℕ) (accepted : Bool)
    (threadNum random : ℕ) : Except String String :=
  match reusablePearlSeed last prev poolId slot stride accepted with
  | some seed => .ok seed
  | none => randomPearlSeed slot stride threadNum random

def finalizePearlSeed (pool : Session) (last : Option LastJob) (prev : PoolJob)
    (poolId threadNum random : ℕ) : Except String PearlSeed := do
  let accepted := splitAccepted pool
  let stride ← seedStride pool prev
  let slot ← seedSlot pool prev stride
  let nonce ← chosenSeed last prev poolId slot stride accepted threadNum random
  return { nonce, nonceStride := if accepted then some stride else none }

/-! ## What the chosen seed is -/

variable {pool : Session} {last : Option LastJob} {prev : PoolJob}
  {poolId threadNum random stride slot : ℕ} {job : PearlSeed}

theorem seedSlot_lt (h : seedSlot pool prev stride = .ok slot) : slot < stride := by
  unfold seedSlot at h
  extract_lets chosen at h
  cases hc : chosen with
  | none => simp [hc] at h
  | some n =>
    simp only [hc] at h
    split_ifs at h with hle
    cases h
    exact not_le.mp hle

/-- A random seed belongs to the slot and leaves room for every worker. -/
theorem randomPearlSeed_ok {text : String} (hslot : slot < stride)
    (h : randomPearlSeed slot stride threadNum random = .ok text) :
    ∃ seed, text = paddedHex 8 seed ∧ seed % stride = slot ∧
      seed + (threadNum - 1) * stride < 2 ^ 32 := by
  unfold randomPearlSeed at h
  extract_lets maximum choices start at h
  split_ifs at h with hbad
  cases h
  refine ⟨start, rfl, ?_, ?_⟩
  · rw [show start = random % choices * stride + slot from rfl, Nat.mul_add_mod',
      Nat.mod_eq_of_lt hslot]
  · have hsteps : random % choices ≤ (maximum.toNat - slot) / stride :=
      Nat.le_of_lt_succ (Nat.mod_lt _ (Nat.succ_pos _))
    have hstart : random % choices * stride ≤ maximum.toNat - slot :=
      (Nat.le_div_iff_mul_le (by omega)).mp hsteps
    have hmax : maximum = 0xffffffff - ((threadNum - 1 : ℕ) * stride : ℕ) := by
      push_cast [Nat.cast_sub (show 1 ≤ threadNum by omega)]
      rfl
    have hstart' : start = random % choices * stride + slot := rfl
    omega

/-- The message that brings the job to worker `t` of `threadNum`: the seed keys of
`startWorkerJob`, and any others. -/
structure PearlSeed.SentTo (job : PearlSeed) (t threadNum : ℕ) (v : MessageValues) : Prop where
  nonce : v.lookup "nonce" = some job.nonce
  stride : v.lookup "nonce_stride" = job.nonceStride.map toString
  threadId : v.lookup "thread_id" = some (toString t)
  threadNum : v.lookup "thread_num" = some (toString threadNum)

/-- The seed keys alone. -/
def PearlSeed.message (job : PearlSeed) (t threadNum : ℕ) : MessageValues :=
  [("nonce", job.nonce), ("thread_id", toString t), ("thread_num", toString threadNum)] ++
    (job.nonceStride.map fun n => ("nonce_stride", toString n)).toList

/-- The seed keys of a message pass the checks of `Core::set_job`. -/
structure SeedAccepted (v : MessageValues) (t num seed stride start : ℕ) : Prop where
  threadId : optUint v "thread_id" 0 = .ok t
  threadNum : optUint v "thread_num" 1 = .ok num
  nonce : (optU64Hex v "nonce").map Subtype.val = .ok seed
  nonceStride : parsePearlStride v = .ok stride
  seed_le : seed ≤ 2 ^ 32 - 1
  seedStart : pearlSeedStart seed t num stride = some start

theorem parseFields_seed {v : MessageValues} {f : Fields} (h : parseFields v = .ok f) :
    optUint v "thread_id" 0 = .ok f.threadId ∧ optUint v "thread_num" 1 = .ok f.threadNum ∧
      optU64Hex v "nonce" = .ok f.nonce := by
  simp only [parseFields, Except.bind_eq_ok] at h
  obtain ⟨_, -, _, -, _, -, _, -, _, hid, _, hnum, _, -, _, -, _, -, _, -, _, -, _, -, _, -, _,
    hnonce, _, -, h⟩ := h
  cases h
  exact ⟨hid, hnum, hnonce⟩

/-- A PearlHash job that the core parses passed the checks of its seed. -/
theorem SeedAccepted.of_parseJob {env : Env} {v : MessageValues} {j : NewJob}
    (h : parseJob env .mine v = .ok j) (hdev : j.dev = .pearlhashGpu) :
    SeedAccepted v j.part.threadId j.part.threadNum (messageNonce v) j.pearlSeedStride
      j.pearlSeedStart := by
  obtain ⟨f, batch, counter, p⟩ := parseJob_eq_ok h
  obtain ⟨hid, hnum, hnonce⟩ := parseFields_seed p.fields
  obtain ⟨hid', hnum', -, -⟩ := checkPartition_ok p.part
  have hmsg : messageNonce v = f.nonce := by
    rw [messageNonce, p.fields]
  have hseed := p.seed
  simp only [parsePearlSeed, if_pos hdev, Except.bind_eq_ok, throwIf_eq_ok] at hseed
  obtain ⟨stride, hstride, -, hle, hseed⟩ := hseed
  split at hseed
  · cases hseed
  · rename_i start hstart
    cases hseed
    rw [hid', hnum', hmsg]
    exact ⟨hid, hnum, by rw [hnonce]; rfl, hstride, not_lt.mp hle, hstart⟩

theorem pearlSeedStart_eq_some {seed t threadNum stride start : ℕ} (hseed : seed < 2 ^ 32)
    (hstride : 0 < stride) : pearlSeedStart seed t threadNum stride = some start ↔
      t < threadNum ∧ start = seed + t * stride ∧ seed + t * stride < 2 ^ 32 := by
  unfold pearlSeedStart
  split_ifs with h
  · simp only [false_iff, not_and]
    omega
  · rw [nonceWithOffset_eq_some (by decide) hseed]
    simp only [Nat.and_zero, and_true]
    constructor
    · rintro ⟨rfl, hlt⟩
      exact ⟨by omega, rfl, hlt⟩
    · rintro ⟨-, rfl, hlt⟩
      exact ⟨rfl, hlt⟩

section Sent

variable {t : ℕ} {v : MessageValues} {seed start : ℕ}

theorem PearlSeed.SentTo.readsNonce (hsent : job.SentTo t threadNum v)
    (hnonce : job.nonce = paddedHex 8 seed) (hseed : seed < 2 ^ 32) :
    (optU64Hex v "nonce").map Subtype.val = .ok seed := by
  rw [optU64Hex_paddedHex (hsent.nonce.trans (congrArg some hnonce)) (by omega)]
  rfl

theorem PearlSeed.SentTo.readsStride (hsent : job.SentTo t threadNum v) :
    parsePearlStride v = .ok stride ↔ stride = job.nonceStride.getD 1 ∧
      0 < stride ∧ stride &&& (stride - 1) = 0 ∧ stride < 2 ^ 32 := by
  unfold parsePearlStride
  rw [hsent.stride]
  cases job.nonceStride with
  | none =>
    simp only [Option.map_none, Except.ok.injEq, Option.getD_none]
    constructor
    · rintro rfl
      decide
    · rintro ⟨rfl, -⟩
      rfl
  | some n =>
    simp only [Option.map_some, Option.getD_some, Except.bind_eq_ok, throwIf_eq_ok,
      parseUint_toString (show 2 ^ 32 - 1 ≤ 2 ^ 64 - 1 by decide)]
    constructor
    · rintro ⟨r, rfl, -, hgood, h⟩
      cases h
      rw [not_or, not_not] at hgood
      exact ⟨rfl, Nat.pos_of_ne_zero hgood.1, hgood.2, by omega⟩
    · rintro ⟨rfl, hpos, hpow, hlt⟩
      refine ⟨⟨stride, by omega⟩, rfl, (), ?_, rfl⟩
      rw [not_or, not_not]
      exact ⟨Nat.ne_of_gt hpos, hpow⟩

/-- The core reads back what the controller sent. -/
theorem PearlSeed.SentTo.accepted (hsent : job.SentTo t threadNum v)
    (hnonce : job.nonce = paddedHex 8 seed) (hseed : seed < 2 ^ 32)
    (hstride : parsePearlStride v = .ok stride) :
    (∃ seed start, SeedAccepted v t threadNum seed stride start) ↔
      t < threadNum ∧ threadNum < 2 ^ 32 ∧ seed + t * stride < 2 ^ 32 := by
  have hread := hsent.readsNonce hnonce hseed
  have hpos := (hsent.readsStride.mp hstride).2.1
  constructor
  · rintro ⟨seed', start, h⟩
    obtain rfl : seed = seed' := Except.ok.inj (hread.symm.trans h.nonce)
    obtain ⟨ht, -, hfit⟩ := (pearlSeedStart_eq_some hseed hpos).mp h.seedStart
    have hnum := ((optUint_toString hsent.threadNum).mp h.threadNum).2
    exact ⟨ht, by omega, hfit⟩
  · rintro ⟨ht, hnum, hfit⟩
    exact ⟨seed, seed + t * stride, {
      threadId := (optUint_toString hsent.threadId).mpr ⟨rfl, by omega⟩
      threadNum := (optUint_toString hsent.threadNum).mpr ⟨rfl, by omega⟩
      nonce := hread
      nonceStride := hstride
      seed_le := by omega
      seedStart := (pearlSeedStart_eq_some hseed hpos).mpr ⟨ht, rfl, hfit⟩ }⟩

end Sent

/-- A fleet of PearlHash workers of the job. -/
structure PearlSeed.MinedBy (job : PearlSeed) (threadNum : ℕ) {env : Env} (F : Fleet env) :
    Prop where
  size : F.size = threadNum
  sent : ∀ t, F.member t → job.SentTo t threadNum (F.worker t).values
  dev : ∀ t, F.member t → (F.worker t).job.dev = .pearlhashGpu

/-- The seeds that a worker of the fleet searches. -/
theorem PearlSeed.MinedBy.searched {env : Env} {F : Fleet env} {seed t k i n : ℕ}
    (hm : job.MinedBy threadNum F) (hnonce : job.nonce = paddedHex 8 seed) (hseed : seed < 2 ^ 32)
    (hstride : job.nonceStride.getD 1 = stride) (ht : F.member t)
    (h : (F.worker t).after.searched k i = some n) :
    n = seed + (k * threadNum + t) * stride ∧ n < 2 ^ 32 := by
  have hdev := hm.dev t ht
  have hsent := hm.sent t ht
  have hacc := SeedAccepted.of_parseJob (F.worker t).parsed hdev
  obtain ⟨hi, halive, hn⟩ := F.searched_some ht h
  have hbits : ((F.worker t).job.stream i).bits = 32 := by
    simp [NewJob.stream, NewJob.nonces, NewJob.seeds, hdev]
  have hbound : n < 2 ^ 32 := by
    rw [hn, ← (F.worker t).stream_nth (F.noCarry t ht) hi, ← hbits]
    exact (F.worker t).stream_nth_lt hi halive
  refine ⟨?_, hbound⟩
  have hunit : (F.worker t).job.part.unit ≠ 256 := by
    rw [(F.worker t).wellFormed.unit_eq, nonceUnit, if_neg (by simp [hdev])]
    decide
  have hbase : (F.worker t).job.base = seed := by
    rw [NewJob.base, if_neg (by simp [hdev, Dev.perLane]), messageNonce_eq (F.worker t).parsed,
      if_neg hunit]
    exact (Except.ok.inj ((hsent.readsNonce hnonce hseed).symm.trans hacc.nonce)).symm
  have hspacing : (F.worker t).job.pearlSeedStride = stride :=
    (hsent.readsStride.mp hacc.nonceStride).1.trans hstride
  rw [hn, (F.worker t).job.index_mul_spacing hi, hbase, hdev, if_neg (by simp [Dev.perLane]),
    if_neg (by simp), if_pos rfl, hspacing, F.id t ht, F.threadNum t ht, hm.size]

def splitPool : Session := { extensions := some ["pearl-seed-split"] }

end MoMiner.Miner
