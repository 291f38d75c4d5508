import MoMiner.Native.Commands

/-!
# What validation guarantees

`parseJob_eq_ok` inverts the validation of a job once; everything later development needs of an
accepted job is collected in `NewJob.Accepted`. Jobs of the workers of one fleet differ in their
`thread_id` only, and `Sibling` records what their accepted jobs then share.
-/

namespace MoMiner.Native

open MoMiner.Bytes

/-- The intermediate values of an accepted validation. -/
structure Parsed (env : Env) (mode : JobMode) (v : MessageValues) (j : NewJob) (f : Fields)
    (batch : ℕ) (counter : Counter) : Prop where
  mode_eq : j.mode = mode
  fields : parseFields v = .ok f
  devName : parseDev v f.dev = .ok (j.devStr, batch)
  dev_eq : j.dev = selectDev j.devStr f.algo
  algo_eq : j.algo = f.algo
  offset_eq : j.nonceOffset = f.nonceOffset
  seed : parsePearlSeed v j.dev f = .ok (j.pearlSeedStride, j.pearlSeedStart)
  part : checkPartition f.threadId f.threadNum batch
    (nonceUnit f.nonceBytes f.nicehashMask j.dev) (nonceUnit_pos _ _ _) = .ok j.part
  solvers : checkSolvers j.dev batch f.c29ProofSize f.backend = .ok ()
  bytes : f.nonceBytes = 4 ∨ f.nonceBytes = 8
  pearlBytes : j.dev = .pearlhashGpu → f.nonceBytes = 8
  counter_ok : checkCounter f.nonceBytes f.nonce f.nicehashMask = .ok counter
  layout : checkNonceLayout j.dev f.algo f.nonceBytes f.nonceOffset = .ok ()
  function : checkFunction env j.dev f.algo f.seedHex batch = .ok ()
  input : parseInput f.inputHex = .ok j.input
  inputLayout : checkInput v mode j.dev f.algo f.nonceBytes f.nonceOffset j.input.length = .ok ()
  merged : j.counter = mergeLowByte (nonceUnit f.nonceBytes f.nicehashMask j.dev) mode counter
    (loadNonce 4 (j.input.drop f.nonceOffset) true)
  rxStart : checkRxStart j.dev mode j.part j.counter.nonce = .ok ()

theorem parseJob_eq_ok {env : Env} {mode : JobMode} {v : MessageValues} {j : NewJob}
    (h : parseJob env mode v = .ok j) : ∃ f batch counter, Parsed env mode v j f batch counter := by
  simp only [parseJob, Except.bind_eq_ok, throwIf_eq_ok] at h
  obtain ⟨f, hf, ⟨devStr, batch⟩, hdev, ⟨stride, start⟩, hseed, part, hpart, _, hsolvers, _, -, _,
    hbytes, _, hpearl, counter, hcounter, _, hlayout, _, hfn, input, hinput, _, hcheck, _, hrx, h⟩ := h
  cases h
  exact ⟨f, batch, counter, {
    mode_eq := rfl, fields := hf, devName := hdev, dev_eq := rfl, algo_eq := rfl, offset_eq := rfl
    seed := hseed, part := hpart, solvers := hsolvers
    bytes := by omega
    pearlBytes := fun hd => not_not.mp fun hne => hpearl ⟨hd, hne⟩
    counter_ok := hcounter, layout := hlayout, function := hfn, input := hinput
    inputLayout := hcheck, merged := rfl, rxStart := hrx }⟩

/-! ## Facts about an accepted job -/

theorem checkCounter_ok {nonceBytes : ℕ} {nonce mask : {n : ℕ // n ≤ 2 ^ 64 - 1}} {c : Counter}
    (hb : nonceBytes = 4 ∨ nonceBytes = 8) (h : checkCounter nonceBytes nonce mask = .ok c) :
    c.width.bytes = nonceBytes ∧ c.nonce = nonce ∧ c.mask = mask := by
  unfold checkCounter at h
  split_ifs at h
  · cases h
    simp [Width.bytes, *]
  · cases h
    simp only [Width.bytes, and_true]
    omega

@[simp] theorem mergeLowByte_width (unit : ℕ) (mode : JobMode) (c : Counter) (b : ℕ) :
    (mergeLowByte unit mode c b).width = c.width := by
  unfold mergeLowByte
  split_ifs <;> rfl

@[simp] theorem mergeLowByte_mask (unit : ℕ) (mode : JobMode) (c : Counter) (b : ℕ) :
    (mergeLowByte unit mode c b).mask = c.mask := by
  unfold mergeLowByte
  split_ifs <;> rfl

/-- The base nonce of a job message, before the low byte of the blob is merged. -/
def messageNonce (v : MessageValues) : ℕ :=
  match parseFields v with
  | .ok f => f.nonce
  | .error _ => 0

/-- What the rest of the development uses of an accepted job. -/
structure NewJob.Accepted (j : NewJob) : Prop where
  unit_eq : j.part.unit = nonceUnit j.counter.width.bytes j.counter.mask j.dev
  embedded : j.dev.externalNonce = false → j.mode ≠ .test →
    j.nonceOffset + j.counter.width.bytes ≤ j.input.length
  narrow : j.dev = .rxCpu ∨ j.dev = .verthashGpu → j.counter.width = .four
  wide : j.dev.perLane = false → j.dev ≠ .rxCpu → j.dev ≠ .verthashGpu → j.counter.width = .eight
  single : j.dev = .c29Gpu ∨ j.dev = .c30Gpu ∨ j.dev = .zelhashGpu ∨ j.dev = .beamhash3Gpu →
    j.part.batch = 1
  lowByte : j.part.unit = 256 → j.mode ≠ .test → j.counter.nonce % 256 = j.blobNonce % 256
  rxStart : j.dev = .rxCpu → j.mode ≠ .test →
    j.counter.nonce + (j.part.threadId * j.part.batch + (j.part.batch - 1)) * j.part.unit < 2 ^ 32
  littleEndian : j.dev = .kawpowGpu ∨ j.dev = .etchashGpu ∨ j.dev = .zelhashGpu →
    nonceBigEndian j.algo j.input.length = false
  bigEndian : j.dev = .beamhash3Gpu → nonceBigEndian j.algo j.input.length = true
  pearlSeed : j.dev = .pearlhashGpu → 0 < j.pearlSeedStride ∧
    j.pearlSeedStart = j.counter.nonce + j.part.threadId * j.pearlSeedStride ∧
    j.pearlSeedStart < 2 ^ 32

section

variable {env : Env} {mode : JobMode} {v : MessageValues} {j : NewJob} {f : Fields} {batch : ℕ}
  {counter : Counter}

theorem Parsed.width (p : Parsed env mode v j f batch counter) :
    j.counter.width.bytes = f.nonceBytes := by
  rw [p.merged, mergeLowByte_width, (checkCounter_ok p.bytes p.counter_ok).1]

theorem Parsed.mask (p : Parsed env mode v j f batch counter) : j.counter.mask = f.nicehashMask := by
  rw [p.merged, mergeLowByte_mask, (checkCounter_ok p.bytes p.counter_ok).2.2]

theorem width_of_bytes {w : Width} : w.bytes = 4 ↔ w = .four := by
  cases w <;> decide

theorem width_of_bytes_eight {w : Width} : w.bytes = 8 ↔ w = .eight := by
  cases w <;> decide

theorem Parsed.unit (p : Parsed env mode v j f batch counter) :
    j.part.unit = nonceUnit j.counter.width.bytes j.counter.mask j.dev := by
  rw [p.width, p.mask, (checkPartition_ok p.part).2.2.2]

theorem Parsed.batch_eq (p : Parsed env mode v j f batch counter) : j.part.batch = batch :=
  (checkPartition_ok p.part).2.2.1

theorem Parsed.embedded (p : Parsed env mode v j f batch counter)
    (hext : j.dev.externalNonce = false) (hm : mode ≠ .test) :
    j.nonceOffset + j.counter.width.bytes ≤ j.input.length := by
  have h := p.inputLayout
  simp only [checkInput, Except.bind_eq_ok, throwIf_eq_ok] at h
  obtain ⟨_, -, _, -, _, -, _, -, _, -, h⟩ := h
  have : ¬(j.input.length < f.nonceOffset ∨ j.input.length - f.nonceOffset < f.nonceBytes) :=
    fun hbad => h ⟨hext, Or.inl hm, hbad⟩
  rw [p.offset_eq, p.width]
  omega

theorem Parsed.narrow (p : Parsed env mode v j f batch counter)
    (hd : j.dev = .rxCpu ∨ j.dev = .verthashGpu) : j.counter.width = .four := by
  have h := p.layout
  simp only [checkNonceLayout, Except.bind_eq_ok, throwIf_eq_ok] at h
  obtain ⟨_, hrx, _, -, _, -, _, hvert, -⟩ := h
  rw [← width_of_bytes, p.width]
  rcases hd with hd | hd
  · exact not_not.mp fun hne => hrx ⟨hd, hne⟩
  · exact not_not.mp fun hne => hvert ⟨hd, Or.inl hne⟩

theorem gpuNames_of_checkFunction {dev : Dev} {algo seedHex : String}
    (h : checkFunction env dev algo seedHex batch = .ok ()) (hc : dev ≠ .cpu) (hr : dev ≠ .rxCpu) :
    algo ∈ dev.gpuNames := by
  cases dev <;> simp_all [checkFunction]

theorem Parsed.wide (p : Parsed env mode v j f batch counter) (hl : j.dev.perLane = false)
    (hr : j.dev ≠ .rxCpu) (hv : j.dev ≠ .verthashGpu) : j.counter.width = .eight := by
  have hlay := p.layout
  simp only [checkNonceLayout, Except.bind_eq_ok, throwIf_eq_ok] at hlay
  obtain ⟨_, -, _, h32, _, hmisc, _, -, _, hzel, hbeam⟩ := hlay
  have hin := p.inputLayout
  simp only [checkInput, Except.bind_eq_ok, throwIf_eq_ok] at hin
  obtain ⟨_, hc30, _, hlen, _, -, _, hfish, _, hkarl, -⟩ := hin
  rw [← width_of_bytes_eight, p.width]
  by_contra hne
  cases hd : j.dev with
  | cpu | gpu | c29Gpu => simp [hd, Dev.perLane] at hl
  | rxCpu => exact hr hd
  | verthashGpu => exact hv hd
  | c30Gpu => exact hc30 ⟨hd, fun h => hne h.2.1, fun h => hne h.2.2.1⟩
  | kawpowGpu | etchashGpu | autolykos2Gpu =>
    exact h32 ⟨by rw [hd]; rfl, by rw [hd]; decide, Or.inl hne⟩
  | pearlhashGpu => exact hne (p.pearlBytes hd)
  | fishhashGpu => exact hfish ⟨hd, Or.inl hne⟩
  | karlsenhashv2Gpu => exact hkarl ⟨hd, Or.inl hne⟩
  | miscGpu =>
    by_cases hn : f.algo = "nexapow"
    · exact hlen (by simp [badInputLen, hn, hne])
    · exact hmisc ⟨hd, hn, Or.inl hne⟩
  | zelhashGpu => exact hzel ⟨hd, Or.inl hne⟩
  | beamhash3Gpu => exact hbeam ⟨hd, Or.inl hne⟩

theorem Parsed.single (p : Parsed env mode v j f batch counter)
    (hd : j.dev = .c29Gpu ∨ j.dev = .c30Gpu ∨ j.dev = .zelhashGpu ∨ j.dev = .beamhash3Gpu) :
    j.part.batch = 1 := by
  have h := p.solvers
  simp only [checkSolvers, Except.bind_eq_ok, throwIf_eq_ok] at h
  obtain ⟨_, hcycle, _, hsingle, -⟩ := h
  rw [p.batch_eq]
  by_contra hne
  rcases hd with hd | hd | hd | hd
  · exact hcycle ⟨Or.inl hd, hne⟩
  · exact hcycle ⟨Or.inr hd, hne⟩
  · exact hsingle ⟨Or.inl hd, hne⟩
  · exact hsingle ⟨Or.inr hd, hne⟩

theorem Parsed.lowByte (p : Parsed env mode v j f batch counter) (hu : j.part.unit = 256)
    (hm : mode ≠ .test) : j.counter.nonce % 256 = j.blobNonce % 256 := by
  have hunit : nonceUnit f.nonceBytes f.nicehashMask j.dev = 256 := by
    rw [← p.width, ← p.mask, ← p.unit, hu]
  have hfour : j.counter.width.bytes = 4 := by
    rw [p.width]
    by_contra hne
    simp [nonceUnit, hne] at hunit
  have hn : j.counter.nonce = counter.nonce / 256 * 256 +
      loadNonce 4 (j.input.drop f.nonceOffset) true % 256 := by
    rw [p.merged, mergeLowByte, if_pos ⟨hunit, hm⟩]
    rfl
  rw [hn, NewJob.blobNonce, hfour, p.offset_eq]
  omega

theorem Parsed.rxStart_lt (p : Parsed env mode v j f batch counter) (hd : j.dev = .rxCpu)
    (hm : mode ≠ .test) :
    j.counter.nonce + (j.part.threadId * j.part.batch + (j.part.batch - 1)) * j.part.unit <
      2 ^ 32 := by
  have h := p.rxStart
  rw [checkRxStart, if_pos ⟨hd, hm⟩] at h
  have hlt : j.counter.nonce < 2 ^ 32 := by
    have := j.counter.nonce_lt
    rwa [p.narrow (Or.inl hd)] at this
  split at h
  · cases h
  · rename_i first hfirst
    rw [throwIf_eq_ok, ← ne_eq, Option.ne_none_iff_exists'] at h
    obtain ⟨last, hlast⟩ := h
    obtain ⟨rfl, hfit, -⟩ := (nonceWithOffset_eq_some (by decide) hlt).mp hfirst
    obtain ⟨-, hfit', -⟩ := (nonceWithOffset_eq_some (by decide) hfit).mp hlast
    rw [add_mul]
    omega

theorem Parsed.byteOrder (p : Parsed env mode v j f batch counter) (hc : j.dev ≠ .cpu)
    (hr : j.dev ≠ .rxCpu) : j.algo ∈ j.dev.gpuNames := by
  rw [p.algo_eq]
  exact gpuNames_of_checkFunction p.function hc hr

theorem Parsed.littleEndian (p : Parsed env mode v j f batch counter)
    (hd : j.dev = .kawpowGpu ∨ j.dev = .etchashGpu ∨ j.dev = .zelhashGpu) :
    nonceBigEndian j.algo j.input.length = false := by
  have h := p.byteOrder (by rcases hd with hd | hd | hd <;> simp [hd])
    (by rcases hd with hd | hd | hd <;> simp [hd])
  have little : ∀ algo ∈ Dev.gpuNames .kawpowGpu ++ Dev.gpuNames .etchashGpu ++
      Dev.gpuNames .zelhashGpu, nonceBigEndian algo j.input.length = false := by
    simp [Dev.gpuNames, nonceBigEndian]
  apply little
  rcases hd with hd | hd | hd <;> rw [hd] at h <;> simp [h]

theorem Parsed.bigEndian (p : Parsed env mode v j f batch counter) (hd : j.dev = .beamhash3Gpu) :
    nonceBigEndian j.algo j.input.length = true := by
  have h := p.byteOrder (by simp [hd]) (by simp [hd])
  rw [hd] at h
  simp only [Dev.gpuNames, List.mem_cons, List.not_mem_nil, or_false] at h
  simp [h, nonceBigEndian]

theorem Parsed.pearlSeed (p : Parsed env mode v j f batch counter) (hd : j.dev = .pearlhashGpu) :
    0 < j.pearlSeedStride ∧
      j.pearlSeedStart = j.counter.nonce + j.part.threadId * j.pearlSeedStride ∧
      j.pearlSeedStart < 2 ^ 32 := by
  have hnonce : j.counter.nonce = f.nonce := by
    have hunit : nonceUnit f.nonceBytes f.nicehashMask j.dev ≠ 256 := by
      simp [nonceUnit, hd]
    rw [p.merged, mergeLowByte, if_neg fun h => hunit h.1, (checkCounter_ok p.bytes p.counter_ok).2.1]
  have h := p.seed
  simp only [parsePearlSeed, if_pos hd, Except.bind_eq_ok, throwIf_eq_ok] at h
  obtain ⟨stride, -, _, hslot, h⟩ := h
  split at h
  · cases h
  · rename_i start hstart
    cases h
    unfold pearlSeedStart at hstart
    split_ifs at hstart with hbad
    obtain ⟨heq, hlt, -⟩ := (nonceWithOffset_eq_some (by decide) (by omega)).mp hstart
    rw [hnonce, (checkPartition_ok p.part).1]
    omega

/-- **An accepted job is well formed.** -/
theorem parseJob_accepted (h : parseJob env mode v = .ok j) : j.Accepted := by
  obtain ⟨f, batch, counter, p⟩ := parseJob_eq_ok h
  have hm := p.mode_eq
  exact {
    unit_eq := p.unit
    embedded := fun hext ht => p.embedded hext (hm ▸ ht)
    narrow := p.narrow
    wide := p.wide
    single := p.single
    lowByte := fun hu ht => p.lowByte hu (hm ▸ ht)
    rxStart := fun hd ht => p.rxStart_lt hd (hm ▸ ht)
    littleEndian := p.littleEndian
    bigEndian := p.bigEndian
    pearlSeed := p.pearlSeed }

end

end MoMiner.Native
