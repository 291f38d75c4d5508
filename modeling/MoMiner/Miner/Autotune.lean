import MoMiner.Lib.InsertionMap
import MoMiner.Miner.RoundTrip

/-!
# Candidates of the automatic tuner

`autotuneCandidates` collects variants of a device entry that differ from it in one field. Every
variant is validated before it is returned, so one value that the algorithm does not take makes the
whole call fail.

**The entry itself** is a candidate. It was parsed, but its main value was only checked as an
integer.

**Scaled values** are rounded down to a multiple and never go below it. The multiple of PearlHash is
64, the smallest matrix has 128 rows.

Main result: `autotuneCandidates_iff`.
-/

namespace MoMiner.Miner

open MoMiner.Js

/-! ## The functions of `gpu-tuning.js` -/

def TuningValue.json : TuningValue → Json
  | .int n => .num (.finite n)
  | .choice c => .str c.text

/-- A tuning as an object; validation does not depend on the order of the fields. -/
def Tuning.toJson (t : Tuning) : Json := .obj (t.fields.map fun f => (f.name, (t.value f).json))

def tuningCandidate (entry : DeviceEntry) (changes : Tuning) : DeviceEntry :=
  { entry with tuning := entry.tuning.merge changes }

/-- The divisions by powers of two are exact in the numbers of the source. -/
def alignedScale (value numerator denominator alignment : ℕ) : ℕ :=
  let scaled := value * numerator / denominator / alignment * alignment
  let maximum := 0xffffffff / alignment * alignment
  min maximum (max alignment scaled)

/-- The values that are tried for the intensity. -/
def intensityVariants (algo : String) (base : Tuning) : List (Field × List TuningValue) :=
  let intensity := (base.int? .intensity).getD 0
  if intensity ≠ 0 ∧ algo ∉ fixedIntensityAlgos then
    if algo = "cn/gpu" then
      [(.intensity, [.int (alignedScale intensity 1 2 8), .int (alignedScale intensity 3 4 8)])]
    else
      [(.intensity, [.int (alignedScale intensity 1 2 256), .int (alignedScale intensity 3 4 256),
        .int (alignedScale intensity 5 4 256)])]
  else []

/-- The values that are tried for the other fields. -/
def fieldVariants (algo : String) (base : Tuning) : List (Field × List TuningValue) :=
  let m := (base.int? .m).getD 0
  let workgroup := (base.int? .workgroup).getD 0
  if algo = "c29" then
    [(.seedWorkgroup, [.int 64, .int 128, .int 256]), (.seedBlocks, [.int 8, .int 16, .int 32])]
  else if algo ∈ progpowAlgos then
    [(.workgroup, [.int 64, .int 128, .int 256])]
  else if algo = "autolykos2" then
    [(.workgroup, [.int 32, .int 64, .int 128, .int 256])]
  else if algo ∈ fishhashAlgos then
    [(.workgroup, [.int 64, .int 128, .int 256]),
      (.searchMode, [.choice .scalar, .choice .cooperative])]
  else if algo = "hoohash" then
    [(.workgroup, [.int 64, .int 128, .int 256])]
  else if algo = "pearlhash" ∧ m ≠ 0 then
    [(.m, [.int (alignedScale m 1 4 64), .int (alignedScale m 1 2 64)])]
  else if algo = "beamhash3" ∧ workgroup ≠ 0 then
    [(.workgroup, ([384, 512, 640, 768, 1024].filter (· ≤ workgroup)).map .int),
      (.scatterWorkgroup, [.int 64, .int 128, .int 256])]
  else []

/-- One candidate for each value that the entry does not have already. -/
def addVariants (entry : DeviceEntry) (variant : Field × List TuningValue) : List DeviceEntry :=
  (variant.2.filter fun value => entry.tuning variant.1 ≠ some value).map fun value =>
    tuningCandidate entry (Tuning.empty.set variant.1 value)

def candidateList (algo : String) (entry : DeviceEntry) : List DeviceEntry :=
  tuningCandidate entry Tuning.empty ::
    (intensityVariants algo entry.tuning ++ fieldVariants algo entry.tuning).flatMap
      (addVariants entry)

/-- Validate a candidate and set it under its device text. -/
def addUnique (algo : String) (unique : List (List Char × DeviceEntry)) (candidate : DeviceEntry) :
    Except String (List (List Char × DeviceEntry)) := do
  let tuning ← validateTuning algo candidate.tuning.toJson (algo ++ " auto-tune candidate")
  let candidate := { candidate with tuning := tuning }
  return InsertionMap.set unique (formatDeviceEntry candidate) candidate

def autotuneCandidates (algo : String) (entry : DeviceEntry) : Except String (List DeviceEntry) :=
  if !isGpu entry.device then .ok [entry]
  else do
    let unique ← (candidateList algo entry).foldlM (addUnique algo) []
    return unique.map Prod.snd

/-! ## Validating candidates -/

theorem TuningValue.spells (v : TuningValue) : Spells v.json v := by
  cases v with
  | int n => exact .number n
  | choice c =>
    have h := Spells.text (.choice c)
    rwa [TuningValue.text, String.ofList_toList] at h

theorem validateTuning_toJson {algo context : String} {t t' : Tuning} :
    validateTuning algo t.toJson context = .ok t' ↔ t' = t ∧ t.Checked algo := by
  have hspells : ∀ f ∈ t.fields, Spells (t.value f).json (t.value f) :=
    fun f _ => (t.value f).spells
  have h := @validateTuning_listed algo context _ _ _ hspells t'
  rw [Tuning.ofList_fields] at h
  rw [Tuning.toJson, h]
  constructor
  · rintro ⟨rfl, hc⟩
    exact ⟨rfl, hc⟩
  · rintro ⟨rfl, hc⟩
    exact ⟨rfl, hc⟩

theorem addUnique_eq_ok {algo : String} {unique unique' : List (List Char × DeviceEntry)}
    {candidate : DeviceEntry} :
    addUnique algo unique candidate = .ok unique' ↔ candidate.tuning.Checked algo ∧
      unique' = InsertionMap.set unique (formatDeviceEntry candidate) candidate := by
  simp only [addUnique, Except.bind_eq_ok, validateTuning_toJson]
  constructor
  · rintro ⟨t, ⟨rfl, hchecked⟩, h⟩
    cases h
    exact ⟨hchecked, rfl⟩
  · rintro ⟨hchecked, rfl⟩
    exact ⟨_, ⟨rfl, hchecked⟩, rfl⟩

/-- The loop passes when every candidate is accepted. -/
theorem foldlM_addUnique {algo : String} {candidates : List DeviceEntry}
    {unique unique' : List (List Char × DeviceEntry)} :
    candidates.foldlM (addUnique algo) unique = .ok unique' ↔
      (∀ c ∈ candidates, c.tuning.Checked algo) ∧
        unique' = candidates.foldl (fun m c => InsertionMap.set m (formatDeviceEntry c) c) unique := by
  induction candidates generalizing unique with
  | nil => simp [pure, Except.pure, eq_comm]
  | cons c candidates ih =>
    simp only [List.foldlM_cons, Except.bind_eq_ok, addUnique_eq_ok, ih, List.forall_mem_cons,
      List.foldl_cons]
    constructor
    · rintro ⟨m, ⟨hc, rfl⟩, hrest, rfl⟩
      exact ⟨⟨hc, hrest⟩, rfl⟩
    · rintro ⟨⟨hc, hrest⟩, rfl⟩
      exact ⟨_, ⟨hc, rfl⟩, hrest, rfl⟩

theorem autotuneCandidates_gpu {algo : String} {entry : DeviceEntry} (hgpu : isGpu entry.device)
    {candidates : List DeviceEntry} :
    autotuneCandidates algo entry = .ok candidates ↔
      (∀ c ∈ candidateList algo entry, c.tuning.Checked algo) ∧
        candidates =
          (InsertionMap.collect formatDeviceEntry (candidateList algo entry)).map Prod.snd := by
  simp only [autotuneCandidates, hgpu, Bool.not_true, Bool.false_eq_true, if_false,
    Except.bind_eq_ok, foldlM_addUnique]
  constructor
  · rintro ⟨m, ⟨hall, rfl⟩, h⟩
    cases h
    exact ⟨hall, rfl⟩
  · rintro ⟨hall, rfl⟩
    exact ⟨_, ⟨hall, rfl⟩, rfl⟩

/-! ## Variants -/

/-- A value that an algorithm takes in a field, whatever the other fields are. -/
def Field.Accepts (algo : String) (f : Field) : TuningValue → Prop
  | .int v => f ∈ allowedFields algo ∧ f.Takes (.int v) ∧ f.Fits algo v ∧ f ≠ .k ∧ f ≠ .rank
  | .choice c => f ∈ allowedFields algo ∧ f.Takes (.choice c) ∧ f ≠ .k ∧ f ≠ .rank

instance (algo : String) (f : Field) : DecidablePred (f.Accepts algo)
  | .int _ => inferInstanceAs (Decidable (_ ∧ _))
  | .choice _ => inferInstanceAs (Decidable (_ ∧ _))

/-- An accepted tuning stays accepted with an accepted value. -/
theorem Tuning.Checked.set {algo : String} {t : Tuning} (h : t.Checked algo) {f : Field}
    {v : TuningValue} (hv : f.Accepts algo v) : (t.merge (Tuning.empty.set f v)).Checked algo := by
  have hallowed : f ∈ allowedFields algo ∧ f.Takes v ∧ (∀ n, v = .int n → f.Fits algo n) ∧
      f ≠ .k ∧ f ≠ .rank := by
    cases v with
    | int n => exact ⟨hv.1, hv.2.1, fun m hm => TuningValue.int.inj hm ▸ hv.2.2.1, hv.2.2.2⟩
    | choice c => exact ⟨hv.1, hv.2.1, by simp, hv.2.2⟩
  obtain ⟨hmem, htakes, hfits, hk, hrank⟩ := hallowed
  have hself : t.merge (Tuning.empty.set f v) f = some v := by
    simp [Tuning.merge, Tuning.set]
  have hother : ∀ g, g ≠ f → t.merge (Tuning.empty.set f v) g = t g := by
    intro g hg
    simp [Tuning.merge, Tuning.set, hg, Tuning.empty]
  refine ⟨fun g w hg => ?_, fun g w hg => ?_, fun g w hg => ?_, fun halgo k r hk' hr' => ?_⟩
  · by_cases hgf : g = f
    · exact hgf ▸ hmem
    · exact h.allowed g w (hother g hgf ▸ hg)
  · by_cases hgf : g = f
    · subst hgf
      rw [hself] at hg
      exact Option.some.inj hg ▸ htakes
    · exact h.takes g w (hother g hgf ▸ hg)
  · by_cases hgf : g = f
    · subst hgf
      rw [hself] at hg
      exact hfits w (Option.some.inj hg)
    · exact h.fits g w (hother g hgf ▸ hg)
  · rw [hother _ hk.symm] at hk'
    rw [hother _ hrank.symm] at hr'
    exact h.shaped halgo k r hk' hr'

theorem alignedScale_bounds {value numerator denominator alignment : ℕ} (hpos : 0 < alignment)
    (hle : alignment ≤ 0xffffffff) :
    alignment ≤ alignedScale value numerator denominator alignment ∧
      alignedScale value numerator denominator alignment ≤ 0xffffffff := by
  have hmaximum : alignment ≤ 0xffffffff / alignment * alignment :=
    Nat.le_mul_of_pos_left _ (Nat.div_pos hle hpos)
  have hbound : 0xffffffff / alignment * alignment ≤ 0xffffffff := Nat.div_mul_le_self _ _
  simp only [alignedScale]
  exact ⟨le_min hmaximum (le_max_left _ _), (min_le_left _ _).trans hbound⟩

theorem intensity_accepts {algo : String} (hallowed : .intensity ∈ allowedFields algo)
    (hfixed : algo ∉ fixedIntensityAlgos) {v : ℕ} (hpos : 0 < v) (hmax : v ≤ 0xffffffff) :
    Field.intensity.Accepts algo (.int v) := by
  refine ⟨hallowed, ⟨rfl, hpos, hmax, by simp⟩, ⟨fun h => absurd h hfixed, ?_, ?_, ?_⟩, by simp⟩
  · intro choice hmem hf
    have := mem_workgroupChoices hmem
    rw [hf] at this
    exact absurd this (by decide)
  · exact fun _ h => absurd h (by decide)
  · exact fun _ => ⟨by simp, by simp, by simp⟩

theorem intensityVariants_accepts {algo : String} {base : Tuning} (h : base.Checked algo) :
    ∀ variant ∈ intensityVariants algo base, ∀ v ∈ variant.2, variant.1.Accepts algo v := by
  intro variant hvariant v hv
  simp only [intensityVariants] at hvariant
  by_cases hsome : (base.int? .intensity).getD 0 ≠ 0 ∧ algo ∉ fixedIntensityAlgos
  · rw [if_pos hsome] at hvariant
    have hallowed : .intensity ∈ allowedFields algo := by
      cases hi : base.int? .intensity with
      | none => simp [hi] at hsome
      | some i => exact h.allowed _ _ (Tuning.int?_eq_some.mp hi)
    have hscaled : ∀ n d a, 0 < a → a ≤ 0xffffffff →
        Field.intensity.Accepts algo (.int (alignedScale ((base.int? .intensity).getD 0) n d a)) := by
      intro n d a ha hle
      obtain ⟨hmin, hmax⟩ := @alignedScale_bounds ((base.int? .intensity).getD 0) n d a ha hle
      exact intensity_accepts hallowed hsome.2 (ha.trans_le hmin) hmax
    split_ifs at hvariant
    · rw [List.mem_singleton.mp hvariant] at hv ⊢
      rcases List.mem_pair.mp hv with rfl | rfl
      · exact hscaled 1 2 8 (by decide) (by decide)
      · exact hscaled 3 4 8 (by decide) (by decide)
    · rw [List.mem_singleton.mp hvariant] at hv ⊢
      simp only [List.mem_cons, List.not_mem_nil, or_false] at hv
      rcases hv with rfl | rfl | rfl
      · exact hscaled 1 2 256 (by decide) (by decide)
      · exact hscaled 3 4 256 (by decide) (by decide)
      · exact hscaled 5 4 256 (by decide) (by decide)
  · rw [if_neg hsome] at hvariant
    cases hvariant

/-- The scaled sizes of a PearlHash matrix are sizes if it has 512 rows. -/
theorem alignedScale_pearl {m d : ℕ} (hd : d = 2 ∨ d = 4) (hmin : 512 ≤ m) (hmax : m ≤ 2 ^ 24) :
    128 ≤ alignedScale m 1 d 64 ∧ alignedScale m 1 d 64 ≤ 2 ^ 24 ∧ 32 ∣ alignedScale m 1 d 64 := by
  simp only [alignedScale, Nat.mul_one]
  rcases hd with rfl | rfl <;> omega

/-- The variants that do not depend on the entry. -/
theorem listed_accepts : (∀ v ∈ [64, 128, 256], Field.seedWorkgroup.Accepts "c29" (.int v)) ∧
    (∀ v ∈ [8, 16, 32], Field.seedBlocks.Accepts "c29" (.int v)) ∧
    (∀ algo ∈ progpowAlgos, ∀ v ∈ [64, 128, 256], Field.workgroup.Accepts algo (.int v)) ∧
    (∀ v ∈ [32, 64, 128, 256], Field.workgroup.Accepts "autolykos2" (.int v)) ∧
    (∀ algo ∈ fishhashAlgos, (∀ v ∈ [64, 128, 256], Field.workgroup.Accepts algo (.int v)) ∧
      ∀ c ∈ [Choice.scalar, .cooperative], Field.searchMode.Accepts algo (.choice c)) ∧
    (∀ v ∈ [64, 128, 256], Field.workgroup.Accepts "hoohash" (.int v)) ∧
    (∀ v ∈ [384, 512, 640, 768, 1024], Field.workgroup.Accepts "beamhash3" (.int v)) ∧
    ∀ v ∈ [64, 128, 256], Field.scatterWorkgroup.Accepts "beamhash3" (.int v) := by
  decide

theorem int_accepts {algo : String} {f : Field} {values : List ℕ}
    (h : ∀ v ∈ values, f.Accepts algo (.int v)) :
    ∀ v ∈ values.map TuningValue.int, f.Accepts algo v := by
  intro v hv
  obtain ⟨n, hn, rfl⟩ := List.mem_map.mp hv
  exact h n hn

theorem pearl_accepts {v : ℕ} (h : 128 ≤ v ∧ v ≤ 2 ^ 24 ∧ 32 ∣ v) :
    Field.m.Accepts "pearlhash" (.int v) := by
  have hpos : Field.m.minimum ≤ v := le_trans (by decide : Field.m.minimum ≤ 128) h.1
  refine ⟨by decide, ⟨rfl, hpos, h.2.1.trans (by decide), by simp⟩, ⟨?_, ?_, ?_, ?_⟩, by decide⟩
  · exact fun hmem => absurd hmem (by decide)
  · have hnone : ∀ choice ∈ workgroupChoices "pearlhash", choice.1 ≠ .m := by decide
    exact fun choice hmem hf => absurd hf (hnone choice hmem)
  · exact fun h => absurd h (by decide)
  · exact fun _ => ⟨fun _ => h, by simp, by simp⟩

theorem fieldVariants_accepts {algo : String} {base : Tuning}
    (hpearl : algo = "pearlhash" → ∀ m, base .m = some (.int m) → 512 ≤ m ∧ m ≤ 2 ^ 24) :
    ∀ variant ∈ fieldVariants algo base, ∀ v ∈ variant.2, variant.1.Accepts algo v := by
  obtain ⟨hseed, hblocks, hprogpow, hautolykos, hfishhash, hhoohash, hbeam, hscatter⟩ :=
    listed_accepts
  intro variant hvariant v hv
  simp only [fieldVariants] at hvariant
  split_ifs at hvariant with h₁ h₂ h₃ h₄ h₅ h₆ h₇
  · subst h₁
    rcases List.mem_pair.mp hvariant with rfl | rfl
    · exact int_accepts hseed v hv
    · exact int_accepts hblocks v hv
  · rw [List.mem_singleton.mp hvariant] at hv ⊢
    exact int_accepts (hprogpow algo h₂) v hv
  · subst h₃
    rw [List.mem_singleton.mp hvariant] at hv ⊢
    exact int_accepts hautolykos v hv
  · rcases List.mem_pair.mp hvariant with rfl | rfl
    · exact int_accepts (hfishhash algo h₄).1 v hv
    · rcases List.mem_pair.mp hv with rfl | rfl
      · exact (hfishhash algo h₄).2 .scalar (by decide)
      · exact (hfishhash algo h₄).2 .cooperative (by decide)
  · subst h₅
    rw [List.mem_singleton.mp hvariant] at hv ⊢
    exact int_accepts hhoohash v hv
  · obtain ⟨rfl, hm⟩ := h₆
    obtain ⟨m, hbase⟩ : ∃ m, base.int? .m = some m := by
      cases hb : base.int? .m with
      | none => simp [hb] at hm
      | some m => exact ⟨m, rfl⟩
    obtain ⟨hmin, hmax⟩ := hpearl rfl m (Tuning.int?_eq_some.mp hbase)
    rw [List.mem_singleton.mp hvariant, hbase, Option.getD_some] at hv
    rw [List.mem_singleton.mp hvariant]
    rcases List.mem_pair.mp hv with rfl | rfl
    · exact pearl_accepts (alignedScale_pearl (.inr rfl) hmin hmax)
    · exact pearl_accepts (alignedScale_pearl (.inl rfl) hmin hmax)
  · obtain ⟨rfl, -⟩ := h₇
    rcases List.mem_pair.mp hvariant with rfl | rfl
    · refine int_accepts (fun v hv => ?_) v hv
      exact hbeam v (List.mem_of_mem_filter hv)
    · exact int_accepts hscatter v hv
  · cases hvariant

/-! ## All candidates -/

/-- The variants of an accepted entry are accepted. -/
theorem candidateList_checked {algo : String} {entry : DeviceEntry}
    (h : entry.tuning.Checked algo)
    (hpearl : algo = "pearlhash" → ∀ m, entry.tuning .m = some (.int m) → 512 ≤ m) :
    ∀ c ∈ candidateList algo entry, c.tuning.Checked algo := by
  have hlarge : algo = "pearlhash" → ∀ m, entry.tuning .m = some (.int m) →
      512 ≤ m ∧ m ≤ 2 ^ 24 := fun halgo m hm =>
    ⟨hpearl halgo m hm, (((h.fits _ _ hm).pearl halgo).1 (.inl rfl)).2.1⟩
  intro c hc
  rcases List.mem_cons.mp hc with rfl | hc
  · exact h
  · obtain ⟨variant, hvariant, hc⟩ := List.mem_flatMap.mp hc
    obtain ⟨v, hv, rfl⟩ := List.mem_map.mp hc
    have hmem := List.mem_of_mem_filter hv
    rcases List.mem_append.mp hvariant with hvariant | hvariant
    · exact h.set (intensityVariants_accepts h variant hvariant v hmem)
    · exact h.set (fieldVariants_accepts hlarge variant hvariant v hmem)

/-- A small PearlHash matrix has a variant that is no matrix. -/
theorem candidateList_small {entry : DeviceEntry} {m : ℕ} (hm : entry.tuning .m = some (.int m))
    (hmin : 128 ≤ m) (hsmall : m < 512) :
    ∃ c ∈ candidateList "pearlhash" entry, ¬ c.tuning.Checked "pearlhash" := by
  have hscaled : alignedScale m 1 4 64 < 128 := by
    simp only [alignedScale, Nat.mul_one]
    omega
  have hne : entry.tuning .m ≠ some (.int (alignedScale m 1 4 64)) := by
    rw [hm]
    simp only [ne_eq, Option.some.injEq, TuningValue.int.injEq]
    omega
  have hbase : entry.tuning.int? .m = some m := Tuning.int?_eq_some.mpr hm
  have hvariant : (Field.m, [TuningValue.int (alignedScale m 1 4 64),
      .int (alignedScale m 1 2 64)]) ∈ fieldVariants "pearlhash" entry.tuning := by
    have hm₀ : m ≠ 0 := by omega
    simp [fieldVariants, hbase, hm₀, progpowAlgos, fishhashAlgos]
  refine ⟨tuningCandidate entry (Tuning.empty.set .m (.int (alignedScale m 1 4 64))), ?_, ?_⟩
  · refine List.mem_cons_of_mem _ (List.mem_flatMap.mpr
      ⟨_, List.mem_append_right _ hvariant, List.mem_map.mpr ⟨_, ?_, rfl⟩⟩)
    exact List.mem_filter.mpr ⟨List.mem_cons_self, by simpa using hne⟩
  · intro hchecked
    have hself : (tuningCandidate entry (Tuning.empty.set .m
        (.int (alignedScale m 1 4 64)))).tuning .m = some (.int (alignedScale m 1 4 64)) := by
      simp [tuningCandidate, Tuning.merge, Tuning.set]
    have hmatrix := ((hchecked.fits _ _ hself).pearl rfl).1 (.inl rfl)
    exact absurd hmatrix.1 (not_le.mpr hscaled)

theorem candidateList_near {algo : String} {entry c : DeviceEntry}
    (hc : c ∈ candidateList algo entry) :
    c.device = entry.device ∧ c.processes = entry.processes ∧
      ∃ f, ∀ g, g ≠ f → c.tuning g = entry.tuning g := by
  rcases List.mem_cons.mp hc with rfl | hc
  · exact ⟨rfl, rfl, .intensity, fun g _ => rfl⟩
  · obtain ⟨variant, -, hc⟩ := List.mem_flatMap.mp hc
    obtain ⟨v, -, rfl⟩ := List.mem_map.mp hc
    refine ⟨rfl, rfl, variant.1, fun g hg => ?_⟩
    simp [tuningCandidate, Tuning.merge, Tuning.set, hg, Tuning.empty]

/-! ## The result -/

/-- What the tuner relies on. -/
structure Launchable (algo : String) (entry : DeviceEntry) (candidates : List DeviceEntry) :
    Prop where
  first : candidates.head? = some entry
  distinct : (candidates.map formatDeviceEntry).Nodup
  near : ∀ c ∈ candidates, c.device = entry.device ∧ c.processes = entry.processes ∧
    ∃ f, ∀ g, g ≠ f → c.tuning g = entry.tuning g
  valid : ∀ c ∈ candidates, ∃ t, validateTuning algo c.tuning.toJson (algo ++ " tuning") = .ok t

/-- The entries with launchable candidates: their main value meets the rules of the algorithm, and a
PearlHash matrix is large enough to be quartered. -/
def Tunable (algo : String) (entry : DeviceEntry) : Prop :=
  if isCpu entry.device then (entry.tuning .intensity).isSome → .intensity ∈ allowedFields algo
  else ∀ v, entry.tuning (primaryTuningField algo) = some (.int v) →
    (algo = "beamhash3" → 16 ≤ v ∧ v ≤ 1024 ∧ 16 ∣ v) ∧
      (algo = "pearlhash" → 512 ≤ v ∧ v ≤ 2 ^ 24 ∧ 32 ∣ v)

theorem DeviceName.isGpu_eq {device : List Char} (h : DeviceName device) :
    isGpu device = !isCpu device := by
  cases h <;> rfl

theorem primaryTuningField_of_intensity : ∀ algo ∈ algoFields.map Prod.fst,
    .intensity ∈ allowedFields algo → primaryTuningField algo = .intensity := by
  decide

theorem primaryTuningField_mem : ∀ algo ∈ algoFields.map Prod.fst,
    primaryTuningField algo ∈ allowedFields algo := by
  decide

/-- The tuning of a parsed CPU is accepted when the algorithm has the intensity that it sets. -/
theorem checked_cpu_iff {text : List Char} {algo : String} {entry : DeviceEntry}
    (halgo : algo ∈ algoFields.map Prod.fst) (h : parseDeviceEntry text algo = .ok entry)
    (hcpu : isCpu entry.device = true) : entry.tuning.Checked algo ↔
      ((entry.tuning .intensity).isSome → .intensity ∈ allowedFields algo) := by
  obtain ⟨-, -, htuning⟩ := parseDeviceEntry_tuning h
  have hfield : mainField algo entry.device = .intensity := if_pos hcpu
  rw [hfield] at htuning
  constructor
  · intro hchecked hsome
    obtain ⟨v, hv⟩ := Option.isSome_iff_exists.mp hsome
    exact hchecked.allowed _ _ hv
  · intro hallowed
    rcases htuning with hchecked | ⟨v, hvalue, ht⟩
    · exact hchecked
    · have hmem := hallowed (by rw [ht, Tuning.single_self]; rfl)
      have hprimary := primaryTuningField_of_intensity algo halgo hmem
      have hfits : MainFits algo v :=
        ⟨hprimary ▸ hmem, by rintro rfl; exact absurd hmem (by decide),
          by rintro rfl; exact absurd hmem (by decide)⟩
      rw [ht]
      have hchecked := (single_checked_iff (hprimary.symm ▸ hvalue)).mpr hfits
      rwa [hprimary] at hchecked

/-- The tuning of a parsed GPU is accepted when its main value meets the rules. -/
theorem checked_gpu_iff {text : List Char} {algo : String} {entry : DeviceEntry}
    (h : parseDeviceEntry text algo = .ok entry) (hcpu : ¬ isCpu entry.device = true) :
    entry.tuning.Checked algo ↔
      ∀ v, entry.tuning (primaryTuningField algo) = some (.int v) → MainFits algo v := by
  have hwf := parseDeviceEntry_wf h
  obtain ⟨hindex, hprocesses, -⟩ := parseDeviceEntry_tuning h
  have hprintable := parse_format_entry h
  rw [Printable, if_neg hcpu, parse_format_listed hwf fun h => absurd h hcpu] at hprintable
  rw [← hprintable]
  exact ⟨fun hchecked => ⟨rfl, hindex, hprocesses, hchecked⟩, fun h => h.2.2.2⟩

/-- Accepted GPU entries with one text are one entry. -/
theorem formatDeviceEntry_inj {algo : String} {c c' : DeviceEntry} (hc : c.Wf)
    (hcpu : isCpu c.device = false) (hdevice : c'.device = c.device)
    (hprocesses : c'.processes = c.processes) (hindex : deviceIndex c.device ≤ 1023)
    (hle : c.processes ≤ 1024) (hchecked : c.tuning.Checked algo) (hchecked' : c'.tuning.Checked algo)
    (h : formatDeviceEntry c' = formatDeviceEntry c) : c' = c := by
  have hc' : c'.Wf := ⟨hdevice ▸ hc.name, hprocesses ▸ hc.pos⟩
  have hparse := (@parse_format_listed c c algo hc (by simp [hcpu])).mpr
    ⟨rfl, hindex, hle, hchecked⟩
  have hparse' := (@parse_format_listed c' c' algo hc'
    (by simp [hdevice, hcpu])).mpr ⟨rfl, hdevice ▸ hindex, hprocesses ▸ hle, hchecked'⟩
  rw [h, hparse] at hparse'
  exact (Except.ok.inj hparse').symm

/-- The candidates of a GPU are launchable when all of them are accepted. -/
theorem launchable_of_checked {text : List Char} {algo : String} {entry : DeviceEntry}
    (h : parseDeviceEntry text algo = .ok entry) (hcpu : isCpu entry.device = false)
    (hall : ∀ c ∈ candidateList algo entry, c.tuning.Checked algo) :
    Launchable algo entry
      ((InsertionMap.collect formatDeviceEntry (candidateList algo entry)).map Prod.snd) := by
  obtain ⟨hindex, hprocesses, -⟩ := parseDeviceEntry_tuning h
  have hmem : ∀ c ∈ (InsertionMap.collect formatDeviceEntry (candidateList algo entry)).map Prod.snd,
      c ∈ candidateList algo entry := by
    intro c hc
    obtain ⟨p, hp, rfl⟩ := List.mem_map.mp hc
    exact (InsertionMap.mem_collect hp).2
  refine ⟨?_, InsertionMap.nodup_values _, fun c hc => candidateList_near (hmem c hc),
    fun c hc => ⟨_, validateTuning_toJson.mpr ⟨rfl, hall c (hmem c hc)⟩⟩⟩
  have hself : entry.tuning.Checked algo := hall _ List.mem_cons_self
  have hhead := @InsertionMap.head_collect _ _ _ formatDeviceEntry entry
    (candidateList algo entry).tail fun c hc hformat => by
      have hc' : c ∈ candidateList algo entry := List.mem_of_mem_tail hc
      obtain ⟨hd, hp, -⟩ := candidateList_near hc'
      exact formatDeviceEntry_inj (parseDeviceEntry_wf h) hcpu hd hp hindex hprocesses hself
        (hall c hc') hformat
  have hcons : candidateList algo entry = entry :: (candidateList algo entry).tail := rfl
  rw [hcons, List.head?_map, hhead]
  rfl

/-- **Automatic tuning.** The candidates for a parsed entry are returned, and are launchable, exactly
when the entry is tunable. -/
theorem autotuneCandidates_iff {text : List Char} {algo : String} {entry : DeviceEntry}
    (halgo : algo ∈ algoFields.map Prod.fst) (h : parseDeviceEntry text algo = .ok entry) :
    (∃ candidates, autotuneCandidates algo entry = .ok candidates ∧
      Launchable algo entry candidates) ↔ Tunable algo entry := by
  have hname := (parseDeviceEntry_wf h).name
  by_cases hcpu : isCpu entry.device = true
  · have hgpu : isGpu entry.device = false := by rw [hname.isGpu_eq, hcpu]; rfl
    have hreturn : autotuneCandidates algo entry = .ok [entry] := by
      simp [autotuneCandidates, hgpu]
    rw [Tunable, if_pos hcpu, ← checked_cpu_iff halgo h hcpu, hreturn]
    constructor
    · rintro ⟨candidates, heq, hlaunch⟩
      cases heq
      obtain ⟨t, ht⟩ := hlaunch.valid entry List.mem_cons_self
      exact (validateTuning_toJson.mp ht).2
    · intro hchecked
      refine ⟨[entry], rfl, rfl, List.nodup_singleton _, fun c hc => ?_, fun c hc => ?_⟩
      · rw [List.mem_singleton.mp hc]
        exact ⟨rfl, rfl, .intensity, fun g _ => rfl⟩
      · rw [List.mem_singleton.mp hc]
        exact ⟨_, validateTuning_toJson.mpr ⟨rfl, hchecked⟩⟩
  · have hcpu' : isCpu entry.device = false := by simpa using hcpu
    have hgpu : isGpu entry.device = true := by rw [hname.isGpu_eq, hcpu']; rfl
    have hchecked := checked_gpu_iff h hcpu
    rw [Tunable, if_neg hcpu]
    constructor
    · rintro ⟨candidates, heq, -⟩ v hv
      obtain ⟨hall, -⟩ := (autotuneCandidates_gpu hgpu).mp heq
      have hfits := hchecked.mp (hall _ List.mem_cons_self) v hv
      refine ⟨hfits.beam, fun halgo => ?_⟩
      obtain ⟨hmin, hmax, hdvd⟩ := hfits.pearl halgo
      refine ⟨?_, hmax, hdvd⟩
      by_contra hsmall
      subst halgo
      obtain ⟨c, hc, hnot⟩ := candidateList_small hv hmin (not_le.mp hsmall)
      exact hnot (hall c hc)
    · intro htunable
      have hself : entry.tuning.Checked algo := hchecked.mpr fun v hv =>
        ⟨primaryTuningField_mem algo halgo, (htunable v hv).1, fun halgo =>
          ⟨le_trans (by decide) ((htunable v hv).2 halgo).1, ((htunable v hv).2 halgo).2⟩⟩
      have hpearl : algo = "pearlhash" → ∀ m, entry.tuning .m = some (.int m) → 512 ≤ m := by
        rintro rfl m hm
        exact ((htunable m hm).2 rfl).1
      have hall := candidateList_checked hself hpearl
      exact ⟨_, (autotuneCandidates_gpu hgpu).mpr ⟨hall, rfl⟩, launchable_of_checked h hcpu' hall⟩

theorem autotuneCandidates_c29 : ∃ entry,
    parseDeviceEntry "gpu0*[seed_workgroup=64;seed_blocks=4]".toList "c29" = .ok entry ∧
    ((∃ candidates, autotuneCandidates "c29" entry = .ok candidates ∧
      Launchable "c29" entry candidates) ↔ Tunable "c29" entry) :=
  ⟨_, rfl, @autotuneCandidates_iff "gpu0*[seed_workgroup=64;seed_blocks=4]".toList _ _
    (by decide) rfl⟩

/-- A quarter of a PearlHash matrix of 256 rows is no matrix. -/
theorem autotune_small_matrix : ∃ entry,
    parseDeviceEntry "gpu0*[m=256]".toList "pearlhash" = .ok entry ∧
    autotuneCandidates "pearlhash" entry =
      .error "pearlhash auto-tune candidate.m must be at least 128 and a multiple of 32" :=
  ⟨_, rfl, rfl⟩

end MoMiner.Miner
