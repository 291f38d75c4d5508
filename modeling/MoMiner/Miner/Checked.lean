import MoMiner.Miner.Devices

/-!
# Accepted tunings

`validateTuning` reads an object field by field and then checks the fields together. This module
says which tunings it accepts, without the object that they come from:

- every field belongs to the algorithm and its value is one that the field takes (`Accepts`);
- for PearlHash, `k` and `rank` fit each other.

An object may spell a value as a number or as a text. Both spellings are read back, so an object
that lists a tuning is accepted exactly when the tuning is.

Main results: `validateTuning_checked` and `validateTuning_listed`.
-/

namespace MoMiner.Miner

open MoMiner.Js

/-! ## Values of a field -/

/-- The values that a field takes, whatever the algorithm. -/
def Field.Takes (f : Field) : TuningValue → Prop
  | .int v => f.choices = none ∧ f.minimum ≤ v ∧ v ≤ 0xffffffff ∧
      (f = .seedWorkgroup → v ∈ [64, 128, 256]) ∧ (f = .seedBlocks → v ∈ [4, 8, 16, 32]) ∧
      (f = .slots → 16 ∣ v)
  | .choice c => c ∈ f.choices.getD []

instance (f : Field) : DecidablePred f.Takes
  | .int _ => inferInstanceAs (Decidable (_ ∧ _))
  | .choice _ => inferInstanceAs (Decidable (_ ∈ _))

/-- A JSON value that spells a tuning value. -/
inductive Spells : Json → TuningValue → Prop
  | text (v : TuningValue) : Spells (.str (String.ofList v.text)) v
  | number (n : ℕ) : Spells (.num (.finite n)) (.int n)

theorem validateInteger_eq_ok {f : Field} {value : Json} {label : String} {v : ℕ} :
    validateInteger f value label = .ok v ↔
      decimalNumber? value = some (.finite v) ∧ f.minimum ≤ v ∧ v ≤ 0xffffffff ∧
      (f = .seedWorkgroup → v ∈ [64, 128, 256]) ∧ (f = .seedBlocks → v ∈ [4, 8, 16, 32]) ∧
      (f = .slots → 16 ∣ v) := by
  unfold validateInteger
  cases hnumber : decimalNumber? value with
  | none => simp
  | some number =>
    cases hrange : number.safeNat?.filter (fun v => f.minimum ≤ v ∧ v ≤ 0xffffffff) with
    | none =>
      simp only [hrange, reduceCtorEq, false_iff, Option.some.injEq]
      rintro ⟨rfl, hmin, hmax, -⟩
      have hsafe : (Number.finite (v : ℚ)).safeNat? = some v :=
        Number.safeNat?_eq_some.mpr ⟨rfl, hmax.trans (by decide)⟩
      simp [hsafe, hmin] at hrange
      omega
    | some w =>
      obtain ⟨hsafe, hw⟩ := Option.filter_eq_some_iff.mp hrange
      obtain ⟨rfl, -⟩ := Number.safeNat?_eq_some.mp hsafe
      simp only [decide_eq_true_eq] at hw
      simp only [hrange, Except.bind_eq_ok, throwIf_eq_ok, not_and, not_not, exists_const,
        Option.some.injEq, Number.finite.injEq, Nat.cast_inj]
      constructor
      · rintro ⟨h₁, h₂, h₃, h⟩
        cases h
        exact ⟨rfl, hw.1, hw.2, h₁, h₂, fun hf => Nat.dvd_of_mod_eq_zero (h₃ hf)⟩
      · rintro ⟨rfl, -, -, h₁, h₂, h₃⟩
        exact ⟨h₁, h₂, fun hf => Nat.mod_eq_zero_of_dvd (h₃ hf), rfl⟩

theorem isDigits_toDigits (n : ℕ) : isDigits (String.ofList (Nat.toDigits 10 n)) = true := by
  have hne : String.ofList (Nat.toDigits 10 n) ≠ "" := by
    intro h
    have := congrArg String.toList h
    rw [String.toList_ofList] at this
    exact Nat.toDigits_ne_nil this
  rw [isDigits, String.toList_ofList, Bool.and_eq_true]
  exact ⟨decide_eq_true hne, List.all_eq_true.mpr fun c hc => isDigit_of_mem_toDigits hc⟩

theorem Choice.isDigits_text (c : Choice) : isDigits c.text = false := by
  cases c <;> decide

theorem Choice.toLowerCase_text (c : Choice) : toLowerCase c.text = c.text := by
  cases c <;> decide

theorem Choice.text_injective : Function.Injective Choice.text := by
  intro c d h
  cases c <;> cases d <;> first | rfl | (revert h; decide)

/-- A spelled number is read back; a choice is not a number. -/
theorem Spells.decimalNumber? {value : Json} {v : TuningValue} (h : Spells value v) {n : ℕ} :
    Miner.decimalNumber? value = some (.finite n) ↔ v = .int n := by
  cases h with
  | text v =>
    cases v with
    | int m =>
      have hvalue : decimalValue (String.ofList (Nat.toDigits 10 m)) = m := digitsValue_toDigits m
      simp [Miner.decimalNumber?, TuningValue.text, isDigits_toDigits, hvalue]
    | choice c => simp [Miner.decimalNumber?, TuningValue.text, Choice.isDigits_text]
  | number m => simp [Miner.decimalNumber?]

theorem toLowerCase_toDigits (n : ℕ) :
    toLowerCase (String.ofList (Nat.toDigits 10 n)) = String.ofList (Nat.toDigits 10 n) := by
  rw [toLowerCase, String.toList_ofList]
  congr 1
  simpa using List.map_congr_left (g := id) fun c hc =>
    toLower_of_isDigit (isDigit_of_mem_toDigits (n := n) hc)

/-- A spelled choice is found among the choices of a field; a number is not. -/
theorem Spells.find? {value : Json} {v : TuningValue} (h : Spells value v) {choices : List Choice}
    {c : Choice} :
    (value.str?.bind fun text => choices.find? (·.text = toLowerCase text)) = some c ↔
      v = .choice c ∧ c ∈ choices := by
  cases h with
  | number m => simp [Json.str?]
  | text v =>
    cases v with
    | int m =>
      simp only [Json.str?, Option.bind_some, TuningValue.text, toLowerCase_toDigits, reduceCtorEq,
        false_and, iff_false]
      intro hfound
      have htext : c.text = String.ofList (Nat.toDigits 10 m) := by
        simpa using List.find?_some hfound
      have hdigits := isDigits_toDigits m
      rw [← htext, c.isDigits_text] at hdigits
      cases hdigits
    | choice d =>
      have hpred : (fun c : Choice => decide (c.text = d.text)) = fun c => decide (c = d) := by
        funext c
        exact decide_eq_decide.mpr Choice.text_injective.eq_iff
      simp only [Json.str?, Option.bind_some, TuningValue.text, String.ofList_toList,
        d.toLowerCase_text, hpred, TuningValue.choice.injEq]
      constructor
      · intro hfound
        have hcd : c = d := by simpa using List.find?_some hfound
        exact ⟨hcd.symm, List.mem_of_find?_eq_some hfound⟩
      · rintro ⟨rfl, hmem⟩
        have hfound : (choices.find? fun c => decide (c = d)).isSome :=
          List.find?_isSome.mpr ⟨d, hmem, by simp⟩
        obtain ⟨x, hx⟩ := Option.isSome_iff_exists.mp hfound
        have hxd : x = d := by simpa using List.find?_some hx
        rw [hx, hxd]

theorem validateValue_takes {f : Field} {value : Json} {label : String} {v : TuningValue}
    (h : validateValue f value label = .ok v) : f.Takes v := by
  unfold validateValue at h
  split at h
  · next hnone =>
    obtain ⟨n, hn, h⟩ := Except.bind_eq_ok.mp h
    cases h
    exact ⟨hnone, (validateInteger_eq_ok.mp hn).2⟩
  · next choices hsome =>
    split at h
    · cases h
    · next c hc =>
      cases h
      obtain ⟨text, -, hfound⟩ := Option.bind_eq_some_iff.mp hc
      simpa [Field.Takes, hsome] using List.mem_of_find?_eq_some hfound

/-- **A spelled value is read back exactly when the field takes it.** -/
theorem Spells.validateValue {value : Json} {v : TuningValue} (h : Spells value v) {f : Field}
    {label : String} {v' : TuningValue} :
    Miner.validateValue f value label = .ok v' ↔ v' = v ∧ f.Takes v := by
  constructor
  · intro hok
    have htakes := validateValue_takes hok
    have heq : v' = v := by
      unfold Miner.validateValue at hok
      split at hok
      · obtain ⟨n, hn, hok⟩ := Except.bind_eq_ok.mp hok
        cases hok
        exact (h.decimalNumber?.mp (validateInteger_eq_ok.mp hn).1).symm
      · split at hok
        · cases hok
        · next c hc =>
          cases hok
          exact (h.find?.mp hc).1.symm
    exact ⟨heq, heq ▸ htakes⟩
  · rintro ⟨rfl, htakes⟩
    unfold Miner.validateValue
    cases hv : v' with
    | int n =>
      rw [hv] at h htakes
      obtain ⟨hnone, hrest⟩ := htakes
      rw [hnone]
      exact Except.bind_eq_ok.mpr
        ⟨n, validateInteger_eq_ok.mpr ⟨h.decimalNumber?.mpr rfl, hrest⟩, rfl⟩
    | choice c =>
      rw [hv] at h htakes
      cases hchoices : f.choices with
      | none => simp [Field.Takes, hchoices] at htakes
      | some choices =>
        have hmem : c ∈ choices := by simpa [Field.Takes, hchoices] using htakes
        simp only [h.find?.mpr ⟨rfl, hmem⟩]

/-! ## A tuning for an algorithm -/

/-- The rule of PearlHash for one field. -/
def Field.FitsPearl (f : Field) (v : ℕ) : Prop :=
  (f = .m ∨ f = .n → 128 ≤ v ∧ v ≤ 2 ^ 24 ∧ 32 ∣ v) ∧
    (f = .k → 1024 ≤ v ∧ v ≤ 2 ^ 16 ∧ 64 ∣ v) ∧
    (f = .rank → 128 ≤ v ∧ v ≤ 1024 ∧ v &&& (v - 1) = 0)

/-- The rules of an algorithm for the number in one field. -/
structure Field.Fits (algo : String) (f : Field) (v : ℕ) : Prop where
  fixed : algo ∈ fixedIntensityAlgos → f = .intensity → v = 1
  listed : ∀ choice ∈ workgroupChoices algo, choice.1 = f → v ∈ choice.2
  beam : algo = "beamhash3" → f ∈ [Field.workgroup, .compactWorkgroup, .scatterWorkgroup] →
    16 ≤ v ∧ v ≤ (if f = .compactWorkgroup then 512 else 1024) ∧ 16 ∣ v
  pearl : algo = "pearlhash" → f.FitsPearl v

instance (f : Field) : DecidablePred f.FitsPearl :=
  fun _ => inferInstanceAs (Decidable (_ ∧ _))

instance (algo : String) (f : Field) (v : ℕ) : Decidable (f.Fits algo v) :=
  decidable_of_iff
    ((algo ∈ fixedIntensityAlgos → f = .intensity → v = 1) ∧
      (∀ choice ∈ workgroupChoices algo, choice.1 = f → v ∈ choice.2) ∧
      (algo = "beamhash3" → f ∈ [Field.workgroup, .compactWorkgroup, .scatterWorkgroup] →
        16 ≤ v ∧ v ≤ (if f = .compactWorkgroup then 512 else 1024) ∧ 16 ∣ v) ∧
      (algo = "pearlhash" → f.FitsPearl v))
    ⟨fun ⟨fixed, listed, beam, pearl⟩ => ⟨fixed, listed, beam, pearl⟩,
      fun h => ⟨h.fixed, h.listed, h.beam, h.pearl⟩⟩

/-- A tuning that the validation of an algorithm accepts. -/
structure Tuning.Checked (algo : String) (t : Tuning) : Prop where
  allowed : ∀ f v, t f = some v → f ∈ allowedFields algo
  takes : ∀ f v, t f = some v → f.Takes v
  fits : ∀ f v, t f = some (.int v) → f.Fits algo v
  shaped : algo = "pearlhash" → ∀ k r, t .k = some (.int k) → t .rank = some (.int r) →
    16 * r ≤ k ∧ k ≤ 4 * r * r

theorem Tuning.int?_eq_some {t : Tuning} {f : Field} {v : ℕ} :
    t.int? f = some v ↔ t f = some (.int v) := by
  cases h : t f with
  | none => simp [Tuning.int?, h]
  | some value => cases value <;> simp [Tuning.int?, h]

theorem Tuning.any_int? {t : Tuning} {f : Field} {p : ℕ → Bool} :
    (t.int? f).any p = true ↔ ∃ v, t f = some (.int v) ∧ p v := by
  simp only [Option.any_eq_true, Tuning.int?_eq_some]

theorem checkBeamWorkgroup_eq_ok {t : Tuning} {context : String} {f : Field} {u : Unit} :
    checkBeamWorkgroup t context f = .ok u ↔ ∀ v, t f = some (.int v) →
      16 ≤ v ∧ v ≤ (if f = .compactWorkgroup then 512 else 1024) ∧ 16 ∣ v := by
  simp only [checkBeamWorkgroup, throwIf_eq_ok, Tuning.any_int?, not_exists, not_and]
  refine forall₂_congr fun v _ => ?_
  simp only [Bool.or_eq_true, decide_eq_true_eq, not_or, not_lt, ne_eq, not_not,
    Nat.dvd_iff_mod_eq_zero, and_assoc]

theorem checkPearlMatrix_eq_ok {t : Tuning} {context : String} {f : Field} {u : Unit} :
    checkPearlMatrix t context f = .ok u ↔ ∀ v, t f = some (.int v) →
      128 ≤ v ∧ v ≤ 2 ^ 24 ∧ 32 ∣ v := by
  simp only [checkPearlMatrix, Except.bind_eq_ok, throwIf_eq_ok, Tuning.any_int?, not_exists,
    not_and, exists_const, Bool.or_eq_true, decide_eq_true_eq, not_or, not_lt, ne_eq, not_not,
    Nat.dvd_iff_mod_eq_zero]
  constructor
  · rintro ⟨hmax, h⟩ v hv
    exact ⟨(h v hv).1, hmax v hv, (h v hv).2⟩
  · intro h
    exact ⟨fun v hv => (h v hv).2.1, fun v hv => ⟨(h v hv).1, (h v hv).2.2⟩⟩

theorem checkPearlTuning_eq_ok {t : Tuning} {context : String} {u : Unit} :
    checkPearlTuning t context = .ok u ↔ (∀ f v, t f = some (.int v) → f.FitsPearl v) ∧
      ∀ k r, t .k = some (.int k) → t .rank = some (.int r) → 16 * r ≤ k ∧ k ≤ 4 * r * r := by
  simp only [checkPearlTuning, Except.bind_eq_ok, checkPearlMatrix_eq_ok, throwIf_eq_ok,
    Tuning.any_int?, not_exists, not_and, exists_const, Bool.or_eq_true, decide_eq_true_eq, not_or,
    not_lt, ne_eq, not_not]
  constructor
  · rintro ⟨hm, hn, hkmax, hk, hrank, hshape⟩
    refine ⟨fun f v hv => ⟨?_, ?_, ?_⟩, fun k r hk hr => hshape k hk r hr⟩
    · rintro (rfl | rfl)
      · exact hm v hv
      · exact hn v hv
    · rintro rfl
      exact ⟨(hk v hv).1, hkmax v hv, Nat.dvd_of_mod_eq_zero (hk v hv).2⟩
    · rintro rfl
      exact ⟨(hrank v hv).1.1, (hrank v hv).1.2, (hrank v hv).2⟩
  · rintro ⟨hfits, hshape⟩
    refine ⟨fun v hv => (hfits _ v hv).1 (.inl rfl), fun v hv => (hfits _ v hv).1 (.inr rfl),
      ?_, ?_, ?_, fun k hk r hr => hshape k r hk hr⟩
    · exact fun v hv => ((hfits _ v hv).2.1 rfl).2.1
    · intro v hv
      obtain ⟨hmin, -, hdvd⟩ := (hfits _ v hv).2.1 rfl
      exact ⟨hmin, Nat.mod_eq_zero_of_dvd hdvd⟩
    · intro v hv
      obtain ⟨hmin, hmax, hpow⟩ := (hfits _ v hv).2.2 rfl
      exact ⟨⟨hmin, hmax⟩, hpow⟩

theorem checkTuning_parts {algo context : String} {t : Tuning} {u : Unit} :
    checkTuning algo t context = .ok u ↔
      (algo ∈ fixedIntensityAlgos → ∀ v, t .intensity = some (.int v) → v = 1) ∧
      (∀ choice ∈ workgroupChoices algo, ∀ v, t choice.1 = some (.int v) → v ∈ choice.2) ∧
      (algo = "beamhash3" → ∀ f ∈ [Field.workgroup, .compactWorkgroup, .scatterWorkgroup],
        checkBeamWorkgroup t context f = .ok ()) ∧
      (algo = "pearlhash" → checkPearlTuning t context = .ok ()) := by
  have hfixed : ¬ (algo ∈ fixedIntensityAlgos ∧ (t.int? .intensity).any (· ≠ 1) = true) ↔
      (algo ∈ fixedIntensityAlgos → ∀ v, t .intensity = some (.int v) → v = 1) := by
    simp only [Tuning.any_int?, not_and, not_exists, ne_eq, decide_not, Bool.not_eq_true',
      decide_eq_false_iff_not, not_not]
  have hlisted : (∀ choice ∈ workgroupChoices algo, checkWorkgroup t context choice = .ok ()) ↔
      ∀ choice ∈ workgroupChoices algo, ∀ v, t choice.1 = some (.int v) → v ∈ choice.2 := by
    simp only [checkWorkgroup, throwIf_eq_ok, Tuning.any_int?, not_exists, not_and,
      decide_not, Bool.not_eq_true', decide_eq_false_iff_not, not_not]
  rw [← hfixed, ← hlisted]
  by_cases hbeam : algo = "beamhash3"
  · simp [checkTuning, hbeam, forM_eq_ok, pure, Except.pure, Unique.exists_iff]
  · by_cases hpearl : algo = "pearlhash"
    · simp [checkTuning, hpearl, forM_eq_ok]
    · simp [checkTuning, hbeam, hpearl, forM_eq_ok, pure, Except.pure]

/-- The checks of a whole tuning, by field. -/
theorem checkTuning_eq_ok {algo context : String} {t : Tuning} {u : Unit} :
    checkTuning algo t context = .ok u ↔ (∀ f v, t f = some (.int v) → f.Fits algo v) ∧
      (algo = "pearlhash" → ∀ k r, t .k = some (.int k) → t .rank = some (.int r) →
        16 * r ≤ k ∧ k ≤ 4 * r * r) := by
  simp only [checkTuning_parts, checkBeamWorkgroup_eq_ok, checkPearlTuning_eq_ok]
  constructor
  · rintro ⟨hfixed, hlisted, hbeam, hpearl⟩
    refine ⟨fun f v hv => ⟨?_, ?_, ?_, fun h => (hpearl h).1 f v hv⟩, fun h => (hpearl h).2⟩
    · rintro hmem rfl
      exact hfixed hmem v hv
    · rintro choice hmem rfl
      exact hlisted choice hmem v hv
    · exact fun h hmem => hbeam h f hmem v hv
  · rintro ⟨hfits, hshape⟩
    refine ⟨fun hmem v hv => (hfits _ v hv).fixed hmem rfl,
      fun choice hmem v hv => (hfits _ v hv).listed choice hmem rfl,
      fun h f hf v hv => (hfits f v hv).beam h hf,
      fun h => ⟨fun f v hv => (hfits f v hv).pearl h, hshape h⟩⟩

/-! ## Validating an object -/

theorem mem_tuningFieldOrder (f : Field) : f ∈ tuningFieldOrder := by
  cases f <;> decide

theorem Field.ofName?_name (f : Field) : Field.ofName? f.name = some f := by
  cases f <;> decide

/-- The tuning that has the given values in some fields, and no others. -/
def Tuning.ofList (fs : List Field) (value : Field → TuningValue) : Tuning :=
  fun f => if f ∈ fs then some (value f) else none

/-- The fields that a tuning has, in printing order. -/
def Tuning.fields (t : Tuning) : List Field := tuningFieldOrder.filter fun f => (t f).isSome

/-- The value of a field that a tuning has. -/
def Tuning.value (t : Tuning) (f : Field) : TuningValue := (t f).getD (.int 0)

theorem Tuning.mem_fields {t : Tuning} {f : Field} : f ∈ t.fields ↔ (t f).isSome := by
  simp [Tuning.fields, mem_tuningFieldOrder]

theorem Tuning.value_eq {t : Tuning} {f : Field} (h : (t f).isSome) : t f = some (t.value f) := by
  obtain ⟨v, hv⟩ := Option.isSome_iff_exists.mp h
  simp [Tuning.value, hv]

theorem Tuning.ofList_fields (t : Tuning) : Tuning.ofList t.fields t.value = t := by
  funext f
  rw [Tuning.ofList]
  split_ifs with h
  · exact (Tuning.value_eq (Tuning.mem_fields.mp h)).symm
  · rw [Tuning.mem_fields, Option.not_isSome_iff_eq_none] at h
    exact h.symm

/-- Each field is read on its own. -/
theorem validateField_eq_ok {algo context : String} {t t' : Tuning} {f : Field} {value : Json}
    {v : TuningValue} (h : Spells value v) :
    validateField algo context t (f.name, value) = .ok t' ↔
      (f ∈ allowedFields algo ∧ f.Takes v) ∧ t' = t.set f v := by
  unfold validateField
  rw [Field.ofName?_name]
  by_cases hf : f ∈ allowedFields algo
  · simp only [Option.filter_some, hf, decide_true, if_true, Except.bind_eq_ok, h.validateValue]
    constructor
    · rintro ⟨w, ⟨rfl, htakes⟩, hset⟩
      cases hset
      exact ⟨⟨trivial, htakes⟩, rfl⟩
    · rintro ⟨⟨-, htakes⟩, rfl⟩
      exact ⟨v, ⟨rfl, htakes⟩, rfl⟩
  · have hnone : (some f).filter (· ∈ allowedFields algo) = none := by simp [hf]
    simp [hnone, hf]

theorem validateField_takes {algo context : String} {t t' : Tuning} {entry : String × Json}
    (h : validateField algo context t entry = .ok t') :
    ∃ f v, f ∈ allowedFields algo ∧ f.Takes v ∧ t' = t.set f v := by
  unfold validateField at h
  split at h
  · cases h
  · next f hf =>
    obtain ⟨v, hv, h⟩ := Except.bind_eq_ok.mp h
    cases h
    have hallowed : f ∈ allowedFields algo := by
      simpa using (Option.filter_eq_some_iff.mp hf).2
    exact ⟨f, v, hallowed, validateValue_takes hv, rfl⟩

/-- **What validation accepts is checked.** -/
theorem validateTuning_checked {algo context : String} {value : Json} {t : Tuning}
    (h : validateTuning algo value context = .ok t) : t.Checked algo := by
  unfold validateTuning at h
  split at h
  · next fields =>
    simp only [Except.bind_eq_ok] at h
    obtain ⟨read, hread, u, hcheck, h⟩ := h
    cases h
    obtain ⟨hfits, hshaped⟩ := checkTuning_eq_ok.mp hcheck
    have hvalues : ∀ f v, t f = some v → f ∈ allowedFields algo ∧ f.Takes v := by
      refine foldlM_invariant (P := fun t : Tuning => ∀ f v, t f = some v →
        f ∈ allowedFields algo ∧ f.Takes v) hread ?_ ?_
      · intro f v h
        cases h
      intro s entry _ s' hs hstep f v hv
      obtain ⟨g, w, hallowed, htakes, rfl⟩ := validateField_takes hstep
      by_cases hfg : f = g
      · subst hfg
        rw [Tuning.set, Function.update_self] at hv
        cases hv
        exact ⟨hallowed, htakes⟩
      · rw [Tuning.set, Function.update_of_ne hfg] at hv
        exact hs f v hv
    exact ⟨fun f v hv => (hvalues f v hv).1, fun f v hv => (hvalues f v hv).2, hfits, hshaped⟩
  · cases h

/-- The loop over an object that lists values. -/
theorem foldlM_validateField {algo context : String} {fs : List Field} {json : Field → Json}
    {value : Field → TuningValue} (h : ∀ f ∈ fs, Spells (json f) (value f)) {t t' : Tuning} :
    (fs.map fun f => (f.name, json f)).foldlM (validateField algo context) t = .ok t' ↔
      (∀ f ∈ fs, f ∈ allowedFields algo ∧ f.Takes (value f)) ∧
        t' = fun f => if f ∈ fs then some (value f) else t f := by
  induction fs generalizing t with
  | nil => simp [pure, Except.pure, eq_comm]
  | cons f fs ih =>
    obtain ⟨hf, hfs⟩ := List.forall_mem_cons.mp h
    have hset : (fun g => if g ∈ fs then some (value g) else t.set f (value f) g) =
        fun g => if g ∈ f :: fs then some (value g) else t g := by
      funext g
      by_cases hg : g ∈ fs
      · simp [hg]
      · by_cases hgf : g = f
        · simp [hgf, Tuning.set]
        · simp [hg, hgf, Tuning.set]
    simp only [List.map_cons, List.foldlM_cons, Except.bind_eq_ok, validateField_eq_ok hf,
      List.forall_mem_cons, ih hfs]
    constructor
    · rintro ⟨s, ⟨hfirst, rfl⟩, hrest, rfl⟩
      exact ⟨⟨hfirst, hrest⟩, hset⟩
    · rintro ⟨⟨hfirst, hrest⟩, rfl⟩
      exact ⟨_, ⟨hfirst, rfl⟩, hrest, hset.symm⟩

/-- **An object that lists a tuning is accepted exactly when the tuning is checked.** -/
theorem validateTuning_listed {algo context : String} {fs : List Field} {json : Field → Json}
    {value : Field → TuningValue} (h : ∀ f ∈ fs, Spells (json f) (value f)) {t : Tuning} :
    validateTuning algo (.obj (fs.map fun f => (f.name, json f))) context = .ok t ↔
      t = Tuning.ofList fs value ∧ t.Checked algo := by
  constructor
  · intro hok
    refine ⟨?_, validateTuning_checked hok⟩
    simp only [validateTuning, Except.bind_eq_ok] at hok
    obtain ⟨read, hread, u, -, hok⟩ := hok
    cases hok
    exact ((foldlM_validateField h).mp hread).2
  · rintro ⟨rfl, hchecked⟩
    have hvalues : ∀ f ∈ fs, f ∈ allowedFields algo ∧ f.Takes (value f) := by
      intro f hf
      have hv : Tuning.ofList fs value f = some (value f) := if_pos hf
      exact ⟨hchecked.allowed f _ hv, hchecked.takes f _ hv⟩
    simp only [validateTuning, Except.bind_eq_ok]
    exact ⟨_, (foldlM_validateField h).mpr ⟨hvalues, rfl⟩, (),
      checkTuning_eq_ok.mpr ⟨hchecked.fits, hchecked.shaped⟩, rfl⟩

end MoMiner.Miner
