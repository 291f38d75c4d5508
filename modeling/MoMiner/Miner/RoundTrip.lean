import MoMiner.Miner.Checked
import MoMiner.Miner.Grammar

/-!
# Printing and parsing device entries

A parsed entry is printed for the configuration file and for the workers, and parsed again there.

**The expanded form.** The fields of a tuning are printed between brackets and validated as a whole
when they are read back: what comes back is the tuning, if the algorithm accepts it.

**The short form.** A main value is only checked as an integer, for any algorithm. A GPU prints it
between brackets, where the rules of the algorithm apply.

**A CPU** prints its intensity as a main value in front of the other fields. The grammar has no
such text.

Main results: `parse_format_iff` and `short_expanded_iff`.
-/

namespace MoMiner.Miner

open MoMiner.Js

/-! ## Reading a printed tuning list -/

/-- A printed field. -/
def fieldText (f : Field) (v : TuningValue) : List Char := f.name.toList ++ '=' :: v.text

theorem filterMap_fieldText (t : Tuning) (fs : List Field) :
    fs.filterMap (fun f => (t f).map (fieldText f)) =
      (fs.filter fun f => (t f).isSome).map fun f => fieldText f (t.value f) := by
  induction fs with
  | nil => rfl
  | cons f fs ih =>
    cases hf : t f with
    | none => simp [hf, ih]
    | some v => simp [hf, ih, Tuning.value]

/-- A CPU does not print its intensity among the fields. -/
theorem tuningFields_eq (entry : DeviceEntry) :
    tuningFields entry =
      (entry.tuning.fields.filter fun f => !(isCpu entry.device && f = .intensity)).map fun f =>
        fieldText f (entry.tuning.value f) := by
  rw [Tuning.fields, List.filter_comm]
  exact filterMap_fieldText _ _

theorem Field.name_injective : Function.Injective Field.name := by
  intro f g h
  have := Field.ofName?_name f
  rw [h, Field.ofName?_name g] at this
  exact (Option.some.inj this).symm

theorem Field.equals_notMem_name (f : Field) : '=' ∉ f.name.toList := by
  cases f <;> decide

theorem Field.isLowerName_name (f : Field) :
    isLowerName f.name.toList = true ∧ lowerCase f.name.toList = f.name.toList ∧
      f.name ≠ "constructor" := by
  cases f <;> decide

theorem Field.trim_name (f : Field) : trim f.name.toList = f.name.toList := by
  refine trim_of_forall fun c hc => ?_
  have hplain := List.all_eq_true.mp f.isPlain_name c hc
  simp only [isPlain, Bool.and_eq_true, Bool.not_eq_true'] at hplain
  exact hplain.1.1

theorem TuningValue.trim_text (v : TuningValue) : trim v.text = v.text := by
  refine trim_of_forall fun c hc => ?_
  have hplain := v.isPlain_text c hc
  simp only [isPlain, Bool.and_eq_true, Bool.not_eq_true'] at hplain
  exact hplain.1.1

theorem TuningValue.text_ne_nil (v : TuningValue) : v.text ≠ [] := by
  cases v with
  | int n => exact Nat.toDigits_ne_nil
  | choice c => cases c <;> decide

/-- The object that a printed list is read into. -/
def textFields (fs : List Field) (value : Field → TuningValue) : List (String × Json) :=
  fs.map fun f => (f.name, .str (String.ofList (value f).text))

theorem lookup_textFields {fs : List Field} {value : Field → TuningValue} {f : Field} (h : f ∉ fs) :
    (textFields fs value).lookup f.name = none := by
  induction fs with
  | nil => rfl
  | cons g fs ih =>
    obtain ⟨hfg, hfs⟩ := not_or.mp (mt List.mem_cons.mpr h)
    have hname : (f.name == g.name) = false := by simpa using Field.name_injective.ne hfg
    rw [textFields, List.map_cons, List.lookup_cons, hname]
    exact ih hfs

theorem addTuningPart_fieldText {context : String} {raw : List (String × Json)} {f : Field}
    {v : TuningValue} (h : raw.lookup f.name = none) :
    addTuningPart context raw (fieldText f v) =
      .ok (raw ++ [(f.name, .str (String.ofList v.text))]) := by
  have hindex : (fieldText f v).idxOf '=' = f.name.toList.length := by
    rw [fieldText, List.idxOf_append_of_notMem f.equals_notMem_name, List.idxOf_cons_self]
    rfl
  have hname : f.name.toList.length ≠ 0 := by
    cases f <;> decide
  have hvalue : v.text.length ≠ 0 := by simpa using v.text_ne_nil
  have hlength : ¬ (f.name.toList.length = 0 ∨
      (fieldText f v).length ≤ f.name.toList.length + 1) := by
    simp only [fieldText, List.length_append, List.length_cons]
    omega
  have htake : (fieldText f v).take f.name.toList.length = f.name.toList := List.take_left
  have hdrop : (fieldText f v).drop (f.name.toList.length + 1) = v.text := by
    rw [fieldText, ← List.drop_drop, List.drop_left]
    rfl
  obtain ⟨hlower, hcase, hconstructor⟩ := f.isLowerName_name
  simp only [addTuningPart, hindex, if_neg hlength, htake, f.trim_name, hcase, hdrop, v.trim_text,
    String.ofList_toList, hlower, h, hconstructor, Option.isSome_none, Bool.not_true, Bool.or_self,
    decide_false, Bool.false_eq_true, if_false]

/-- The parts are read one after the other. -/
theorem foldlM_addTuningPart {context : String} {value : Field → TuningValue} {read fs : List Field}
    (h : (read ++ fs).Nodup) :
    (fs.map fun f => fieldText f (value f)).foldlM (addTuningPart context) (textFields read value) =
      .ok (textFields (read ++ fs) value) := by
  induction fs generalizing read with
  | nil => simp [pure, Except.pure]
  | cons f fs ih =>
    have hf : f ∉ read := by
      rw [List.nodup_append] at h
      exact fun hmem => h.2.2 f hmem f List.mem_cons_self rfl
    have hnext : textFields read value ++ [(f.name, .str (String.ofList (value f).text))] =
        textFields (read ++ [f]) value := by simp [textFields]
    have happend : read ++ f :: fs = read ++ [f] ++ fs := by simp
    rw [happend] at h ⊢
    rw [List.map_cons, List.foldlM_cons, addTuningPart_fieldText (lookup_textFields hf), hnext]
    exact ih h

theorem semicolon_notMem_fieldText (f : Field) (v : TuningValue) : ';' ∉ fieldText f v := by
  have hname : ';' ∉ f.name.toList := by cases f <;> decide
  have hvalue : ';' ∉ v.text := by
    cases v with
    | int n =>
      intro h
      cases isDigit_of_mem_toDigits h
    | choice c => cases c <;> decide
  simp [fieldText, hname, hvalue]

/-- **A printed list is read back as an object of texts.** -/
theorem parseExpandedTuning_texts {algo context : String} {value : Field → TuningValue}
    {fs : List Field} (hfs : fs ≠ []) (hnodup : fs.Nodup) :
    parseExpandedTuning algo (some ([';'].intercalate (fs.map fun f => fieldText f (value f))))
      context = validateTuning algo (.obj (textFields fs value)) context := by
  have hne : [';'].intercalate (fs.map fun f => fieldText f (value f)) ≠ [] := by
    obtain ⟨f, fs, rfl⟩ := List.exists_cons_of_ne_nil hfs
    cases fs <;> simp [fieldText, List.intercalate]
  have hsplit : split ';' ([';'].intercalate (fs.map fun f => fieldText f (value f))) =
      fs.map fun f => fieldText f (value f) := by
    refine List.splitOn_intercalate _ ?_ (by simpa using hfs)
    intro text htext
    obtain ⟨f, -, rfl⟩ := List.mem_map.mp htext
    exact semicolon_notMem_fieldText f _
  have hread := @foldlM_addTuningPart context value [] fs (by simpa using hnodup)
  obtain ⟨c, cs, hcs⟩ := List.exists_cons_of_ne_nil hne
  rw [hcs] at hsplit ⊢
  simp only [parseExpandedTuning, hsplit]
  rw [show ([] : List (String × Json)) = textFields [] value from rfl, hread]
  rfl

theorem parseExpandedTuning_eq_ok {algo context : String} {fs : List Field}
    {value : Field → TuningValue} (hfs : fs ≠ []) (hnodup : fs.Nodup) {t : Tuning} :
    parseExpandedTuning algo (some ([';'].intercalate (fs.map fun f => fieldText f (value f))))
      context = .ok t ↔ t = Tuning.ofList fs value ∧ t.Checked algo := by
  rw [parseExpandedTuning_texts hfs hnodup]
  exact validateTuning_listed fun f _ => .text (value f)

/-! ## The main value -/

/-- The field that the short form of a device sets. -/
def mainField (algo : String) (device : List Char) : Field :=
  if isCpu device then .intensity else primaryTuningField algo

/-- A tuning of one number. -/
def Tuning.single (f : Field) (v : ℕ) : Tuning := Tuning.empty.set f (.int v)

@[simp] theorem Tuning.single_self (f : Field) (v : ℕ) : Tuning.single f v f = some (.int v) :=
  Function.update_self ..

theorem Tuning.single_of_ne {f g : Field} (h : g ≠ f) (v : ℕ) : Tuning.single f v g = none :=
  Function.update_of_ne h ..

theorem Tuning.single_eq_some {f g : Field} {v : ℕ} {w : TuningValue} :
    Tuning.single f v g = some w ↔ g = f ∧ w = .int v := by
  by_cases h : g = f
  · subst h
    simp [eq_comm]
  · simp [Tuning.single_of_ne h, h]

/-- What the parser checks of a main value. -/
structure MainValue (algo : String) (f : Field) (v : ℕ) : Prop where
  takes : f.Takes (.int v)
  fixed : algo ∈ fixedIntensityAlgos → f = .intensity → v = 1

theorem primaryTuningField_cases (algo : String) :
    (algo = "c29" ∧ primaryTuningField algo = .seedWorkgroup) ∨
    (algo = "pearlhash" ∧ primaryTuningField algo = .m) ∨
    (algo = "zelhash" ∧ primaryTuningField algo = .slots) ∨
    (algo = "beamhash3" ∧ primaryTuningField algo = .workgroup) ∨
    (algo ∉ ["c29", "pearlhash", "zelhash", "beamhash3"] ∧
      primaryTuningField algo = .intensity) := by
  by_cases h₁ : algo = "c29"
  · exact .inl ⟨h₁, by rw [h₁]; decide⟩
  by_cases h₂ : algo = "pearlhash"
  · exact .inr (.inl ⟨h₂, by rw [h₂]; decide⟩)
  by_cases h₃ : algo = "zelhash"
  · exact .inr (.inr (.inl ⟨h₃, by rw [h₃]; decide⟩))
  by_cases h₄ : algo = "beamhash3"
  · exact .inr (.inr (.inr (.inl ⟨h₄, by rw [h₄]; decide⟩)))
  · have hb : ∀ name : String, algo ≠ name → (algo == name) = false := fun _ h => by simpa using h
    refine .inr (.inr (.inr (.inr ⟨by simp [h₁, h₂, h₃, h₄], ?_⟩)))
    simp [primaryTuningField, List.lookup_cons, hb _ h₁, hb _ h₂, hb _ h₃, hb _ h₄]

theorem mainField_choices (algo : String) (device : List Char) :
    (mainField algo device).choices = none := by
  rw [mainField]
  split_ifs
  · rfl
  · rcases primaryTuningField_cases algo with ⟨-, h⟩ | ⟨-, h⟩ | ⟨-, h⟩ | ⟨-, h⟩ | ⟨-, h⟩ <;>
      rw [h] <;> rfl

theorem setMain_eq_ok {algo context : String} {device : List Char} {v : ℕ} {t : Tuning} :
    setMain algo context device Tuning.empty v = .ok t ↔
      MainValue algo (mainField algo device) v ∧ t = Tuning.single (mainField algo device) v := by
  have hempty : ∀ f, (Tuning.empty.int? f).any (fun w => w ≠ 0 && w ≠ v) = false := fun _ => rfl
  have hnumber : decimalNumber? (.num (.finite v)) = some (.finite v) := rfl
  change (do
    throwIf (algo ∈ fixedIntensityAlgos ∧ mainField algo device = .intensity ∧ v ≠ 1) _
    throwIf ((Tuning.empty.int? (mainField algo device)).any fun w => w ≠ 0 && w ≠ v) _
    let w ← validateInteger (mainField algo device) (.num (.finite v)) _
    return Tuning.empty.set (mainField algo device) (.int w)) = Except.ok t ↔ _
  simp only [Except.bind_eq_ok, throwIf_eq_ok, hempty, Bool.false_eq_true, not_false_eq_true,
    validateInteger_eq_ok, hnumber, exists_const, true_and]
  constructor
  · rintro ⟨hfixed, w, ⟨hw, hrest⟩, h⟩
    cases h
    have hwv : w = v := by simpa using hw.symm
    subst hwv
    refine ⟨⟨⟨mainField_choices _ _, hrest⟩, fun hmem hf => ?_⟩, rfl⟩
    by_contra hne
    exact hfixed ⟨hmem, hf, hne⟩
  · rintro ⟨⟨⟨-, hrest⟩, hfixed⟩, rfl⟩
    exact ⟨fun h => h.2.2 (hfixed h.1 h.2.1), v, ⟨rfl, hrest⟩, rfl⟩

/-- The rules of an algorithm that a main value has to meet beyond the integer check. -/
structure MainFits (algo : String) (v : ℕ) : Prop where
  allowed : primaryTuningField algo ∈ allowedFields algo
  beam : algo = "beamhash3" → 16 ≤ v ∧ v ≤ 1024 ∧ 16 ∣ v
  pearl : algo = "pearlhash" → 128 ≤ v ∧ v ≤ 2 ^ 24 ∧ 32 ∣ v

theorem mem_workgroupChoices {algo : String} {choice : Field × List ℕ}
    (h : choice ∈ workgroupChoices algo) :
    choice.1 ∈ [Field.workgroup, .dagWorkgroup, .prehashWorkgroup] := by
  rcases List.mem_append.mp h with h | h
  · split_ifs at h <;> simp_all
  · rcases List.mem_cons.mp h with rfl | h
    · decide
    · rw [List.mem_singleton.mp h]
      decide

/-- The listed work group sizes are never those of the main value. -/
theorem primaryTuningField_notMem (algo : String) :
    ∀ choice ∈ workgroupChoices algo, choice.1 ≠ primaryTuningField algo := by
  intro choice hchoice hf
  have hmem := mem_workgroupChoices hchoice
  rw [hf] at hmem
  rcases primaryTuningField_cases algo with ⟨-, h⟩ | ⟨-, h⟩ | ⟨-, h⟩ | ⟨rfl, h⟩ | ⟨-, h⟩
  · exact absurd (h ▸ hmem) (by decide)
  · exact absurd (h ▸ hmem) (by decide)
  · exact absurd (h ▸ hmem) (by decide)
  · have hnone : ∀ choice ∈ workgroupChoices "beamhash3", choice.1 ≠ .workgroup := by decide
    exact hnone choice hchoice (hf.trans h)
  · exact absurd (h ▸ hmem) (by decide)

/-- **A tuning of one main value is accepted when the value meets all rules.** -/
theorem single_checked_iff {algo : String} {v : ℕ}
    (h : MainValue algo (primaryTuningField algo) v) :
    (Tuning.single (primaryTuningField algo) v).Checked algo ↔ MainFits algo v := by
  constructor
  · intro hc
    have hfits := hc.fits _ _ (Tuning.single_self _ _)
    refine ⟨hc.allowed _ _ (Tuning.single_self _ _), ?_, ?_⟩
    · rintro rfl
      exact hfits.beam rfl (by decide)
    · rintro rfl
      exact (hfits.pearl rfl).1 (.inl rfl)
  · rintro ⟨hallowed, hbeam, hpearl⟩
    refine ⟨fun f w hf => ?_, fun f w hf => ?_, fun f w hf => ?_, fun halgo k r hk => ?_⟩
    · rw [(Tuning.single_eq_some.mp hf).1]
      exact hallowed
    · obtain ⟨rfl, rfl⟩ := Tuning.single_eq_some.mp hf
      exact h.takes
    · obtain ⟨rfl, hw⟩ := Tuning.single_eq_some.mp hf
      cases hw
      refine ⟨h.fixed, fun choice hmem hf => absurd hf (primaryTuningField_notMem algo choice hmem),
        ?_, ?_⟩
      · rintro rfl -
        exact hbeam rfl
      · rintro rfl
        exact ⟨fun _ => hpearl rfl, fun hk => absurd hk (by decide),
          fun hr => absurd hr (by decide)⟩
    · subst halgo
      cases (Tuning.single_eq_some.mp hk).1

/-! ## Parsing the parts of a text -/

theorem empty_checked (algo : String) : Tuning.empty.Checked algo where
  allowed := fun _ _ h => nomatch h
  takes := fun _ _ h => nomatch h
  fits := fun _ _ h => nomatch h
  shaped := fun _ _ _ h => nomatch h

theorem parseMatch_eq_ok {algo context : String} {found : DeviceMatch} {entry : DeviceEntry} :
    parseMatch algo context found = .ok entry ↔
      (entry.device = found.device.map Char.toLower ∧ deviceIndex entry.device ≤ 1023) ∧
      (entry.processes = found.processes.elim 1 digitsValue ∧ entry.processes ≤ 1024) ∧
      ∃ listed, parseExpandedTuning algo found.tuning context = .ok listed ∧
        addMain algo context entry.device listed found.main = .ok entry.tuning := by
  simp only [parseMatch, Except.bind_eq_ok, throwIf_eq_ok, exists_const, not_lt]
  constructor
  · rintro ⟨hindex, listed, hlisted, tuning, htuning, hprocesses, h⟩
    cases h
    exact ⟨⟨rfl, hindex⟩, ⟨rfl, hprocesses⟩, listed, hlisted, htuning⟩
  · obtain ⟨device, tuning, processes⟩ := entry
    rintro ⟨⟨rfl, hindex⟩, ⟨rfl, hprocesses⟩, listed, hlisted, htuning⟩
    exact ⟨hindex, listed, hlisted, tuning, htuning, hprocesses, rfl⟩

/-- **What parsing establishes.** The tuning is accepted, or it is a main value. -/
theorem parseDeviceEntry_tuning {text : List Char} {algo : String} {entry : DeviceEntry}
    (h : parseDeviceEntry text algo = .ok entry) :
    deviceIndex entry.device ≤ 1023 ∧ entry.processes ≤ 1024 ∧ (entry.tuning.Checked algo ∨
      ∃ v, MainValue algo (mainField algo entry.device) v ∧
        entry.tuning = Tuning.single (mainField algo entry.device) v) := by
  unfold parseDeviceEntry at h
  split at h
  · cases h
  · next found hfound =>
    obtain ⟨⟨-, hindex⟩, ⟨-, hprocesses⟩, listed, hlisted, htuning⟩ := parseMatch_eq_ok.mp h
    refine ⟨hindex, hprocesses, ?_⟩
    obtain ⟨part, -, hpart, -, -⟩ := matchEntry_cut hfound
    obtain ⟨device, main, list, processes⟩ := found
    simp only at hpart hlisted htuning
    cases main with
    | none =>
      rw [← Except.ok.inj htuning]
      unfold parseExpandedTuning at hlisted
      split at hlisted
      · rw [← Except.ok.inj hlisted]
        exact .inl (empty_checked algo)
      · cases hlisted
      · obtain ⟨raw, -, hvalid⟩ := Except.bind_eq_ok.mp hlisted
        exact .inl (validateTuning_checked hvalid)
    | some digits =>
      cases hpart
      rw [← Except.ok.inj hlisted] at htuning
      obtain ⟨hvalue, heq⟩ := setMain_eq_ok.mp htuning
      exact .inr ⟨_, hvalue, heq⟩

/-- A text of parts is parsed part by part. -/
theorem parseDeviceEntry_parts {device part : List Char} {main list : Option (List Char)}
    {processes : ℕ} {algo : String} {entry : DeviceEntry} (hd : DeviceName device)
    (hp : TuningPart main list part) (hpos : 0 < processes)
    (htrim : trim (device ++ (part ++ processesText processes)) =
      device ++ (part ++ processesText processes)) :
    parseDeviceEntry (device ++ (part ++ processesText processes)) algo = .ok entry ↔
      (entry.device = device ∧ deviceIndex device ≤ 1023) ∧
      (entry.processes = processes ∧ processes ≤ 1024) ∧
      ∃ listed, parseExpandedTuning algo list
          (String.ofList (device ++ (part ++ processesText processes))) = .ok listed ∧
        addMain algo (String.ofList (device ++ (part ++ processesText processes))) device listed
          main = .ok entry.tuning := by
  obtain ⟨digits, hdigits, hvalue⟩ := matchProcesses_text hpos
  have hmatch : matchEntry (device ++ (part ++ processesText processes)) =
      some ⟨device, main, list, digits⟩ := by
    rw [matchEntry_append hd.deviceText hp (head_processesText processes), hdigits]
    rfl
  rw [parseDeviceEntry, htrim, hmatch]
  simp only [parseMatch_eq_ok, hd.toLower, hvalue]
  constructor
  · rintro ⟨⟨hdevice, hindex⟩, ⟨hprocesses, hle⟩, hrest⟩
    rw [hdevice] at hindex hrest
    rw [hprocesses] at hle
    exact ⟨⟨hdevice, hindex⟩, ⟨hprocesses, hle⟩, hrest⟩
  · rintro ⟨⟨hdevice, hindex⟩, ⟨hprocesses, hle⟩, hrest⟩
    rw [hdevice, hprocesses]
    exact ⟨⟨rfl, hindex⟩, ⟨rfl, hle⟩, hrest⟩

/-! ## Printing and parsing -/

/-- The entries whose printed text is parsed as the same entry. A CPU has only one of an intensity
and other fields; the main value of a GPU meets the rules of the algorithm. -/
def Printable (algo : String) (entry : DeviceEntry) : Prop :=
  if isCpu entry.device then
    entry.tuning .intensity = none ∨ ∀ f, f ≠ .intensity → entry.tuning f = none
  else ∀ v, entry.tuning (primaryTuningField algo) = some (.int v) → MainFits algo v

/-- An entry that prints no main value is read back when its tuning is accepted. -/
theorem parse_format_listed {entry parsed : DeviceEntry} {algo : String} (hwf : entry.Wf)
    (hcpu : isCpu entry.device = true → entry.tuning .intensity = none) :
    parseDeviceEntry (formatDeviceEntry entry) algo = .ok parsed ↔ parsed = entry ∧
      deviceIndex entry.device ≤ 1023 ∧ entry.processes ≤ 1024 ∧ entry.tuning.Checked algo := by
  have hintensity : cpuIntensityText entry = [] := by
    rw [cpuIntensityText]
    split_ifs with h
    · simp [Tuning.int?, hcpu h]
    · rfl
  have hall : (entry.tuning.fields.filter fun f => !(isCpu entry.device && f = .intensity)) =
      entry.tuning.fields := by
    refine List.filter_eq_self.mpr fun f hf => ?_
    by_cases h : isCpu entry.device = true
    · have hne : f ≠ .intensity := by
        rintro rfl
        simp [Tuning.mem_fields, hcpu h] at hf
      simp [hne]
    · simp [h]
  have hfields := tuningFields_eq entry
  rw [hall] at hfields
  have hnodup : entry.tuning.fields.Nodup := List.Nodup.filter _ (by decide)
  have htrim := trim_formatDeviceEntry hwf.name
  have hentry : ∀ t, t = entry.tuning → parsed.device = entry.device →
      parsed.processes = entry.processes → parsed.tuning = t → parsed = entry := by
    rintro t rfl hd hp ht
    cases parsed
    cases entry
    simp_all
  by_cases hnil : entry.tuning.fields = []
  · have hempty : Tuning.empty = entry.tuning := by
      rw [← Tuning.ofList_fields entry.tuning, hnil]
      rfl
    have htext : tuningText entry = [] := by rw [tuningText, hfields, hnil]; rfl
    have hformat : formatDeviceEntry entry = entry.device ++ ([] ++ processesText entry.processes) := by
      simp [formatDeviceEntry, hintensity, htext]
    rw [hformat] at htrim ⊢
    rw [parseDeviceEntry_parts hwf.name .none hwf.pos htrim]
    constructor
    · rintro ⟨⟨hd, hindex⟩, ⟨hp, hle⟩, listed, hlisted, ht⟩
      cases hlisted
      refine ⟨hentry _ hempty hd hp (Except.ok.inj ht).symm, hindex, hle, ?_⟩
      rw [← hempty]
      exact empty_checked algo
    · rintro ⟨rfl, hindex, hle, -⟩
      exact ⟨⟨rfl, hindex⟩, ⟨rfl, hle⟩, Tuning.empty, rfl, congrArg Except.ok hempty⟩
  · have htext : tuningText entry = '*' :: '[' :: ([';'].intercalate
        (entry.tuning.fields.map fun f => fieldText f (entry.tuning.value f)) ++ [']']) := by
      rw [tuningText, hfields, if_neg (by simpa using hnil)]
      rfl
    have hformat : formatDeviceEntry entry = entry.device ++ (tuningText entry ++
        processesText entry.processes) := by
      simp [formatDeviceEntry, hintensity]
    have hplain : ∀ c ∈ [';'].intercalate (entry.tuning.fields.map fun f =>
        fieldText f (entry.tuning.value f)), isPlain c := by
      rw [← hfields]
      exact isPlain_intercalate isPlain_tuningFields
    have hbracket : ']' ∉ [';'].intercalate (entry.tuning.fields.map fun f =>
        fieldText f (entry.tuning.value f)) := fun hc => absurd (hplain _ hc) (by decide)
    have hself : entry.tuning = Tuning.ofList entry.tuning.fields entry.tuning.value :=
      (Tuning.ofList_fields _).symm
    rw [hformat, htext] at htrim ⊢
    rw [parseDeviceEntry_parts hwf.name (.list hbracket) hwf.pos htrim]
    simp only [parseExpandedTuning_eq_ok hnil hnodup]
    constructor
    · rintro ⟨⟨hd, hindex⟩, ⟨hp, hle⟩, listed, ⟨hlisted, hchecked⟩, ht⟩
      have ht' : listed = parsed.tuning := Except.ok.inj ht
      have heq : listed = entry.tuning := hlisted.trans hself.symm
      exact ⟨hentry _ heq hd hp ht'.symm, hindex, hle, heq ▸ hchecked⟩
    · rintro ⟨rfl, hindex, hle, hchecked⟩
      exact ⟨⟨rfl, hindex⟩, ⟨rfl, hle⟩, _, ⟨hself, hchecked⟩, rfl⟩

theorem cpuIntensityText_eq {entry : DeviceEntry} {v : ℕ} (hcpu : isCpu entry.device = true)
    (hv : entry.tuning .intensity = some (.int v)) (hpos : 0 < v) :
    cpuIntensityText entry = '*' :: Nat.toDigits 10 v := by
  have hfilter : (some v).filter (fun n => decide (n ≠ 0)) = some v := by
    rw [Option.filter_some, if_pos (by simpa using hpos.ne')]
  rw [cpuIntensityText, if_pos hcpu, Tuning.int?_eq_some.mpr hv, hfilter]
  rfl

/-- A CPU with an intensity and nothing else prints a main value. -/
theorem parse_format_cpu {entry : DeviceEntry} {algo : String} {v : ℕ} (hwf : entry.Wf)
    (hcpu : isCpu entry.device = true) (ht : entry.tuning = Tuning.single .intensity v)
    (hvalue : MainValue algo .intensity v) (hindex : deviceIndex entry.device ≤ 1023)
    (hprocesses : entry.processes ≤ 1024) :
    parseDeviceEntry (formatDeviceEntry entry) algo = .ok entry := by
  have hpos : 0 < v := hvalue.takes.2.1
  have hintensity := cpuIntensityText_eq hcpu (ht ▸ Tuning.single_self _ v) hpos
  have htext : tuningText entry = [] := by
    have hnone : (entry.tuning.fields.filter fun f => !(isCpu entry.device && f = .intensity)) =
        [] := by
      refine List.filter_eq_nil_iff.mpr fun f hf => ?_
      rw [Tuning.mem_fields, ht, Option.isSome_iff_exists] at hf
      obtain ⟨w, hw⟩ := hf
      simp [hcpu, (Tuning.single_eq_some.mp hw).1]
    rw [tuningText, tuningFields_eq, hnone]
    rfl
  have hformat : formatDeviceEntry entry =
      entry.device ++ ('*' :: Nat.toDigits 10 v ++ processesText entry.processes) := by
    simp [formatDeviceEntry, hintensity, htext]
  have htrim := trim_formatDeviceEntry hwf.name
  have hfield : mainField algo entry.device = .intensity := if_pos hcpu
  rw [hformat] at htrim ⊢
  refine (parseDeviceEntry_parts hwf.name (.main (positiveDigits_toDigits hpos)) hwf.pos htrim).mpr
    ⟨⟨rfl, hindex⟩, ⟨rfl, hprocesses⟩, Tuning.empty, rfl, ?_⟩
  rw [addMain, digitsValue_toDigits, setMain_eq_ok, hfield]
  exact ⟨hvalue, ht⟩

/-- A CPU with an intensity and another field prints a text that is not a device. -/
theorem parse_format_both {entry : DeviceEntry} {algo : String} {v : ℕ} {f : Field}
    (hwf : entry.Wf) (hcpu : isCpu entry.device = true)
    (hv : entry.tuning .intensity = some (.int v)) (hpos : 0 < v) (hf : f ≠ .intensity)
    (hfield : (entry.tuning f).isSome) (parsed : DeviceEntry) :
    parseDeviceEntry (formatDeviceEntry entry) algo ≠ .ok parsed := by
  have hintensity := cpuIntensityText_eq hcpu hv hpos
  have hmem : fieldText f (entry.tuning.value f) ∈ tuningFields entry := by
    rw [tuningFields_eq]
    refine List.mem_map_of_mem (List.mem_filter.mpr ⟨Tuning.mem_fields.mpr hfield, ?_⟩)
    simp [hf]
  have htext : tuningText entry = '*' :: '[' :: ([';'].intercalate (tuningFields entry) ++ [']']) := by
    rw [tuningText, if_neg (List.ne_nil_of_mem hmem)]
    rfl
  have hmatch := @matchTuning_main _ (tuningText entry ++ processesText entry.processes) hpos
    (head_tuningText fun c hc => by rw [head_processesText _ c hc]; decide)
  have hformat : formatDeviceEntry entry = entry.device ++
      ('*' :: (Nat.toDigits 10 v ++ (tuningText entry ++ processesText entry.processes))) := by
    simp [formatDeviceEntry, hintensity]
  have hdevice := @matchDevice_append _ ('*' :: (Nat.toDigits 10 v ++
    (tuningText entry ++ processesText entry.processes))) hwf.name fun c hc => by
      rw [← Option.some.inj hc]
      decide
  have hnone : matchEntry (formatDeviceEntry entry) = none := by
    rw [hformat, matchEntry, hdevice]
    simp only [Option.bind_eq_bind, Option.bind_some, hmatch]
    rw [htext]
    rfl
  rw [parseDeviceEntry, trim_formatDeviceEntry hwf.name, hnone]
  intro h
  cases h

theorem Tuning.Checked.mainFits {algo : String} {t : Tuning} (h : t.Checked algo) {v : ℕ}
    (hv : t (primaryTuningField algo) = some (.int v)) : MainFits algo v := by
  refine ⟨h.allowed _ _ hv, ?_, ?_⟩
  · rintro rfl
    exact (h.fits _ _ hv).beam rfl (by decide)
  · rintro rfl
    exact ((h.fits _ _ hv).pearl rfl).1 (.inl rfl)

/-- What a parsed entry prints is parsed as the entry exactly when it is printable. -/
theorem parse_format_entry {text : List Char} {algo : String} {entry : DeviceEntry}
    (h : parseDeviceEntry text algo = .ok entry) :
    parseDeviceEntry (formatDeviceEntry entry) algo = .ok entry ↔ Printable algo entry := by
  have hwf := parseDeviceEntry_wf h
  obtain ⟨hindex, hprocesses, htuning⟩ := parseDeviceEntry_tuning h
  by_cases hcpu : isCpu entry.device = true
  · have hfield : mainField algo entry.device = .intensity := if_pos hcpu
    rw [hfield] at htuning
    rw [Printable, if_pos hcpu]
    cases hi : entry.tuning .intensity with
    | none =>
      have hchecked : entry.tuning.Checked algo := by
        rcases htuning with hchecked | ⟨v, -, ht⟩
        · exact hchecked
        · rw [ht, Tuning.single_self] at hi
          cases hi
      exact iff_of_true ((parse_format_listed hwf fun _ => hi).mpr
        ⟨rfl, hindex, hprocesses, hchecked⟩) (.inl rfl)
    | some w =>
      -- Both spellings of an intensity have been checked as a main value.
      obtain ⟨v, rfl, hvalue⟩ : ∃ v, w = .int v ∧ MainValue algo .intensity v := by
        rcases htuning with hchecked | ⟨v, hvalue, ht⟩
        · have htakes := hchecked.takes _ _ hi
          cases w with
          | int v =>
            exact ⟨v, rfl, htakes, fun hmem _ => (hchecked.fits _ _ hi).fixed hmem rfl⟩
          | choice c => cases htakes
        · rw [ht, Tuning.single_self] at hi
          exact ⟨v, (Option.some.inj hi).symm, hvalue⟩
      by_cases hothers : ∀ f, f ≠ .intensity → entry.tuning f = none
      · have ht : entry.tuning = Tuning.single .intensity v := by
          funext f
          by_cases hf : f = .intensity
          · rw [hf, hi, Tuning.single_self]
          · rw [hothers f hf, Tuning.single_of_ne hf]
        exact iff_of_true (parse_format_cpu hwf hcpu ht hvalue hindex hprocesses) (.inr hothers)
      · push Not at hothers
        obtain ⟨f, hf, hsome⟩ := hothers
        refine iff_of_false (parse_format_both hwf hcpu hi hvalue.takes.2.1 hf
          (Option.isSome_iff_ne_none.mpr hsome) entry) ?_
        rintro (hnone | hnone)
        · cases hnone
        · exact hsome (hnone f hf)
  · rw [Printable, if_neg hcpu, parse_format_listed hwf fun h => absurd h hcpu]
    have hfield : mainField algo entry.device = primaryTuningField algo := if_neg hcpu
    rw [hfield] at htuning
    constructor
    · rintro ⟨-, -, -, hchecked⟩ v hv
      exact hchecked.mainFits hv
    · intro hmain
      refine ⟨rfl, hindex, hprocesses, ?_⟩
      rcases htuning with hchecked | ⟨v, hvalue, ht⟩
      · exact hchecked
      · rw [ht]
        exact (single_checked_iff hvalue).mpr (hmain v (by rw [ht, Tuning.single_self]))

theorem DeviceName.mem {device : List Char} (h : DeviceName device) : 'p' ∈ device := by
  cases h <;> simp

theorem trim_formatDeviceList {entries : List DeviceEntry} (hne : entries ≠ [])
    (hwf : ∀ e ∈ entries, e.Wf) : trim (formatDeviceList entries) ≠ [] := by
  obtain ⟨e, es, rfl⟩ := List.exists_cons_of_ne_nil hne
  have hname := (hwf e List.mem_cons_self).name
  have hp : 'p' ∈ formatDeviceEntry e := by
    simp [formatDeviceEntry, hname.mem]
  refine trim_ne_nil (c := 'p') ?_ (by decide)
  cases es <;> simp [formatDeviceList, List.intercalate, hp]

/-- **Printing and parsing.** A parsed entry is parsed again from its printed text exactly when it is
printable, and a parsed list exactly when its entries are. -/
theorem parse_format_iff {text dev : List Char} {algo : String} {entry : DeviceEntry}
    {entries : List DeviceEntry} (hentry : parseDeviceEntry text algo = .ok entry)
    (hlist : parseDeviceList dev algo = .ok entries) :
    (parseDeviceEntry (formatDeviceEntry entry) algo = .ok entry ↔ Printable algo entry) ∧
      (parseDeviceList (formatDeviceList entries) algo = .ok entries ↔
        ∀ e ∈ entries, Printable algo e) := by
  refine ⟨parse_format_entry hentry, ?_⟩
  have hparsed : ∀ e ∈ entries, ∃ text, parseDeviceEntry text algo = .ok e := fun e he =>
    (exists_of_mem_forall₂ (parseDeviceList_eq hlist) he).imp fun _ h => h.2
  have hwf := parseDeviceList_wf hlist
  have hne : entries ≠ [] := by
    rintro rfl
    have := parseDeviceList_eq hlist
    rw [List.forall₂_nil_right_iff] at this
    exact List.splitOn_ne_nil _ _ this
  have hsplit : split ',' (formatDeviceList entries) = entries.map formatDeviceEntry := by
    refine List.splitOn_intercalate _ ?_ (by simpa using hne)
    intro text htext
    obtain ⟨e, he, rfl⟩ := List.mem_map.mp htext
    exact comma_notMem_formatDeviceEntry (hwf e he).name
  have htrim : trim (formatDeviceList entries) ≠ [] := trim_formatDeviceList hne hwf
  have hall : parseDeviceList (formatDeviceList entries) algo = .ok entries ↔
      ∀ e ∈ entries, parseDeviceEntry (formatDeviceEntry e) algo = .ok e := by
    constructor
    · intro h
      have hforall := parseDeviceList_eq h
      rw [hsplit, List.forall₂_map_left_iff, List.forall₂_same] at hforall
      exact hforall
    · intro h
      rw [parseDeviceList, if_neg htrim, hsplit]
      simpa using mapM_map_eq_ok (h := id) h
  rw [hall]
  refine forall₂_congr fun e he => ?_
  obtain ⟨text, htext⟩ := hparsed e he
  exact parse_format_entry htext

theorem parse_format_iff_gpu : ∃ entry entries,
    parseDeviceEntry "gpu0*64^2".toList "c29" = .ok entry ∧
    parseDeviceList "gpu0*64^2, gpu1*[seed_blocks=8]".toList "c29" = .ok entries ∧
    (parseDeviceEntry (formatDeviceEntry entry) "c29" = .ok entry ↔ Printable "c29" entry) ∧
    (parseDeviceList (formatDeviceList entries) "c29" = .ok entries ↔
      ∀ e ∈ entries, Printable "c29" e) :=
  ⟨_, _, rfl, rfl, @parse_format_iff "gpu0*64^2".toList
    "gpu0*64^2, gpu1*[seed_blocks=8]".toList _ _ _ rfl rfl⟩

/-- A CPU with an intensity and a work group size prints a text that is rejected. -/
theorem format_both_rejected : ∃ entry,
    parseDeviceEntry "cpu*[intensity=4;workgroup=64]".toList "hoohash" = .ok entry ∧
    parseDeviceEntry (formatDeviceEntry entry) "hoohash" =
      .error "invalid device entry: cpu*4*[workgroup=64]" := by
  refine ⟨_, rfl, rfl⟩

/-! ## The short and the expanded form -/

/-- `gpuN*V`. -/
def shortText (device : List Char) (v : ℕ) : List Char := device ++ '*' :: Nat.toDigits 10 v

/-- `gpuN*[f=V]`. -/
def expandedText (device : List Char) (f : Field) (v : ℕ) : List Char :=
  device ++ '*' :: '[' :: (fieldText f (.int v) ++ [']'])

theorem trim_of_isPlain {text : List Char} (h : ∀ c ∈ text, isPlain c ∨ c = ']') :
    trim text = text := by
  refine trim_of_forall fun c hc => ?_
  rcases h c hc with h | rfl
  · simp only [isPlain, Bool.and_eq_true, Bool.not_eq_true'] at h
    exact h.1.1
  · decide

theorem parse_shortText {device : List Char} {v : ℕ} {algo : String} {entry : DeviceEntry}
    (hd : DeviceName device) (hgpu : isCpu device = false) (hv : 0 < v) :
    parseDeviceEntry (shortText device v) algo = .ok entry ↔
      entry = ⟨device, .single (primaryTuningField algo) v, 1⟩ ∧ deviceIndex device ≤ 1023 ∧
        MainValue algo (primaryTuningField algo) v := by
  have hfield : mainField algo device = primaryTuningField algo := by simp [mainField, hgpu]
  have htext : shortText device v =
      device ++ ('*' :: Nat.toDigits 10 v ++ processesText 1) := by
    simp [shortText, processesText]
  have htrim : trim (shortText device v) = shortText device v := by
    refine trim_of_isPlain fun c hc => .inl ?_
    rcases List.mem_append.mp hc with hc | hc
    · exact hd.isPlain c hc
    · rcases List.mem_cons.mp hc with rfl | hc
      · decide
      · exact isPlain_of_isDigit (isDigit_of_mem_toDigits hc)
  rw [htext] at htrim ⊢
  rw [parseDeviceEntry_parts hd (.main (positiveDigits_toDigits hv)) Nat.one_pos htrim]
  simp only [addMain, digitsValue_toDigits]
  constructor
  · rintro ⟨⟨hdevice, hindex⟩, ⟨hp, -⟩, listed, hlisted, ht⟩
    rw [← Except.ok.inj hlisted, setMain_eq_ok, hfield] at ht
    obtain ⟨device', tuning, processes⟩ := entry
    cases hdevice
    cases hp
    cases ht.2
    exact ⟨rfl, hindex, ht.1⟩
  · rintro ⟨rfl, hindex, hvalue⟩
    refine ⟨⟨rfl, hindex⟩, ⟨rfl, by decide⟩, Tuning.empty, rfl, ?_⟩
    rw [setMain_eq_ok, hfield]
    exact ⟨hvalue, rfl⟩

theorem parse_expandedText {device : List Char} {f : Field} {v : ℕ} {algo : String}
    {entry : DeviceEntry} (hd : DeviceName device) :
    parseDeviceEntry (expandedText device f v) algo = .ok entry ↔
      entry = ⟨device, .single f v, 1⟩ ∧ deviceIndex device ≤ 1023 ∧
        (Tuning.single f v).Checked algo := by
  have hplain : ∀ c ∈ fieldText f (.int v), isPlain c := by
    intro c hc
    rcases List.mem_append.mp hc with hc | hc
    · exact List.all_eq_true.mp f.isPlain_name c hc
    · rcases List.mem_cons.mp hc with rfl | hc
      · decide
      · exact TuningValue.isPlain_text _ c hc
  have hbracket : ']' ∉ fieldText f (.int v) := fun hc => absurd (hplain _ hc) (by decide)
  have htext : expandedText device f v =
      device ++ ('*' :: '[' :: (fieldText f (.int v) ++ [']']) ++ processesText 1) := by
    simp [expandedText, processesText]
  have htrim : trim (expandedText device f v) = expandedText device f v := by
    refine trim_of_isPlain fun c hc => ?_
    simp only [expandedText, List.mem_append, List.mem_cons, List.not_mem_nil, or_false] at hc
    rcases hc with hc | rfl | rfl | hc | rfl
    · exact .inl (hd.isPlain c hc)
    · exact .inl (by decide)
    · exact .inl (by decide)
    · exact .inl (hplain c hc)
    · exact .inr rfl
  have hlist : fieldText f (.int v) =
      [';'].intercalate ([f].map fun f => fieldText f (TuningValue.int v)) := by
    simp [List.intercalate]
  have hsingle : Tuning.ofList [f] (fun _ => .int v) = Tuning.single f v := by
    funext g
    by_cases hg : g = f
    · simp [Tuning.ofList, hg]
    · simp [Tuning.ofList, hg, Tuning.single_of_ne hg]
  rw [htext] at htrim ⊢
  rw [parseDeviceEntry_parts hd (.list hbracket) Nat.one_pos htrim, hlist]
  simp only [parseExpandedTuning_eq_ok (List.cons_ne_nil f []) (List.nodup_singleton f), hsingle]
  constructor
  · rintro ⟨⟨hdevice, hindex⟩, ⟨hp, -⟩, listed, ⟨rfl, hchecked⟩, ht⟩
    obtain ⟨device', tuning, processes⟩ := entry
    cases hdevice
    cases hp
    cases ht
    exact ⟨rfl, hindex, hchecked⟩
  · rintro ⟨rfl, hindex, hchecked⟩
    exact ⟨⟨rfl, hindex⟩, ⟨rfl, by decide⟩, _, ⟨rfl, hchecked⟩, rfl⟩

theorem mainValue_beam {v : ℕ} (hv : 0 < v) (hmax : v ≤ 0xffffffff) :
    MainValue "beamhash3" (primaryTuningField "beamhash3") v where
  takes := ⟨rfl, hv, hmax, fun h => absurd h (by decide), fun h => absurd h (by decide),
    fun h => absurd h (by decide)⟩
  fixed := fun h => absurd h (by decide)

theorem mainValue_pearl {v : ℕ} (hv : 0 < v) (hmax : v ≤ 0xffffffff) :
    MainValue "pearlhash" (primaryTuningField "pearlhash") v where
  takes := ⟨rfl, hv, hmax, fun h => absurd h (by decide), fun h => absurd h (by decide),
    fun h => absurd h (by decide)⟩
  fixed := fun h => absurd h (by decide)

theorem Tuning.Checked.mainValue {algo : String} {f : Field} {v : ℕ}
    (h : (Tuning.single f v).Checked algo) : MainValue algo f v where
  takes := h.takes _ _ (Tuning.single_self f v)
  fixed := (h.fits _ _ (Tuning.single_self f v)).fixed

/-- The values for which the short form is as strict as the expanded one. -/
def ShortChecked (algo : String) (v : ℕ) : Prop :=
  0xffffffff < v ∨ (algo = "beamhash3" → 16 ≤ v ∧ v ≤ 1024 ∧ 16 ∣ v) ∧
    (algo = "pearlhash" → 128 ≤ v ∧ v ≤ 2 ^ 24 ∧ 32 ∣ v)

/-- **The short and the expanded form** of an algorithm agree on a device and a value exactly when
the device is rejected anyway or the value meets the rules of the algorithm. -/
theorem short_expanded_iff {algo : String} (halgo : algo ∈ algoFields.map Prod.fst)
    {digits : List Char} (hne : digits ≠ []) (hdigits : ∀ c ∈ digits, c.isDigit) {v : ℕ}
    (hv : 0 < v) :
    (∀ entry, parseDeviceEntry (shortText ('g' :: 'p' :: 'u' :: digits) v) algo = .ok entry ↔
      parseDeviceEntry (expandedText ('g' :: 'p' :: 'u' :: digits) (primaryTuningField algo) v)
        algo = .ok entry) ↔
      1023 < deviceIndex ('g' :: 'p' :: 'u' :: digits) ∨ ShortChecked algo v := by
  have hd : DeviceName ('g' :: 'p' :: 'u' :: digits) := .gpu hdigits hne
  have hallowed : primaryTuningField algo ∈ allowedFields algo := by
    revert algo
    decide
  have hgpu : isCpu ('g' :: 'p' :: 'u' :: digits) = false := rfl
  simp only [parse_shortText hd hgpu hv, parse_expandedText hd]
  by_cases hindex : deviceIndex ('g' :: 'p' :: 'u' :: digits) ≤ 1023
  swap
  · exact iff_of_true (fun entry => by simp [hindex]) (.inl (not_le.mp hindex))
  rw [or_iff_right (not_lt.mpr hindex)]
  by_cases hvalue : MainValue algo (primaryTuningField algo) v
  · have hmax : v ≤ 0xffffffff := hvalue.takes.2.2.1
    rw [ShortChecked, or_iff_right (not_lt.mpr hmax)]
    simp only [single_checked_iff hvalue, hvalue, hindex, true_and, and_true]
    constructor
    · intro h
      have hfits := ((h _).mp rfl).2
      exact ⟨hfits.beam, hfits.pearl⟩
    · intro h entry
      simp [MainFits.mk hallowed h.1 h.2]
  · -- Neither form accepts the value; for the two algorithms with a rule it is too large.
    refine iff_of_true (fun entry => ?_) ?_
    · have hnot : ¬ (Tuning.single (primaryTuningField algo) v).Checked algo := fun h =>
        hvalue h.mainValue
      simp [hvalue, hnot]
    · by_cases hmax : v ≤ 0xffffffff
      · refine .inr ⟨?_, ?_⟩
        · rintro rfl
          exact absurd (mainValue_beam hv hmax) hvalue
        · rintro rfl
          exact absurd (mainValue_pearl hv hmax) hvalue
      · exact .inl (not_le.mp hmax)

theorem short_expanded_gpu0 :
    (∀ entry, parseDeviceEntry (shortText "gpu0".toList 32) "beamhash3" = .ok entry ↔
      parseDeviceEntry (expandedText "gpu0".toList .workgroup 32) "beamhash3" = .ok entry) ↔
      1023 < deviceIndex "gpu0".toList ∨ ShortChecked "beamhash3" 32 :=
  @short_expanded_iff "beamhash3" (by decide) ['0'] (by decide) (List.forall_mem_singleton.mpr rfl)
    32
    (by decide)

/-- A work group size that is no multiple of 16 is accepted in the short form only. -/
theorem short_not_expanded :
    "beamhash3" ∈ algoFields.map Prod.fst ∧ primaryTuningField "beamhash3" = .workgroup ∧
    (∃ entry, parseDeviceEntry "gpu0*17".toList "beamhash3" = .ok entry) ∧
    parseDeviceEntry "gpu0*[workgroup=17]".toList "beamhash3" =
      .error "gpu0*[workgroup=17].workgroup must be a multiple of 16 between 16 and 1024" :=
  ⟨by decide, by decide, ⟨_, rfl⟩, rfl⟩

end MoMiner.Miner
