import MoMiner.Miner.Devices

/-!
# Reading printed devices

What the parser of device texts keeps of a printed entry, whatever the algorithm says about its
tuning: the device and the number of processes. Not every printed entry is accepted: the grammar has
either a number or a list after the device, and the printer writes both for a CPU that has an
intensity and another field.

Main result: `parseDeviceList_format`.
-/

namespace MoMiner.Miner

open MoMiner.Js

/-! ## Characters -/

/-- A character of a name or a value. -/
def isPlain (c : Char) : Bool := !isSpace c && c ≠ ',' && c ≠ ']'

theorem isPlain_of_isDigit {c : Char} (h : c.isDigit) : isPlain c := by
  have hcomma : c ≠ ',' := by
    rintro rfl
    cases h
  have hbracket : c ≠ ']' := by
    rintro rfl
    cases h
  simp [isPlain, isSpace_of_isDigit h, hcomma, hbracket]

theorem DeviceName.isPlain {device : List Char} (hd : DeviceName device) :
    ∀ c ∈ device, isPlain c := by
  have hletters : ['c', 'p', 'u', 'g'].all Miner.isPlain = true := by decide
  intro c hc
  cases hd with
  | cpu h =>
    rcases List.mem_append.mp hc with hc | hc
    · exact List.all_eq_true.mp hletters c (by revert hc; simp; tauto)
    · exact isPlain_of_isDigit (h c hc)
  | gpu h _ =>
    rcases List.mem_append.mp hc with hc | hc
    · exact List.all_eq_true.mp hletters c (by revert hc; simp; tauto)
    · exact isPlain_of_isDigit (h c hc)

theorem Field.isPlain_name (f : Field) : f.name.toList.all isPlain = true := by
  cases f <;> decide

theorem Choice.isPlain_text (c : Choice) : c.text.toList.all isPlain = true := by
  cases c <;> decide

theorem TuningValue.isPlain_text (v : TuningValue) : ∀ c ∈ v.text, isPlain c := by
  intro c hc
  cases v with
  | int n => exact isPlain_of_isDigit (isDigit_of_mem_toDigits hc)
  | choice choice => exact List.all_eq_true.mp choice.isPlain_text c hc

theorem isPlain_tuningFields {entry : DeviceEntry} :
    ∀ text ∈ tuningFields entry, ∀ c ∈ text, isPlain c := by
  intro text htext c hc
  obtain ⟨f, -, hf⟩ := List.mem_filterMap.mp htext
  obtain ⟨v, -, rfl⟩ := Option.map_eq_some_iff.mp hf
  rcases List.mem_append.mp hc with hc | hc
  · exact List.all_eq_true.mp f.isPlain_name c hc
  · rcases List.mem_cons.mp hc with rfl | hc
    · decide
    · exact v.isPlain_text c hc

theorem isPlain_intercalate {texts : List (List Char)} (h : ∀ text ∈ texts, ∀ c ∈ text, isPlain c) :
    ∀ c ∈ [';'].intercalate texts, isPlain c := by
  induction texts with
  | nil => simp
  | cons text texts ih =>
    obtain ⟨htext, htexts⟩ := List.forall_mem_cons.mp h
    cases texts with
    | nil => simpa using htext
    | cons text' texts =>
      intro c hc
      rw [List.intercalate_cons_cons] at hc
      rcases List.mem_append.mp hc with hc | hc
      · rcases List.mem_append.mp hc with hc | hc
        · exact htext c hc
        · rw [List.mem_singleton.mp hc]
          decide
      · exact ih htexts c hc

theorem isPlain_processesText (processes : ℕ) : ∀ c ∈ processesText processes, isPlain c := by
  intro c hc
  rw [processesText] at hc
  split_ifs at hc
  · rcases List.mem_cons.mp hc with rfl | hc
    · decide
    · exact isPlain_of_isDigit (isDigit_of_mem_toDigits hc)
  · cases hc

theorem cpuIntensityText_cases (entry : DeviceEntry) : cpuIntensityText entry = [] ∨
    ∃ n, 0 < n ∧ cpuIntensityText entry = '*' :: Nat.toDigits 10 n := by
  rw [cpuIntensityText]
  split_ifs
  · cases hn : (entry.tuning.int? .intensity).filter (· ≠ 0) with
    | none => exact .inl rfl
    | some n =>
      have hpos := (Option.filter_eq_some_iff.mp hn).2
      exact .inr ⟨n, Nat.pos_of_ne_zero (by simpa using hpos), rfl⟩
  · exact .inl rfl

theorem tuningText_cases (entry : DeviceEntry) : tuningText entry = [] ∨
    ∃ inner, (∀ c ∈ inner, isPlain c) ∧ tuningText entry = '*' :: '[' :: (inner ++ [']']) := by
  rw [tuningText]
  split_ifs
  · exact .inl rfl
  · exact .inr ⟨_, isPlain_intercalate isPlain_tuningFields, rfl⟩

/-- The characters of a printed entry. -/
theorem mem_formatDeviceEntry {entry : DeviceEntry} (hd : DeviceName entry.device) {c : Char}
    (hc : c ∈ formatDeviceEntry entry) : isPlain c ∨ c = ']' := by
  simp only [formatDeviceEntry, List.mem_append] at hc
  rcases hc with ((hc | hc) | hc) | hc
  · exact .inl (hd.isPlain c hc)
  · rcases cpuIntensityText_cases entry with h | ⟨n, -, h⟩
    · rw [h] at hc
      cases hc
    · rw [h] at hc
      rcases List.mem_cons.mp hc with rfl | hc
      · exact .inl (by decide)
      · exact .inl (isPlain_of_isDigit (isDigit_of_mem_toDigits hc))
  · rcases tuningText_cases entry with h | ⟨inner, hinner, h⟩
    · rw [h] at hc
      cases hc
    · rw [h] at hc
      simp only [List.mem_cons, List.mem_append, List.not_mem_nil, or_false] at hc
      rcases hc with rfl | rfl | hc | hc
      · exact .inl (by decide)
      · exact .inl (by decide)
      · exact .inl (hinner c hc)
      · exact .inr hc
  · exact .inl (isPlain_processesText _ c hc)

theorem trim_formatDeviceEntry {entry : DeviceEntry} (hd : DeviceName entry.device) :
    trim (formatDeviceEntry entry) = formatDeviceEntry entry := by
  refine trim_of_forall fun c hc => ?_
  rcases mem_formatDeviceEntry hd hc with h | rfl
  · simp only [isPlain, Bool.and_eq_true, Bool.not_eq_true'] at h
    exact h.1.1
  · decide

theorem comma_notMem_formatDeviceEntry {entry : DeviceEntry} (hd : DeviceName entry.device) :
    ',' ∉ formatDeviceEntry entry := by
  intro hc
  rcases mem_formatDeviceEntry hd hc with h | h
  · revert h
    decide
  · revert h
    decide

/-! ## Matching a printed entry -/

theorem head_tuningText {entry : DeviceEntry} {rest : List Char}
    (hrest : ∀ c ∈ rest.head?, c.isDigit = false) :
    ∀ c ∈ (tuningText entry ++ rest).head?, c.isDigit = false := by
  rcases tuningText_cases entry with h | ⟨inner, -, h⟩
  · rwa [h, List.nil_append]
  · rw [h]
    intro c hc
    rw [← Option.some.inj hc]
    decide

theorem head_cpuIntensityText {entry : DeviceEntry} {rest : List Char}
    (hrest : ∀ c ∈ rest.head?, c.isDigit = false) :
    ∀ c ∈ (cpuIntensityText entry ++ rest).head?, c.isDigit = false := by
  rcases cpuIntensityText_cases entry with h | ⟨n, -, h⟩
  · rwa [h, List.nil_append]
  · rw [h]
    intro c hc
    rw [← Option.some.inj hc]
    decide

/-- What follows the tuning of a printed entry is its number of processes, or it is rejected. -/
theorem matchTuning_printed {entry : DeviceEntry} {rest after : List Char}
    {main list : Option (List Char)} (hrest : ∀ c ∈ rest.head?, c = '^')
    (h : matchTuning (cpuIntensityText entry ++ (tuningText entry ++ rest)) =
      some (main, list, after)) : after = rest ∨ matchProcesses after = none := by
  have hdigit : ∀ c ∈ rest.head?, c.isDigit = false := fun c hc => by
    rw [hrest c hc]
    decide
  have hstar : ∀ c ∈ rest.head?, c ≠ '*' := fun c hc => by
    rw [hrest c hc]
    decide
  rcases cpuIntensityText_cases entry with hcpu | ⟨n, hn, hcpu⟩
  · rw [hcpu, List.nil_append] at h
    rcases tuningText_cases entry with hlist | ⟨inner, hinner, hlist⟩
    · rw [hlist, List.nil_append, matchTuning_none hstar] at h
      simp only [Option.some.injEq, Prod.mk.injEq] at h
      exact .inl h.2.2.symm
    · have hbracket : ']' ∉ inner := fun hc => absurd (hinner _ hc) (by decide)
      rw [hlist, List.cons_append, List.cons_append, List.append_assoc, List.singleton_append,
        matchTuning_list hbracket] at h
      simp only [Option.some.injEq, Prod.mk.injEq] at h
      exact .inl h.2.2.symm
  · rw [hcpu, List.cons_append, matchTuning_main hn (head_tuningText hdigit)] at h
    simp only [Option.some.injEq, Prod.mk.injEq] at h
    rcases tuningText_cases entry with hlist | ⟨inner, -, hlist⟩
    · rw [hlist, List.nil_append] at h
      exact .inl h.2.2.symm
    · rw [← h.2.2, hlist]
      exact .inr rfl

theorem matchEntry_format {entry : DeviceEntry} (hd : DeviceName entry.device)
    (hprocesses : 0 < entry.processes) {found : DeviceMatch}
    (h : matchEntry (formatDeviceEntry entry) = some found) :
    found.device = entry.device ∧ found.processes.elim 1 digitsValue = entry.processes := by
  have hhead := head_processesText entry.processes
  have hdigit : ∀ c ∈ (processesText entry.processes).head?, c.isDigit = false := fun c hc => by
    rw [hhead c hc]
    decide
  rw [formatDeviceEntry, List.append_assoc, List.append_assoc, matchEntry,
    matchDevice_append hd (head_cpuIntensityText (head_tuningText hdigit))] at h
  simp only [Option.bind_eq_bind, Option.bind_some, Option.bind_eq_some_iff, Option.pure_def,
    Option.some.injEq] at h
  obtain ⟨⟨main, list, after⟩, hmatch, processes, hafter, rfl⟩ := h
  obtain ⟨digits, hdigits, hvalue⟩ := matchProcesses_text hprocesses
  rcases matchTuning_printed hhead hmatch with rfl | hnone
  · rw [hdigits] at hafter
    rw [← Option.some.inj hafter]
    exact ⟨rfl, hvalue⟩
  · rw [hnone] at hafter
    cases hafter

/-! ## What parsing establishes -/

/-- An entry that a parser can return. -/
structure DeviceEntry.Wf (entry : DeviceEntry) : Prop where
  name : DeviceName entry.device
  pos : 0 < entry.processes

theorem le_foldl_digits (v : ℕ) (digits : List Char) :
    v ≤ digits.foldl (fun v c => 10 * v + (c.toNat - 48)) v := by
  induction digits generalizing v with
  | nil => exact le_rfl
  | cons c digits ih =>
    have hstep : v ≤ 10 * v + (c.toNat - 48) := by omega
    exact hstep.trans (ih _)

theorem digitsValue_pos {text digits rest : List Char}
    (h : positiveNumber? text = some (digits, rest)) : 0 < digitsValue digits := by
  cases text with
  | nil => cases h
  | cons c cs =>
    rw [positiveNumber?] at h
    split_ifs at h with hc
    rw [Option.some.injEq, List.span_eq_takeWhile_dropWhile, Prod.mk.injEq,
      List.takeWhile_cons_of_pos hc.1] at h
    have hdigit := hc.1
    simp only [Char.isDigit, Bool.and_eq_true, decide_eq_true_eq, ge_iff_le,
      UInt32.le_iff_toNat_le] at hdigit
    have hzero : '0'.toNat = 48 := rfl
    have hc₀ : '0'.toNat < c.toNat :=
      lt_of_le_of_ne hdigit.1 fun heq => hc.2 (Char.toNat_inj.mp heq.symm)
    have hvalue : 0 < 10 * 0 + (c.toNat - 48) := by omega
    rw [← h.1, digitsValue, decimalValue, String.toList_ofList, List.foldl_cons]
    exact hvalue.trans_le (le_foldl_digits _ _)

theorem matchProcesses_pos {text : List Char} {digits : Option (List Char)}
    (h : matchProcesses text = some digits) : 0 < digits.elim 1 digitsValue := by
  unfold matchProcesses at h
  split at h
  · cases h
    decide
  · split at h
    · next hmatch =>
      cases h
      exact digitsValue_pos hmatch
    · cases h
  · cases h

theorem DeviceName.of_matchDevice {text device rest : List Char}
    (h : matchDevice text = some (device, rest)) : DeviceName (device.map Char.toLower) := by
  have hdigits : ∀ c ∈ ((text.drop 3).span Char.isDigit).1, c.isDigit := by
    intro c hc
    rw [List.span_eq_takeWhile_dropWhile] at hc
    exact List.mem_takeWhile_imp hc
  have hlower : ((text.drop 3).span Char.isDigit).1.map Char.toLower =
      ((text.drop 3).span Char.isDigit).1 := by
    simpa using List.map_congr_left (g := id) fun c hc => toLower_of_isDigit (hdigits c hc)
  rw [matchDevice] at h
  split_ifs at h with hname
  simp only [Option.some.injEq, Prod.mk.injEq] at h
  rw [← h.1, List.map_append, hlower]
  rcases hname with hname | ⟨hname, hne⟩
  · rw [hname]
    exact .cpu hdigits
  · rw [hname]
    exact .gpu hdigits hne

/-- The parts of a device text that no algorithm changes. -/
theorem parseDeviceEntry_ok {text : List Char} {algo : String} {entry : DeviceEntry}
    (h : parseDeviceEntry text algo = .ok entry) :
    ∃ found, matchEntry (trim text) = some found ∧
      entry.device = found.device.map Char.toLower ∧
      entry.processes = found.processes.elim 1 digitsValue := by
  unfold parseDeviceEntry at h
  split at h
  · cases h
  · next found hfound =>
    simp only [parseMatch, Except.bind_eq_ok, throwIf_eq_ok] at h
    obtain ⟨-, -, -, -, tuning, -, -, -, h⟩ := h
    cases h
    exact ⟨found, hfound, rfl, rfl⟩

theorem parseDeviceEntry_wf {text : List Char} {algo : String} {entry : DeviceEntry}
    (h : parseDeviceEntry text algo = .ok entry) : entry.Wf := by
  obtain ⟨found, hmatch, hdevice, hprocesses⟩ := parseDeviceEntry_ok h
  simp only [matchEntry, Option.bind_eq_bind, Option.bind_eq_some_iff, Option.pure_def,
    Option.some.injEq] at hmatch
  obtain ⟨⟨device, rest⟩, hd, ⟨main, list, after⟩, -, processes, hp, rfl⟩ := hmatch
  exact ⟨hdevice ▸ .of_matchDevice hd, hprocesses ▸ matchProcesses_pos hp⟩

/-! ## Lists -/

/-- The device and the number of processes of an entry. -/
def DeviceEntry.load (entry : DeviceEntry) : List Char × ℕ := (entry.device, entry.processes)

/-- The load of a text does not depend on the algorithm. -/
theorem parseDeviceEntry_algo {text : List Char} {algo algo' : String} {entry entry' : DeviceEntry}
    (h : parseDeviceEntry text algo = .ok entry) (h' : parseDeviceEntry text algo' = .ok entry') :
    entry.load = entry'.load := by
  obtain ⟨found, hmatch, hdevice, hprocesses⟩ := parseDeviceEntry_ok h
  obtain ⟨found', hmatch', hdevice', hprocesses'⟩ := parseDeviceEntry_ok h'
  have heq : found = found' := Option.some.inj (hmatch.symm.trans hmatch')
  subst heq
  rw [DeviceEntry.load, DeviceEntry.load, hdevice, hdevice', hprocesses, hprocesses']

theorem parseDeviceEntry_format {entry parsed : DeviceEntry} {algo : String} (hwf : entry.Wf)
    (h : parseDeviceEntry (formatDeviceEntry entry) algo = .ok parsed) :
    parsed.load = entry.load := by
  obtain ⟨found, hmatch, hdevice, hprocesses⟩ := parseDeviceEntry_ok h
  rw [trim_formatDeviceEntry hwf.name] at hmatch
  obtain ⟨hd, hp⟩ := matchEntry_format hwf.name hwf.pos hmatch
  rw [DeviceEntry.load, DeviceEntry.load, hdevice, hprocesses, hd, hp, hwf.name.toLower]

theorem parseDeviceList_eq {dev : List Char} {algo : String} {entries : List DeviceEntry}
    (h : parseDeviceList dev algo = .ok entries) :
    List.Forall₂ (fun text entry => parseDeviceEntry text algo = .ok entry) (split ',' dev)
      entries := by
  rw [parseDeviceList] at h
  split_ifs at h
  exact forall₂_of_mapM_eq_ok h

theorem parseDeviceList_wf {dev : List Char} {algo : String} {entries : List DeviceEntry}
    (h : parseDeviceList dev algo = .ok entries) : ∀ entry ∈ entries, entry.Wf := by
  intro entry hentry
  obtain ⟨text, -, hparse⟩ := exists_of_mem_forall₂ (parseDeviceList_eq h) hentry
  exact parseDeviceEntry_wf hparse

/-- **A printed list that is accepted has the printed devices and processes.** -/
theorem parseDeviceList_format {entries parsed : List DeviceEntry} {algo : String}
    (hwf : ∀ entry ∈ entries, entry.Wf)
    (h : parseDeviceList (formatDeviceList entries) algo = .ok parsed) :
    parsed.map DeviceEntry.load = entries.map DeviceEntry.load := by
  have hne : entries ≠ [] := by
    rintro rfl
    cases h
  have hall := parseDeviceList_eq h
  rw [split, formatDeviceList, List.splitOn_intercalate, List.forall₂_map_left_iff] at hall
  · clear h hne
    induction hall with
    | nil => rfl
    | cons hentry _ ih =>
      obtain ⟨hfirst, hrest⟩ := List.forall_mem_cons.mp hwf
      rw [List.map_cons, List.map_cons, parseDeviceEntry_format hfirst hentry, ih hrest]
  · intro text htext
    obtain ⟨entry, hentry, rfl⟩ := List.mem_map.mp htext
    exact comma_notMem_formatDeviceEntry (hwf entry hentry).name
  · simpa using hne

end MoMiner.Miner
