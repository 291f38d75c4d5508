import MoMiner.Miner.Devices
import MoMiner.Native.Job

/-!
# The device text of the CPU batches

The native core proposes CPU devices as a run-length code of the batch sizes of its threads
(`append_grouped_cpu_devs` of `cpu-scheduling.h`): a run of equal batches is one device with a
number of processes, and a batch or a run of one is not printed.

`cpu_devices_decode`: the controller parses the code of a list of batches, and its entries, each
repeated for its processes, are the batches again.
-/

namespace MoMiner.Miner

open MoMiner.Js

/-! ## The encoder -/

def addResultDev (resultDev addStr : List Char) : List Char :=
  if resultDev = [] then addStr else resultDev ++ ',' :: addStr

/-- The state of the encoder: the text so far and the run that is being counted. -/
structure Grouping where
  resultDev : List Char
  prevBatch : ℕ
  sameBatchThreads : ℕ

/-- The text of a run. -/
def runText (batch count : ℕ) : List Char :=
  ['c', 'p', 'u'] ++ (if batch ≠ 1 then '*' :: Nat.toDigits 10 batch else []) ++
    (if count ≠ 1 then '^' :: Nat.toDigits 10 count else [])

def addLastDev (g : Grouping) : Grouping :=
  if g.sameBatchThreads = 0 ∨ g.prevBatch = 0 then g
  else
    { g with
      resultDev := addResultDev g.resultDev (runText g.prevBatch g.sameBatchThreads)
      sameBatchThreads := 0 }

def groupBatch (g : Grouping) (batch : ℕ) : Grouping :=
  let g := if g.sameBatchThreads ≠ 0 ∧ g.prevBatch ≠ batch then addLastDev g else g
  { g with prevBatch := batch, sameBatchThreads := (g.sameBatchThreads + 1) % 2 ^ 32 }

def appendGroupedCpuDevs (resultDev : List Char) (threads : List ℕ) : List Char :=
  (addLastDev (threads.foldl groupBatch ⟨resultDev, 0, 0⟩)).resultDev

/-! ## Runs -/

/-- The runs of a list that goes on after `count` times `batch`. -/
def runs (batch count : ℕ) : List ℕ → List (ℕ × ℕ)
  | [] => [(batch, count)]
  | b :: rest => if b = batch then runs batch (count + 1) rest else (batch, count) :: runs b 1 rest

theorem flatMap_runs (batch count : ℕ) (rest : List ℕ) :
    (runs batch count rest).flatMap (fun r => List.replicate r.2 r.1) =
      List.replicate count batch ++ rest := by
  induction rest generalizing batch count with
  | nil => simp [runs]
  | cons b rest ih =>
    rw [runs]
    split_ifs with h
    · rw [ih, h, List.replicate_succ', List.append_assoc]
      rfl
    · rw [List.flatMap_cons, ih]
      rfl

theorem runs_pos {batch count : ℕ} {rest : List ℕ} (hcount : 0 < count) :
    ∀ r ∈ runs batch count rest, 0 < r.2 := by
  induction rest generalizing batch count with
  | nil => simpa [runs] using hcount
  | cons b rest ih =>
    rw [runs]
    split_ifs
    · exact ih (Nat.succ_pos _)
    · exact List.forall_mem_cons.mpr ⟨hcount, ih Nat.one_pos⟩

theorem runs_ne_nil (batch count : ℕ) (rest : List ℕ) : runs batch count rest ≠ [] := by
  induction rest generalizing batch count with
  | nil => simp [runs]
  | cons b rest ih =>
    rw [runs]
    split_ifs
    · exact ih _ _
    · simp

/-- No batch comes more than 1024 times in a row. -/
def ShortRuns (threads : List ℕ) : Prop := ∀ batch, ¬ List.replicate 1025 batch <:+: threads

theorem replicate_infix_of_mem_runs {batch count : ℕ} {rest : List ℕ} {r : ℕ × ℕ}
    (hr : r ∈ runs batch count rest) :
    List.replicate r.2 r.1 <:+: List.replicate count batch ++ rest := by
  obtain ⟨pre, post, hsplit⟩ := List.append_of_mem hr
  rw [← flatMap_runs, hsplit, List.flatMap_append, List.flatMap_cons]
  exact ⟨_, _, List.append_assoc _ _ _⟩

theorem ShortRuns.count_le {threads : List ℕ} (h : ShortRuns threads) {batch count : ℕ}
    (hrun : List.replicate count batch <:+: threads) : count ≤ 1024 := by
  by_contra hlt
  refine h batch (List.IsInfix.trans ⟨[], List.replicate (count - 1025) batch, ?_⟩ hrun)
  rw [List.nil_append, List.replicate_append_replicate,
    show 1025 + (count - 1025) = count by omega]

/-- The encoder prints the runs one after the other. -/
theorem encode_runs {batch count : ℕ} {rest : List ℕ} (hcount : 0 < count) (hbatch : 0 < batch)
    (hrest : ∀ b ∈ rest, 0 < b) (hshort : ShortRuns (List.replicate count batch ++ rest))
    (resultDev : List Char) :
    (addLastDev (rest.foldl groupBatch ⟨resultDev, batch, count⟩)).resultDev =
      ((runs batch count rest).map fun r => runText r.1 r.2).foldl addResultDev resultDev := by
  induction rest generalizing batch count resultDev with
  | nil =>
    have hlast : ¬ (count = 0 ∨ batch = 0) := by omega
    simp [addLastDev, runs, hlast]
  | cons b rest ih =>
    obtain ⟨hb, hrest⟩ := List.forall_mem_cons.mp hrest
    rw [List.foldl_cons, runs]
    split_ifs with h
    · subst h
      have hlonger : List.replicate count b ++ b :: rest = List.replicate (count + 1) b ++ rest := by
        rw [List.replicate_succ', List.append_assoc]
        rfl
      rw [hlonger] at hshort
      have hle := hshort.count_le (List.prefix_append _ _).isInfix
      have hstep : groupBatch ⟨resultDev, b, count⟩ b = ⟨resultDev, b, count + 1⟩ := by
        simp only [groupBatch, ne_eq, not_true_eq_false, and_false, if_false]
        rw [Nat.mod_eq_of_lt (by omega)]
      rw [hstep, ih (Nat.succ_pos _) hb hrest hshort]
    · have hstep : groupBatch ⟨resultDev, batch, count⟩ b =
          ⟨addResultDev resultDev (runText batch count), b, 1⟩ := by
        simp [groupBatch, addLastDev, hcount.ne', hbatch.ne', Ne.symm h]
      have hshort' : ShortRuns (List.replicate 1 b ++ rest) := fun x hx =>
        hshort x (hx.trans (List.suffix_append _ _).isInfix)
      rw [hstep, ih Nat.one_pos hb hrest hshort', List.map_cons, List.foldl_cons]

theorem foldl_addResultDev {texts : List (List Char)} (h : ∀ t ∈ texts, t ≠ []) {first : List Char}
    (hfirst : first ≠ []) :
    texts.foldl addResultDev first = [','].intercalate (first :: texts) := by
  induction texts generalizing first with
  | nil => simp
  | cons t texts ih =>
    obtain ⟨ht, htexts⟩ := List.forall_mem_cons.mp h
    have hne : first ++ ',' :: t ≠ [] := by simp
    rw [List.foldl_cons, addResultDev, if_neg hfirst, ih htexts hne]
    cases texts <;> simp [List.intercalate]

theorem runText_ne_nil (batch count : ℕ) : runText batch count ≠ [] := by simp [runText]

/-- The code of a list of batches. -/
theorem appendGroupedCpuDevs_eq {batch : ℕ} {rest : List ℕ} (hpos : ∀ b ∈ batch :: rest, 0 < b)
    (hshort : ShortRuns (batch :: rest)) :
    appendGroupedCpuDevs [] (batch :: rest) =
      [','].intercalate ((runs batch 1 rest).map fun r => runText r.1 r.2) := by
  obtain ⟨hbatch, hrest⟩ := List.forall_mem_cons.mp hpos
  have hstart : groupBatch ⟨[], 0, 0⟩ batch = ⟨[], batch, 1⟩ := rfl
  rw [appendGroupedCpuDevs, List.foldl_cons, hstart, encode_runs Nat.one_pos hbatch hrest hshort]
  have htexts : ∀ t ∈ (runs batch 1 rest).map fun r => runText r.1 r.2, t ≠ [] := by
    intro t ht
    obtain ⟨r, -, rfl⟩ := List.mem_map.mp ht
    exact runText_ne_nil _ _
  cases hmap : (runs batch 1 rest).map fun r => runText r.1 r.2 with
  | nil => rfl
  | cons t texts =>
    rw [hmap] at htexts
    obtain ⟨ht, htexts⟩ := List.forall_mem_cons.mp htexts
    rw [List.foldl_cons, addResultDev, if_pos rfl, foldl_addResultDev htexts ht]

/-! ## Decoding -/

/-- The entry of a run. -/
def runEntry (batch count : ℕ) : DeviceEntry where
  device := ['c', 'p', 'u']
  tuning := if batch = 1 then Tuning.empty else Tuning.empty.set .intensity (.int batch)
  processes := count

theorem deviceName_cpu : DeviceName ['c', 'p', 'u'] := by
  simpa using DeviceName.cpu (List.forall_mem_nil _)

theorem matchEntry_runText {batch count : ℕ} (hbatch : 0 < batch) (hcount : 0 < count) :
    ∃ digits, matchEntry (runText batch count) = some ⟨['c', 'p', 'u'],
        if batch = 1 then none else some (Nat.toDigits 10 batch), none, digits⟩ ∧
      digits.elim 1 digitsValue = count := by
  have htext : runText batch count = ['c', 'p', 'u'] ++
      ((if batch ≠ 1 then '*' :: Nat.toDigits 10 batch else []) ++ processesText count) := by
    rw [runText, List.append_assoc, processesText]
    congr 2
    by_cases h : count = 1
    · simp [h]
    · rw [if_pos h, if_pos (by omega)]
  obtain ⟨digits, hdigits, hvalue⟩ := matchProcesses_text hcount
  have hhead := head_processesText count
  refine ⟨digits, ?_, hvalue⟩
  have hstop : ∀ c ∈ (processesText count).head?, c.isDigit = false := fun c hc => by
    rw [hhead c hc]
    decide
  have hstar : ∀ c ∈ (processesText count).head?, c ≠ '*' := fun c hc => by
    rw [hhead c hc]
    decide
  rw [htext, matchEntry]
  by_cases h : batch = 1
  · rw [if_neg (by simp [h]), List.nil_append, matchDevice_append deviceName_cpu hstop]
    simp [h, matchTuning_none hstar, hdigits]
  · have hmain : ∀ c ∈ ('*' :: Nat.toDigits 10 batch ++ processesText count).head?,
        c.isDigit = false := fun c hc => by
      rw [← Option.some.inj hc]
      decide
    have hmatch := matchTuning_main hbatch hstop
    rw [if_pos h, matchDevice_append deviceName_cpu hmain]
    simp [h, hmatch, hdigits]

theorem mem_runText {batch count : ℕ} {c : Char} (h : c ∈ runText batch count) :
    c ∈ ['c', 'p', 'u', '*', '^'] ∨ c.isDigit := by
  simp only [runText, List.mem_append] at h
  rcases h with (h | h) | h
  · exact .inl (by revert h; simp; tauto)
  · split_ifs at h
    · rcases List.mem_cons.mp h with rfl | h
      · exact .inl (by simp)
      · exact .inr (isDigit_of_mem_toDigits h)
    · cases h
  · split_ifs at h
    · rcases List.mem_cons.mp h with rfl | h
      · exact .inl (by simp)
      · exact .inr (isDigit_of_mem_toDigits h)
    · cases h

theorem trim_runText (batch count : ℕ) : trim (runText batch count) = runText batch count := by
  refine trim_of_forall fun c hc => ?_
  have hletters : ['c', 'p', 'u', '*', '^'].all (fun c => !isSpace c) = true := by decide
  rcases mem_runText hc with h | h
  · simpa using List.all_eq_true.mp hletters c h
  · exact isSpace_of_isDigit h

theorem comma_notMem_runText (batch count : ℕ) : ',' ∉ runText batch count := by
  intro h
  rcases mem_runText h with h | h
  · revert h
    decide
  · cases h

theorem trim_intercalate_runText {l : List (ℕ × ℕ)} (hne : l ≠ []) :
    trim ([','].intercalate (l.map fun r => runText r.1 r.2)) ≠ [] := by
  obtain ⟨r, l, rfl⟩ := List.exists_cons_of_ne_nil hne
  refine trim_ne_nil (c := 'c') ?_ (by decide)
  cases l <;> simp [List.intercalate, runText]

theorem validateInteger_intensity {v : ℕ} {label : String} (hpos : 0 < v) (hfits : v < 2 ^ 32) :
    validateInteger .intensity (.num (.finite v)) label = .ok v := by
  have hsafe : (Number.finite (v : ℚ)).safeNat? = some v :=
    Number.safeNat?_eq_some.mpr ⟨rfl, by rw [maxSafeInteger]; omega⟩
  have hrange : Field.intensity.minimum ≤ v ∧ v ≤ 0xffffffff := ⟨hpos, by omega⟩
  have hfilter : (some v).filter (fun v => Field.intensity.minimum ≤ v ∧ v ≤ 0xffffffff) = some v := by
    simp [hrange.1, hrange.2]
  rw [validateInteger, decimalNumber?]
  simp only [hsafe, hfilter, Except.bind_eq_ok, throwIf_eq_ok]
  exact ⟨(), by simp, (), by simp, (), by simp, rfl⟩

/-- The main value of a CPU is its intensity. -/
theorem setMain_cpu {algo context : String} {batch : ℕ} (hbatch : 0 < batch)
    (hfits : batch < 2 ^ 32) (halgo : algo ∉ fixedIntensityAlgos) :
    setMain algo context ['c', 'p', 'u'] Tuning.empty batch =
      .ok (Tuning.empty.set .intensity (.int batch)) := by
  have hcpu : isCpu ['c', 'p', 'u'] = true := by decide
  simp only [setMain, hcpu, if_true, Except.bind_eq_ok, throwIf_eq_ok]
  exact ⟨(), fun h => halgo h.1, (), by simp [Tuning.int?, Tuning.empty], batch,
    validateInteger_intensity hbatch hfits, rfl⟩

/-- The controller reads a run back. -/
theorem parseDeviceEntry_runText {batch count : ℕ} {algo : String} (hbatch : 0 < batch)
    (hfits : batch < 2 ^ 32) (hcount : 0 < count) (hle : count ≤ 1024)
    (halgo : algo ∉ fixedIntensityAlgos) :
    parseDeviceEntry (runText batch count) algo = .ok (runEntry batch count) := by
  obtain ⟨digits, hmatch, hvalue⟩ := matchEntry_runText hbatch hcount
  have hlower : ['c', 'p', 'u'].map Char.toLower = ['c', 'p', 'u'] := deviceName_cpu.toLower
  rw [parseDeviceEntry, trim_runText, hmatch]
  simp only [parseMatch, hlower, hvalue, Except.bind_eq_ok, throwIf_eq_ok]
  by_cases h : batch = 1
  · refine ⟨(), by decide, Tuning.empty, rfl, Tuning.empty, ?_, (), by omega, ?_⟩
    · rw [if_pos h]
      rfl
    · rw [runEntry, if_pos h]
      rfl
  · refine ⟨(), by decide, Tuning.empty, rfl, Tuning.empty.set .intensity (.int batch), ?_, (),
      by omega, ?_⟩
    · rw [if_neg h, addMain, digitsValue_toDigits]
      exact setMain_cpu hbatch hfits halgo
    · rw [runEntry, if_neg h]
      rfl

/-- The batch of an entry: its intensity, or one. -/
def entryBatch (entry : DeviceEntry) : ℕ := (entry.tuning.int? .intensity).getD 1

theorem entryBatch_runEntry (batch count : ℕ) : entryBatch (runEntry batch count) = batch := by
  by_cases h : batch = 1
  · simp [entryBatch, runEntry, h, Tuning.int?, Tuning.empty]
  · simp [entryBatch, runEntry, h, Tuning.int?, Tuning.set]

/-- **The controller reads the batches back.** -/
theorem cpu_devices_decode (threads : List ℕ) (hne : threads ≠ [])
    (hpos : ∀ b ∈ threads, 0 < b ∧ b < 2 ^ 32) (hshort : ShortRuns threads) (algo : String)
    (halgo : algo ∈ Native.cpuNames) :
    ∃ entries, parseDeviceList (appendGroupedCpuDevs [] threads) algo = .ok entries ∧
      entries.flatMap (fun e => List.replicate e.processes (entryBatch e)) = threads ∧
      ∀ e ∈ entries, e.device = ['c', 'p', 'u'] := by
  obtain ⟨batch, rest, rfl⟩ := List.exists_cons_of_ne_nil hne
  have hfixed : algo ∉ fixedIntensityAlgos := by
    revert algo
    decide
  have hcode := appendGroupedCpuDevs_eq (fun b hb => (hpos b hb).1) hshort
  have hflat := flatMap_runs batch 1 rest
  have hruns : ∀ r ∈ runs batch 1 rest,
      parseDeviceEntry (runText r.1 r.2) algo = .ok (runEntry r.1 r.2) := by
    intro r hr
    have hcount := runs_pos Nat.one_pos r hr
    have hpart := replicate_infix_of_mem_runs hr
    have hrep : r.1 ∈ List.replicate r.2 r.1 := List.mem_replicate.mpr ⟨hcount.ne', rfl⟩
    obtain ⟨hb, hfits⟩ := hpos r.1 (hpart.subset hrep)
    exact parseDeviceEntry_runText hb hfits hcount (hshort.count_le hpart) hfixed
  refine ⟨(runs batch 1 rest).map fun r => runEntry r.1 r.2, ?_, ?_, ?_⟩
  · rw [hcode, parseDeviceList, if_neg (trim_intercalate_runText (runs_ne_nil _ _ _)), split,
      List.splitOn_intercalate]
    · exact mapM_map_eq_ok hruns
    · intro text htext
      obtain ⟨r, -, rfl⟩ := List.mem_map.mp htext
      exact comma_notMem_runText _ _
    · simpa using runs_ne_nil batch 1 rest
  · rw [List.flatMap_map]
    simp only [entryBatch_runEntry]
    exact hflat
  · intro e he
    obtain ⟨r, -, rfl⟩ := List.mem_map.mp he
    rfl

theorem cpu_devices_decode_three : ∃ entries,
    parseDeviceList (appendGroupedCpuDevs [] [1, 1, 2]) "rx/0" = .ok entries ∧
      entries.flatMap (fun e => List.replicate e.processes (entryBatch e)) = [1, 1, 2] ∧
      ∀ e ∈ entries, e.device = ['c', 'p', 'u'] := by
  refine cpu_devices_decode [1, 1, 2] (by simp) (by simp) ?_ "rx/0" (by decide)
  intro batch h
  have hlength := h.length_le
  rw [List.length_replicate] at hlength
  exact absurd hlength (by decide)

/-- No batches at all are an empty text, which is not a device list. -/
theorem cpu_devices_empty_rejected :
    appendGroupedCpuDevs [] [] = [] ∧
      parseDeviceList (appendGroupedCpuDevs [] []) "rx/0" = .error "device list must be a string" :=
  ⟨rfl, rfl⟩

end MoMiner.Miner
