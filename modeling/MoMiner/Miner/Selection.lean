import MoMiner.Lib.Lines
import MoMiner.Miner.Environment

/-!
# The selection is never widened

After `prepareAlgoParams`, an algorithm runs only on devices that the user selected and that were
discovered for it, and a device with a fixed budget does not get more processes than were selected.

The budget is counted while the selected entries are read (`countSelected_processes`,
`mem_boundedDevices`) and handed out while the entries of an algorithm are narrowed
(`processesOn_takeProcesses_le`, `takeProcesses_slots`).

Main result: `selection_never_widens`.
-/

namespace MoMiner.Miner

open MoMiner.Js

/-! ## Counting the selection -/

/-- A device whose budget the request fixes: one of its parts has a number of processes, or the
device is named again. -/
def ExplicitBudget (entries : List DeviceEntry) (parts : List (List Char)) (device : List Char) :
    Prop :=
  ∃ i : ℕ, (entries[i]?).map DeviceEntry.device = some device ∧
    ((∃ part, parts[i]? = some part ∧ '^' ∈ part) ∨
      ∃ j < i, (entries[j]?).map DeviceEntry.device = some device)

theorem processesOn_nil (device : List Char) : processesOn device [] = 0 := rfl

theorem processesOn_cons (device : List Char) (entry : DeviceEntry) (entries : List DeviceEntry) :
    processesOn device (entry :: entries) =
      (if entry.device = device then entry.processes else 0) + processesOn device entries := by
  rw [processesOn, List.filter_cons]
  by_cases h : entry.device = device
  · simp [h, processesOn]
  · simp [h, processesOn]

theorem countSelected_processes (b : Budget) (entries : List DeviceEntry)
    (parts : List (List Char)) (device : List Char) :
    ((countSelected b entries parts).selectedProcesses device).getD 0 =
      (b.selectedProcesses device).getD 0 + processesOn device entries := by
  induction entries generalizing b parts with
  | nil => rfl
  | cons entry entries ih =>
    rw [countSelected, ih, processesOn_cons]
    by_cases h : entry.device = device
    · subst h
      simp [Budget.add_selectedProcesses, Nat.add_assoc]
    · have hne : device ≠ entry.device := fun heq => h heq.symm
      simp [Budget.add_selectedProcesses, h, Function.update_of_ne hne]

theorem Budget.mem_add {b : Budget} {device : List Char} (h : device ∈ b.boundedDevices)
    (entry : DeviceEntry) (part : Option (List Char)) :
    device ∈ (b.add entry part).boundedDevices := by
  rw [Budget.add_boundedDevices]
  split_ifs
  · exact List.mem_cons_of_mem _ h
  · exact h

theorem mem_countSelected {b : Budget} {device : List Char} (h : device ∈ b.boundedDevices)
    (entries : List DeviceEntry) (parts : List (List Char)) :
    device ∈ (countSelected b entries parts).boundedDevices := by
  induction entries generalizing b parts with
  | nil => exact h
  | cons entry entries ih => exact ih (b.mem_add h entry _) _

theorem Budget.isSome_add {b : Budget} {device : List Char}
    (h : (b.selectedProcesses device).isSome) (entry : DeviceEntry) (part : Option (List Char)) :
    ((b.add entry part).selectedProcesses device).isSome := by
  by_cases hd : device = entry.device
  · simp [Budget.add_selectedProcesses, hd]
  · rwa [Budget.add_selectedProcesses, Function.update_of_ne hd]

/-- A device is bounded from the place where its budget becomes explicit. -/
theorem mem_boundedDevices {b : Budget} {entries : List DeviceEntry} {parts : List (List Char)}
    {i : ℕ} {device : List Char} (hentry : (entries[i]?).map DeviceEntry.device = some device)
    (h : (∃ part, parts[i]? = some part ∧ '^' ∈ part) ∨
      (∃ j < i, (entries[j]?).map DeviceEntry.device = some device) ∨
      (b.selectedProcesses device).isSome) :
    device ∈ (countSelected b entries parts).boundedDevices := by
  induction entries generalizing b parts i with
  | nil => cases hentry
  | cons first entries ih =>
    cases i with
    | zero =>
      cases hentry
      have hadd : parts.head?.any (fun part => decide ('^' ∈ part)) = true ∨
          (b.selectedProcesses first.device).isSome := by
        rcases h with ⟨part, hpart, hmark⟩ | ⟨j, hj, -⟩ | h
        · exact .inl (by simp [List.head?_eq_getElem?, hpart, hmark])
        · omega
        · exact .inr h
      rw [countSelected]
      refine mem_countSelected ?_ _ _
      rw [Budget.add_boundedDevices, if_pos hadd]
      exact List.mem_cons_self
    | succ i =>
      refine ih hentry ?_
      rcases h with ⟨part, hpart, hmark⟩ | ⟨j, hj, hearlier⟩ | h
      · exact .inl ⟨part, by rw [List.getElem?_tail, hpart], hmark⟩
      · cases j with
        | zero =>
          cases hearlier
          exact .inr (.inr (by simp [Budget.add_selectedProcesses]))
        | succ j => exact .inr (.inl ⟨j, by omega, hearlier⟩)
      · exact .inr (.inr (Budget.isSome_add h _ _))

theorem ExplicitBudget.mem_boundedDevices {entries : List DeviceEntry} {parts : List (List Char)}
    {device : List Char} (h : ExplicitBudget entries parts device) (b : Budget) :
    device ∈ (countSelected b entries parts).boundedDevices := by
  obtain ⟨i, hentry, hmark | hearlier⟩ := h
  · exact Miner.mem_boundedDevices hentry (.inl hmark)
  · exact Miner.mem_boundedDevices hentry (.inr (.inl hearlier))

/-! ## Handing out the budget -/

/-- How the entries of an algorithm are narrowed: each keeps its device and tuning with at most its
processes, and it is dropped where the entries before it used up the budget of its device. -/
structure Narrowed (budget : List Char → ℕ) (entries : List DeviceEntry)
    (slots : List (Option DeviceEntry)) : Prop where
  length : slots.length = entries.length
  kept : ∀ (i : ℕ) (entry entry' : DeviceEntry), entries[i]? = some entry →
    slots[i]? = some (some entry') → entry'.device = entry.device ∧
      entry'.tuning = entry.tuning ∧ 0 < entry'.processes ∧ entry'.processes ≤ entry.processes
  dropped : ∀ (i : ℕ) (entry : DeviceEntry), entries[i]? = some entry → slots[i]? = some none →
    budget entry.device - processesOn entry.device (slots.take i).reduceOption = 0

/-- A slot counts with the processes that it was given. -/
theorem processesOn_slot (device : List Char) (entry : DeviceEntry) (processes : ℕ)
    (slots : List (Option DeviceEntry)) :
    processesOn device
        ((if processes = 0 then none else some { entry with processes }) :: slots).reduceOption =
      (if entry.device = device then processes else 0) + processesOn device slots.reduceOption := by
  split_ifs with hzero hd hd
  · rw [List.reduceOption_cons_of_none]
    omega
  · rw [List.reduceOption_cons_of_none, Nat.zero_add]
  · rw [List.reduceOption_cons_of_some, processesOn_cons, if_pos hd]
  · rw [List.reduceOption_cons_of_some, processesOn_cons, if_neg hd]

theorem processesOn_takeProcesses_le (remaining : List Char → ℕ) (entries : List DeviceEntry)
    (device : List Char) :
    processesOn device (takeProcesses remaining entries).reduceOption ≤ remaining device := by
  induction entries generalizing remaining with
  | nil => exact Nat.zero_le _
  | cons entry entries ih =>
    have hrest := ih (Function.update remaining entry.device
      (remaining entry.device - min entry.processes (remaining entry.device)))
    rw [takeProcesses, processesOn_slot]
    by_cases hd : entry.device = device
    · rw [← hd, Function.update_self] at hrest
      rw [← hd, if_pos rfl]
      omega
    · rw [Function.update_of_ne (Ne.symm hd)] at hrest
      rwa [if_neg hd, Nat.zero_add]

theorem takeProcesses_narrowed (remaining : List Char → ℕ) {entries : List DeviceEntry}
    (hpos : ∀ entry ∈ entries, 0 < entry.processes) :
    Narrowed remaining entries (takeProcesses remaining entries) := by
  induction entries generalizing remaining with
  | nil => exact ⟨rfl, by simp, by simp⟩
  | cons entry entries ih =>
    obtain ⟨hfirst, hrest⟩ := List.forall_mem_cons.mp hpos
    obtain ⟨hlength, hkept, hdropped⟩ := ih (Function.update remaining entry.device
      (remaining entry.device - min entry.processes (remaining entry.device))) hrest
    rw [takeProcesses]
    refine ⟨by simp [hlength], ?_, ?_⟩
    · intro i e e' he he'
      cases i with
      | zero =>
        cases he
        by_cases hzero : min entry.processes (remaining entry.device) = 0
        · simp [hzero] at he'
        · simp only [hzero, if_false, List.getElem?_cons_zero, Option.some.injEq] at he'
          subst he'
          exact ⟨rfl, rfl, Nat.pos_of_ne_zero hzero, Nat.min_le_left _ _⟩
      | succ i => exact hkept i e e' he he'
    · intro i e he hnone
      cases i with
      | zero =>
        cases he
        have hzero : min entry.processes (remaining entry.device) = 0 := by
          by_contra hzero
          simp [hzero] at hnone
        rw [List.take_zero, List.reduceOption_nil, processesOn_nil]
        omega
      | succ i =>
        have hzero := hdropped i e he hnone
        rw [List.take_succ_cons, processesOn_slot]
        by_cases hd : entry.device = e.device
        · rw [← hd, Function.update_self] at hzero
          rw [← hd, if_pos rfl]
          omega
        · rw [Function.update_of_ne (Ne.symm hd)] at hzero
          rwa [if_neg hd, Nat.zero_add]

/-! ## Resolved entries -/

theorem resolveEntry_load {algo : String} {configured heuristic : List DeviceEntry} {named : Tuning}
    {entry entry' : DeviceEntry} (h : entry' ∈ resolveEntry algo configured heuristic named entry) :
    entry'.load = entry.load := by
  rw [resolveEntry] at h
  split at h
  · rw [List.mem_singleton.mp h]
  · dsimp only at h
    split at h
    · obtain ⟨candidate, -, rfl⟩ := List.mem_map.mp h
      rfl
    · rw [List.mem_singleton.mp h]
      rfl

theorem DeviceEntry.Wf.of_load {entry entry' : DeviceEntry} (h : entry.Wf)
    (hload : entry'.load = entry.load) : entry'.Wf := by
  obtain ⟨hdevice, hprocesses⟩ := Prod.mk.inj hload
  exact ⟨hdevice ▸ h.name, hprocesses ▸ h.pos⟩

/-- A resolved list has the configured devices. -/
theorem resolvedDeviceList_devices {algo : String} {configuredDev heuristicDev resolved : List Char}
    {named : Tuning} {parsed : List DeviceEntry}
    (h : resolvedDeviceList algo configuredDev heuristicDev named = .ok resolved)
    (hparsed : parseDeviceList resolved algo = .ok parsed) :
    ∃ configured, parseDeviceList configuredDev algo = .ok configured ∧
      ∀ entry ∈ parsed, ∃ entry' ∈ configured, entry'.load = entry.load := by
  simp only [resolvedDeviceList, Except.bind_eq_ok] at h
  obtain ⟨configured, hconfigured, heuristic, -, h⟩ := h
  cases h
  refine ⟨configured, hconfigured, fun entry hentry => ?_⟩
  have hwf : ∀ entry ∈ configured.flatMap (resolveEntry algo configured heuristic named),
      entry.Wf := by
    intro entry hentry
    obtain ⟨entry', hentry', hmem⟩ := List.mem_flatMap.mp hentry
    exact (parseDeviceList_wf hconfigured entry' hentry').of_load (resolveEntry_load hmem)
  have hloads := parseDeviceList_format hwf hparsed
  have hload : entry.load ∈ parsed.map DeviceEntry.load := List.mem_map_of_mem hentry
  rw [hloads] at hload
  obtain ⟨printed, hprinted, hsame⟩ := List.mem_map.mp hload
  obtain ⟨entry', hentry', hmem⟩ := List.mem_flatMap.mp hprinted
  exact ⟨entry', hentry', (resolveEntry_load hmem).symm.trans hsame⟩

theorem cpuEntries_load {bounded : Bool} {requested entry : DeviceEntry}
    {candidates : List DeviceEntry} (hrequested : requested.Wf)
    (hcandidates : ∀ candidate ∈ candidates, candidate.Wf)
    (h : entry ∈ cpuEntries bounded requested candidates) :
    entry.Wf ∧ entry.device = requested.device := by
  obtain ⟨candidate, hcandidate, rfl⟩ := List.mem_map.mp h
  refine ⟨⟨hrequested.name, ?_⟩, rfl⟩
  cases bounded
  · exact (hcandidates candidate hcandidate).pos
  · exact hrequested.pos

theorem gpuEntries_load {algo : String} {named : Tuning} {bounded : Bool} {part : List Char}
    {candidate requested entry : DeviceEntry} {entries : List DeviceEntry}
    (hpart : ',' ∉ part) (hrequested : parseDeviceEntry part algo = .ok requested)
    (hcandidate : candidate.Wf) (h : gpuEntries algo named bounded part candidate = .ok entries)
    (hentry : entry ∈ entries) : entry.Wf ∧ entry.device = requested.device := by
  simp only [gpuEntries, Except.bind_eq_ok] at h
  obtain ⟨resolved, hresolved, parsed, hparsed, h⟩ := h
  cases h
  obtain ⟨entry', hentry', rfl⟩ := List.mem_map.mp hentry
  obtain ⟨configured, hconfigured, hdevices⟩ := resolvedDeviceList_devices hresolved hparsed
  obtain ⟨source, hsource, hload⟩ := hdevices entry' hentry'
  have hall := parseDeviceList_eq hconfigured
  rw [split, List.splitOn_eq_singleton hpart] at hall
  obtain ⟨text, htext, hparse⟩ := exists_of_mem_forall₂ hall hsource
  rw [List.mem_singleton.mp htext, hrequested] at hparse
  cases hparse
  have hwf := parseDeviceList_wf hparsed entry' hentry'
  refine ⟨⟨hwf.name, ?_⟩, (congrArg Prod.fst hload).symm⟩
  cases bounded
  · exact hcandidate.pos
  · exact hwf.pos

/-- The entries of a requested part are on its device, which was discovered. -/
theorem partEntries_device {b : Budget} {algo : String} {named : Tuning}
    {heuristic discovery entries : List DeviceEntry} {selected entry : DeviceEntry}
    {part : List Char} (hpart : ',' ∉ part) (hselected : parseDeviceEntry part "" = .ok selected)
    (hheuristic : ∀ candidate ∈ heuristic, candidate.Wf)
    (h : partEntries b algo named heuristic discovery selected part = .ok entries)
    (hentry : entry ∈ entries) : entry.Wf ∧ entry.device = selected.device := by
  rw [partEntries] at h
  split at h
  · cases h
    cases hentry
  · split at h
    · cases h
    · next requested hrequested =>
      have hdevice : requested.device = selected.device :=
        congrArg Prod.fst (parseDeviceEntry_algo hrequested hselected)
      have hcandidates : ∀ candidate ∈ heuristic.filter (·.device = selected.device),
          candidate.Wf := fun candidate hc => hheuristic candidate (List.mem_of_mem_filter hc)
      dsimp only at h
      split at h
      · cases h
        rw [← hdevice]
        exact cpuEntries_load (parseDeviceEntry_wf hrequested) hcandidates hentry
      · simp only [Except.bind_eq_ok] at h
        obtain ⟨lists, hlists, h⟩ := h
        cases h
        obtain ⟨list, hlist, hentry⟩ := List.mem_flatten.mp hentry
        obtain ⟨candidate, hcandidate, hgpu⟩ :=
          exists_of_mem_forall₂ (forall₂_of_mapM_eq_ok hlists) hlist
        rw [← hdevice]
        refine gpuEntries_load hpart hrequested (hcandidates candidate ?_) hgpu hentry
        split at hcandidate
        · exact List.mem_of_mem_take hcandidate
        · exact hcandidate

/-- In automatic mode the entries of an algorithm are on selected devices. -/
theorem selectAutoEntries_device {sel : Selection} {algo : String} {candidate : AlgoParam}
    {discovery entries : List DeviceEntry} {request : List Char}
    (hparts : sel.parts = split ',' request)
    (hentries : parseDeviceList request "" = .ok sel.entries)
    (hdiscovery : ∀ entry ∈ discovery, entry.Wf)
    (h : selectAutoEntries sel algo candidate discovery = .ok entries) :
    ∀ entry ∈ entries, entry.Wf ∧ ∃ selected ∈ sel.entries, selected.device = entry.device := by
  intro entry hentry
  simp only [selectAutoEntries, Except.bind_eq_ok] at h
  obtain ⟨configured, hconfigured, lists, hlists, h⟩ := h
  cases h
  obtain ⟨list, hlist, hentry⟩ := List.mem_flatten.mp hentry
  obtain ⟨⟨selected, part⟩, hmem, hpart⟩ :=
    exists_of_mem_forall₂ (forall₂_of_mapM_eq_ok hlists) hlist
  have hpaired : List.Forall₂ (fun entry text => parseDeviceEntry text "" = .ok entry) sel.entries
      sel.parts := hparts ▸ (parseDeviceList_eq hentries).flip
  have hselected : parseDeviceEntry part "" = .ok selected := List.forall₂_zip hpaired hmem
  have hcomma : ',' ∉ part :=
    Lines.notMem_of_mem_splitOn (hparts ▸ (List.of_mem_zip hmem).2)
  have hheuristic : ∀ candidate ∈ configured ++ discovery.filter fun entry =>
      configured.all (·.device ≠ entry.device), candidate.Wf := by
    intro candidate hc
    rcases List.mem_append.mp hc with hc | hc
    · exact parseDeviceList_wf hconfigured candidate hc
    · exact hdiscovery candidate (List.mem_of_mem_filter hc)
  obtain ⟨hwf, hdevice⟩ := partEntries_device hcomma hselected hheuristic hpart hentry
  exact ⟨hwf, selected, (List.of_mem_zip hmem).1, hdevice.symm⟩

/-! ## The selection -/

theorem le_processesOn {entry : DeviceEntry} {entries : List DeviceEntry} (h : entry ∈ entries) :
    entry.processes ≤ processesOn entry.device entries := by
  refine List.single_le_sum (fun _ _ => Nat.zero_le _) _ (List.mem_map_of_mem ?_)
  exact List.mem_filter.mpr ⟨h, by simp⟩

theorem exists_of_processesOn_pos {device : List Char} {entries : List DeviceEntry}
    (h : 0 < processesOn device entries) : ∃ entry ∈ entries, entry.device = device := by
  by_contra hnone
  have hfilter : entries.filter (·.device = device) = [] := by
    refine List.filter_eq_nil_iff.mpr fun entry hentry hd => hnone ⟨entry, hentry, ?_⟩
    simpa using hd
  rw [processesOn, hfilter] at h
  exact absurd h (by simp)

theorem Narrowed.source {budget : List Char → ℕ} {entries : List DeviceEntry}
    {slots : List (Option DeviceEntry)} (h : Narrowed budget entries slots) {entry' : DeviceEntry}
    (hentry : entry' ∈ slots.reduceOption) :
    ∃ entry ∈ entries, entry'.device = entry.device ∧ 0 < entry'.processes := by
  obtain ⟨i, hi⟩ := List.mem_iff_getElem?.mp (List.reduceOption_mem_iff.mp hentry)
  have hlt : i < entries.length := h.length ▸ (List.getElem?_eq_some_iff.mp hi).1
  obtain ⟨hdevice, -, hpos, -⟩ := h.kept i _ _ (List.getElem?_eq_getElem hlt) hi
  exact ⟨_, List.getElem_mem hlt, hdevice, hpos⟩

/-- Where nothing is left, no device had a budget. -/
theorem Narrowed.budget_eq_zero {budget : List Char → ℕ} {entries : List DeviceEntry}
    {slots : List (Option DeviceEntry)} (h : Narrowed budget entries slots)
    (hnil : slots.reduceOption = []) {entry : DeviceEntry} (hentry : entry ∈ entries) :
    budget entry.device = 0 := by
  obtain ⟨i, hi⟩ := List.mem_iff_getElem?.mp hentry
  have hlt : i < slots.length := h.length ▸ (List.getElem?_eq_some_iff.mp hi).1
  have hslot : slots[i]? = some none := by
    cases hs : slots[i] with
    | none => rw [List.getElem?_eq_getElem hlt, hs]
    | some e =>
      have hmem : e ∈ slots.reduceOption :=
        List.reduceOption_mem_iff.mpr (hs ▸ List.getElem_mem hlt)
      rw [hnil] at hmem
      cases hmem
  have htake : (slots.take i).reduceOption = [] := by
    refine List.eq_nil_iff_forall_not_mem.mpr fun e he => ?_
    have hmem : e ∈ slots.reduceOption := List.reduceOption_mem_iff.mpr
      (List.mem_of_mem_take (List.reduceOption_mem_iff.mp he))
    rw [hnil] at hmem
    cases hmem
  have hzero := h.dropped i entry hi hslot
  rwa [htake, processesOn_nil, Nat.sub_zero] at hzero

/-- What the selection was computed from. -/
structure Selected (opt : Options) (sel : Selection) : Prop where
  algo : sel.algo = normalizeAlgoName opt.jobAlgo
  param : chosenParam opt sel.algo = .ok sel.algoParam
  entries : parseDeviceList (if sel.algo.isSome then sel.algoParam.dev else opt.devRequest.getD [])
    (sel.algo.getD "") = .ok sel.entries
  parts : sel.parts = (opt.devRequest.map (split ',')).getD []
  budget : sel.budget = countSelected ⟨fun _ => none, []⟩ sel.entries sel.parts

theorem select_spec {opt : Options} {sel : Selection} (h : select opt = .ok sel) :
    Selected opt sel := by
  simp only [select, Except.bind_eq_ok] at h
  obtain ⟨param, hparam, entries, hentries, h⟩ := h
  cases h
  exact ⟨rfl, hparam, hentries, rfl, rfl⟩

/-- A device whose budget is fixed: with a chosen algorithm every one, else the explicit ones. -/
def Selection.Fixed (sel : Selection) (device : List Char) : Prop :=
  sel.algo.isSome ∨ ExplicitBudget sel.entries sel.parts device

section Narrow

variable {opt : Options} {sel : Selection} (hsel : Selected opt sel)
variable {discovery resolved : List DeviceEntry} {algo : String} {candidate : AlgoParam}

include hsel

theorem Selected.remainingProcesses_eq {device : List Char} (hfixed : sel.Fixed device) :
    remainingProcesses sel discovery resolved device = processesOn device sel.entries := by
  have hcount := countSelected_processes ⟨fun _ => none, []⟩ sel.entries sel.parts device
  rw [Option.getD_none, Nat.zero_add, ← hsel.budget] at hcount
  rw [remainingProcesses, if_neg, hcount]
  rintro ⟨hnone, -, hfree⟩
  rcases hfixed with hsome | hexplicit
  · rw [Option.isNone_iff_eq_none.mp hnone] at hsome
    cases hsome
  · exact hfree (hsel.budget ▸ hexplicit.mem_boundedDevices _)

theorem Selected.resolvedEntries_device (hchoice : sel.algo.isSome ∨ opt.devRequest.isSome)
    (hdiscovery : ∀ entry ∈ discovery, entry.Wf)
    (h : resolvedEntries sel algo candidate discovery = .ok resolved) :
    ∀ entry ∈ resolved, entry.Wf ∧
      (sel.algo = none → ∃ selected ∈ sel.entries, selected.device = entry.device) := by
  rw [resolvedEntries] at h
  intro entry hentry
  split_ifs at h with halgo
  · refine ⟨parseDeviceList_wf h entry hentry, fun hnone => ?_⟩
    rw [hnone] at halgo
    cases halgo
  · have hnone : sel.algo = none := by simpa using halgo
    obtain ⟨request, hrequest⟩ := Option.isSome_iff_exists.mp (hchoice.resolve_left halgo)
    have hparts := hsel.parts
    have hentries := hsel.entries
    rw [hrequest] at hparts
    rw [if_neg halgo, hrequest, hnone] at hentries
    obtain ⟨hwf, hdevice⟩ := selectAutoEntries_device hparts hentries hdiscovery h entry hentry
    exact ⟨hwf, fun _ => hdevice⟩

/-- What narrowing the entries of an algorithm leaves. -/
structure Within (sel : Selection) (discovery entries : List DeviceEntry) : Prop where
  wf : ∀ entry ∈ entries, entry.Wf
  selected : ∀ entry ∈ entries, ∃ selected ∈ sel.entries, selected.device = entry.device
  discovered : ∀ entry ∈ entries, ∃ found ∈ discovery, found.device = entry.device
  budget : ∀ device, sel.Fixed device → processesOn device entries ≤ processesOn device sel.entries

theorem Selected.narrowed (hchoice : sel.algo.isSome ∨ opt.devRequest.isSome)
    (hdiscovery : ∀ entry ∈ discovery, entry.Wf)
    (h : resolvedEntries sel algo candidate discovery = .ok resolved) :
    Narrowed (remainingProcesses sel discovery resolved) (discoveredEntries discovery resolved)
        (takeProcesses (remainingProcesses sel discovery resolved)
          (discoveredEntries discovery resolved)) ∧
      Within sel discovery (takeProcesses (remainingProcesses sel discovery resolved)
        (discoveredEntries discovery resolved)).reduceOption := by
  have hresolved := hsel.resolvedEntries_device hchoice hdiscovery h
  have hentries : ∀ entry ∈ discoveredEntries discovery resolved, entry ∈ resolved ∧
      ∃ found ∈ discovery, found.device = entry.device := by
    intro entry hentry
    obtain ⟨hmem, hfound⟩ := List.mem_filter.mp hentry
    exact ⟨hmem, by simpa using hfound⟩
  have hnarrowed := takeProcesses_narrowed (remainingProcesses sel discovery resolved)
    fun entry hentry => (hresolved entry (hentries entry hentry).1).1.pos
  have hbudget : ∀ device, sel.Fixed device → processesOn device
      (takeProcesses (remainingProcesses sel discovery resolved)
        (discoveredEntries discovery resolved)).reduceOption ≤ processesOn device sel.entries := by
    intro device hfixed
    rw [← hsel.remainingProcesses_eq hfixed]
    exact processesOn_takeProcesses_le _ _ _
  refine ⟨hnarrowed, fun entry hentry => ?_, fun entry hentry => ?_, fun entry hentry => ?_, hbudget⟩
  · obtain ⟨source, hsource, hdevice, hpos⟩ := hnarrowed.source hentry
    exact ⟨hdevice ▸ (hresolved source (hentries source hsource).1).1.name, hpos⟩
  · obtain ⟨source, hsource, hdevice, hpos⟩ := hnarrowed.source hentry
    cases halgo : sel.algo with
    | none =>
      rw [hdevice]
      exact (hresolved source (hentries source hsource).1).2 halgo
    | some _ =>
      -- With a chosen algorithm, what is left of the budget shows that the device is selected.
      have hle := hbudget entry.device (.inl (by simp [halgo]))
      exact exists_of_processesOn_pos (hpos.trans_le ((le_processesOn hentry).trans hle))
  · obtain ⟨source, hsource, hdevice, -⟩ := hnarrowed.source hentry
    rw [hdevice]
    exact (hentries source hsource).2

end Narrow

/-! ## The kept algorithms -/

section Assign

variable {α : Type} {fields : List (String × α)} {key name : String} {value v : α}

theorem mem_of_mem_assign (h : (name, v) ∈ assign fields key value) :
    (key ≠ "__proto__" ∧ name = key ∧ v = value) ∨ (name, v) ∈ fields := by
  rw [assign] at h
  split_ifs at h with hkey
  · exact .inr h
  · obtain ⟨f, hf, heq⟩ := List.mem_map.mp h
    split_ifs at heq
    · exact .inl ⟨hkey, (congrArg Prod.fst heq).symm, (congrArg Prod.snd heq).symm⟩
    · exact .inr (heq ▸ hf)
  · rcases List.mem_append.mp h with h | h
    · exact .inr h
    · exact .inl ⟨hkey, by simpa using h⟩

theorem mem_assign_self (hkey : key ≠ "__proto__") : (key, value) ∈ assign fields key value := by
  rw [assign, if_neg hkey]
  split_ifs with hsome
  · obtain ⟨v, hv⟩ := Option.isSome_iff_exists.mp hsome
    obtain ⟨l₁, l₂, rfl, -⟩ := List.lookup_eq_some_iff.mp hv
    exact List.mem_map.mpr ⟨(key, v), by simp, by simp⟩
  · simp

/-- An assignment keeps the keys. -/
theorem exists_mem_assign (h : (name, v) ∈ fields) : ∃ v', (name, v') ∈ assign fields key value := by
  rw [assign]
  split_ifs
  · exact ⟨v, h⟩
  · by_cases hname : name = key
    · exact ⟨value, List.mem_map.mpr ⟨(name, v), h, by simp [hname]⟩⟩
    · exact ⟨v, List.mem_map.mpr ⟨(name, v), h, by simp [hname]⟩⟩
  · exact ⟨v, List.mem_append_left _ h⟩

theorem mem_of_lookup_eq_some (h : fields.lookup key = some v) : (key, v) ∈ fields := by
  obtain ⟨l₁, l₂, rfl, -⟩ := List.lookup_eq_some_iff.mp h
  simp

end Assign

theorem addCompatible_ok {sel : Selection} {discovery : Discovery}
    {compatible result : List (String × AlgoParam)} {entry : String × AlgoParam}
    (h : addCompatible sel discovery compatible entry = .ok result) :
    (discovery.lookup entry.1 = none ∧ result = compatible) ∨
      ∃ devices narrowed, discovery.lookup entry.1 = some devices ∧
        narrow sel entry.1 entry.2 devices = .ok narrowed ∧
        result = narrowed.elim compatible (assign compatible entry.1) := by
  rw [addCompatible] at h
  split at h
  · next hnone =>
    cases h
    exact .inl ⟨hnone, rfl⟩
  · next devices hdevices =>
    simp only [Except.bind_eq_ok] at h
    obtain ⟨narrowed, hnarrow, h⟩ := h
    refine .inr ⟨devices, narrowed, hdevices, hnarrow, ?_⟩
    cases narrowed <;> cases h <;> rfl

/-- A kept algorithm was narrowed. -/
theorem mem_compatible {sel : Selection} {discovery : Discovery}
    {params result : List (String × AlgoParam)}
    (h : params.foldlM (addCompatible sel discovery) [] = .ok result) {name : String}
    {param : AlgoParam} (hmem : (name, param) ∈ result) :
    ∃ candidate devices, (name, candidate) ∈ params ∧ discovery.lookup name = some devices ∧
      narrow sel name candidate devices = .ok (some param) := by
  refine foldlM_invariant (P := fun compatible => ∀ name param, (name, param) ∈ compatible →
    ∃ candidate devices, (name, candidate) ∈ params ∧ discovery.lookup name = some devices ∧
      narrow sel name candidate devices = .ok (some param)) h (by simp) ?_ name param hmem
  intro compatible entry hentry compatible' hP hstep name param hmem
  rcases addCompatible_ok hstep with ⟨-, rfl⟩ | ⟨devices, narrowed, hdevices, hnarrow, rfl⟩
  · exact hP name param hmem
  · cases narrowed with
    | none => exact hP name param hmem
    | some param' =>
      rcases mem_of_mem_assign hmem with ⟨-, rfl, rfl⟩ | hmem
      · exact ⟨entry.2, devices, hentry, hdevices, hnarrow⟩
      · exact hP name param hmem

/-- An algorithm that was discovered is narrowed, and kept unless nothing is left. -/
theorem exists_narrow {sel : Selection} {discovery : Discovery}
    {params compatible result : List (String × AlgoParam)}
    (h : params.foldlM (addCompatible sel discovery) compatible = .ok result) {name : String}
    {candidate : AlgoParam} {devices : List DeviceEntry} (hmem : (name, candidate) ∈ params)
    (hdevices : discovery.lookup name = some devices) (hname : name ≠ "__proto__") :
    ∃ narrowed, narrow sel name candidate devices = .ok narrowed ∧
      (narrowed.isSome → ∃ param, (name, param) ∈ result) := by
  induction params generalizing compatible with
  | nil => cases hmem
  | cons entry params ih =>
    simp only [List.foldlM_cons, Except.bind_eq_ok] at h
    obtain ⟨compatible', hstep, hrest⟩ := h
    rcases List.mem_cons.mp hmem with rfl | hmem
    · rcases addCompatible_ok hstep with ⟨hnone, -⟩ | ⟨devices', narrowed, hdevices', hnarrow, rfl⟩
      · rw [hdevices] at hnone
        cases hnone
      · have heq : devices = devices' := Option.some.inj (hdevices.symm.trans hdevices')
        subst heq
        refine ⟨narrowed, hnarrow, fun hsome => ?_⟩
        obtain ⟨param, rfl⟩ := Option.isSome_iff_exists.mp hsome
        refine foldlM_invariant (P := fun compatible => ∃ param, (name, param) ∈ compatible) hrest
          ⟨param, mem_assign_self hname⟩ ?_
        rintro compatible entry - compatible' ⟨param, hparam⟩ hstep
        rcases addCompatible_ok hstep with ⟨-, rfl⟩ | ⟨-, narrowed, -, -, rfl⟩
        · exact ⟨param, hparam⟩
        · cases narrowed with
          | none => exact ⟨param, hparam⟩
          | some _ => exact exists_mem_assign hparam
    · exact ih hrest hmem

theorem addDiscovered_ok {hints : List (String × String)}
    {st st' : List (String × AlgoParam) × Discovery} {algo rawDev : String}
    (h : addDiscovered hints st (algo, rawDev) = .ok st') :
    st'.2 = st.2 ∨
      ∃ parsed, parseDeviceList rawDev.toList algo = .ok parsed ∧ st'.2 = assign st.2 algo parsed := by
  rw [addDiscovered] at h
  split at h
  · cases h
    exact .inl rfl
  · simp only [Except.bind_eq_ok] at h
    obtain ⟨parsed, hparsed, h⟩ := h
    refine .inr ⟨parsed, hparsed, ?_⟩
    split at h
    · simp only [Except.bind_eq_ok] at h
      obtain ⟨backend, -, h⟩ := h
      cases h
      rfl
    · simp only [Except.bind_eq_ok] at h
      obtain ⟨dev, -, h⟩ := h
      cases h
      rfl

/-- The discovered devices of an algorithm are the parsed text of the native core. -/
theorem lookup_discovery {params : List (String × String)} {opt opt' : Options}
    {discovery : Discovery} (h : addAlgoParams params opt = .ok (opt', discovery)) {name : String}
    {devices : List DeviceEntry} (hdevices : discovery.lookup name = some devices) :
    name ≠ "__proto__" ∧
      ∃ rawDev, (name, rawDev) ∈ params ∧ parseDeviceList rawDev.toList name = .ok devices := by
  simp only [addAlgoParams, Except.bind_eq_ok] at h
  obtain ⟨-, hvalid, hinted, -, ⟨algoParams, found⟩, hfold, h⟩ := h
  cases h
  refine foldlM_invariant (P := fun st => ∀ name devices, (name, devices) ∈ st.2 →
    name ≠ "__proto__" ∧ ∃ rawDev, (name, rawDev) ∈ params ∧
      parseDeviceList rawDev.toList name = .ok devices) hfold (by simp) ?_ name devices
    (mem_of_lookup_eq_some hdevices)
  rintro st ⟨algo, rawDev⟩ hentry st' hP hstep name devices hmem
  rcases addDiscovered_ok hstep with heq | ⟨parsed, hparsed, heq⟩
  · exact hP name devices (heq ▸ hmem)
  · rw [heq] at hmem
    rcases mem_of_mem_assign hmem with ⟨hproto, rfl, rfl⟩ | hmem
    · exact ⟨hproto, rawDev, hentry, hparsed⟩
    · exact hP name devices hmem

/-! ## The main result -/

/-- What a device text stands for: the entries that it is read as, or those that it was printed
from, with whose devices and processes it is read if it is. -/
def StandsFor (dev : List Char) (algo : String) (entries : List DeviceEntry) : Prop :=
  parseDeviceList dev algo = .ok entries ∨
    dev = formatDeviceList entries ∧ ∀ parsed, parseDeviceList dev algo = .ok parsed →
      parsed.map DeviceEntry.load = entries.map DeviceEntry.load

/-- The native core reported the device for an algorithm. -/
def DiscoveredFor (params : List (String × String)) (algo : String) (device : List Char) : Prop :=
  ∃ rawDev devices, (algo, rawDev) ∈ params ∧ parseDeviceList rawDev.toList algo = .ok devices ∧
    ∃ entry ∈ devices, entry.device = device

/-- The parameters of an algorithm are its entries with the selected devices, narrowed to their
budget. -/
def NarrowedTo (sel : Selection) (algo : String) (candidate : AlgoParam)
    (devices entries : List DeviceEntry) : Prop :=
  ∃ resolved slots, resolvedEntries sel algo candidate devices = .ok resolved ∧
    Narrowed (remainingProcesses sel devices resolved) (discoveredEntries devices resolved) slots ∧
    entries = slots.reduceOption

theorem narrow_spec {opt : Options} {sel : Selection} (hsel : Selected opt sel)
    (hchoice : sel.algo.isSome ∨ opt.devRequest.isSome) {algo : String} {candidate : AlgoParam}
    {devices : List DeviceEntry} (hdevices : ∀ entry ∈ devices, entry.Wf)
    {narrowed : Option AlgoParam} (h : narrow sel algo candidate devices = .ok narrowed) :
    ∃ entries, NarrowedTo sel algo candidate devices entries ∧ Within sel devices entries ∧
      (narrowed = none → entries = []) ∧
      ∀ param, narrowed = some param → param.dev = formatDeviceList entries := by
  simp only [narrow, Except.bind_eq_ok] at h
  obtain ⟨resolved, hresolved, h⟩ := h
  obtain ⟨hnarrowed, hwithin⟩ := hsel.narrowed hchoice hdevices hresolved
  refine ⟨_, ⟨resolved, _, hresolved, hnarrowed, rfl⟩, hwithin, ?_⟩
  split_ifs at h with hempty
  · cases h
    exact ⟨fun _ => List.isEmpty_iff.mp hempty, by simp⟩
  · simp only [Except.bind_eq_ok] at h
    obtain ⟨previous, -, h⟩ := h
    cases h
    exact ⟨by simp, fun param hparam => by cases hparam; rfl⟩

/-- The selected devices are those of the request. -/
theorem Selected.requested {opt : Options} {sel : Selection} (hsel : Selected opt sel)
    {request : List Char} (hrequest : opt.devRequest = some request) :
    ∃ requested, parseDeviceList request (sel.algo.getD "") = .ok requested ∧
      ∀ entry ∈ sel.entries, ∃ entry' ∈ requested, entry'.device = entry.device := by
  have hparam := hsel.param
  have hentries := hsel.entries
  cases halgo : sel.algo with
  | none =>
    rw [halgo, hrequest] at hentries
    exact ⟨sel.entries, hentries, fun entry hentry => ⟨entry, hentry, rfl⟩⟩
  | some algo =>
    rw [halgo] at hparam hentries
    simp only [chosenParam, hrequest, Except.bind_eq_ok] at hparam
    obtain ⟨dev, hdev, hparam⟩ := hparam
    have heq : dev = sel.algoParam.dev := congrArg AlgoParam.dev (Except.ok.inj hparam)
    obtain ⟨requested, hrequested, hloads⟩ := resolvedDeviceList_devices hdev (heq ▸ hentries)
    refine ⟨requested, hrequested, fun entry hentry => ?_⟩
    obtain ⟨entry', hentry', hload⟩ := hloads entry hentry
    exact ⟨entry', hentry', congrArg Prod.fst hload⟩

/-- **The selection is never widened.** After the native core's discovery and the preparation, a
kept algorithm uses only devices that the user selected, which, but for the chosen algorithm, were
discovered for it; on a device with a fixed budget it has at most the selected processes; and an
entry, or a whole algorithm, is dropped only where nothing is left of its budget. -/
theorem selection_never_widens (params : List (String × String)) (opt opt₁ opt₂ : Options)
    (discovery : Discovery) (ready : Bool)
    (hadd : addAlgoParams params opt = .ok (opt₁, discovery))
    (hprepare : prepareAlgoParams discovery opt₁ = .ok (opt₂, ready))
    (hchoice : (normalizeAlgoName opt₁.jobAlgo).isSome ∨ opt₁.devRequest.isSome) :
    ∃ sel, select opt₁ = .ok sel ∧
      (∀ request, opt₁.devRequest = some request →
        ∃ requested, parseDeviceList request (sel.algo.getD "") = .ok requested ∧
          ∀ entry ∈ sel.entries, ∃ entry' ∈ requested, entry'.device = entry.device) ∧
      (∀ name param, (name, param) ∈ opt₂.algoParams → ∃ entries, StandsFor param.dev name entries ∧
        (∀ entry ∈ entries, ∃ selected ∈ sel.entries, selected.device = entry.device) ∧
        (∀ device, sel.Fixed device →
          processesOn device entries ≤ processesOn device sel.entries) ∧
        (sel.algo ≠ some name → (∀ entry ∈ entries, DiscoveredFor params name entry.device) ∧
          ∃ candidate devices, (name, candidate) ∈ opt₁.algoParams ∧
            discovery.lookup name = some devices ∧ NarrowedTo sel name candidate devices entries)) ∧
      ∀ name candidate devices, (name, candidate) ∈ opt₁.algoParams →
        discovery.lookup name = some devices → (∀ param, (name, param) ∉ opt₂.algoParams) →
        ∃ resolved, resolvedEntries sel name candidate devices = .ok resolved ∧
          ∀ entry ∈ discoveredEntries devices resolved,
            remainingProcesses sel devices resolved entry.device = 0 := by
  have hsome : ¬ (normalizeAlgoName opt₁.jobAlgo = none ∧ opt₁.devRequest = none) := by
    rintro ⟨halgo, hrequest⟩
    simp [halgo, hrequest] at hchoice
  rw [prepareAlgoParams, if_neg hsome] at hprepare
  simp only [Except.bind_eq_ok] at hprepare
  obtain ⟨sel, hselect, compatible, hcompatible, h⟩ := hprepare
  cases h
  have hsel := select_spec hselect
  rw [← hsel.algo] at hchoice
  have hwf : ∀ {name devices}, discovery.lookup name = some devices →
      ∀ entry ∈ devices, entry.Wf := by
    intro name devices hdevices
    obtain ⟨-, rawDev, -, hparse⟩ := lookup_discovery hadd hdevices
    exact parseDeviceList_wf hparse
  refine ⟨sel, hselect, fun request hrequest => hsel.requested hrequest, ?_, ?_⟩
  · intro name param hmem
    have hcases : (sel.algo = some name ∧ param = sel.algoParam) ∨ (name, param) ∈ compatible := by
      cases halgo : sel.algo with
      | none => exact .inr (by simpa [halgo] using hmem)
      | some algo =>
        rw [halgo] at hmem
        rcases mem_of_mem_assign hmem with ⟨-, rfl, rfl⟩ | hmem
        · exact .inl ⟨rfl, rfl⟩
        · exact .inr hmem
    rcases hcases with ⟨halgo, rfl⟩ | hmem
    · have hentries := hsel.entries
      rw [halgo] at hentries
      exact ⟨sel.entries, .inl hentries, fun entry hentry => ⟨entry, hentry, rfl⟩,
        fun _ _ => le_rfl, fun hne => absurd halgo hne⟩
    · obtain ⟨candidate, devices, hcandidate, hdevices, hnarrow⟩ := mem_compatible hcompatible hmem
      obtain ⟨entries, hto, hwithin, -, hdev⟩ :=
        narrow_spec hsel hchoice (hwf hdevices) hnarrow
      have hdev := hdev param rfl
      obtain ⟨-, rawDev, hraw, hparse⟩ := lookup_discovery hadd hdevices
      refine ⟨entries, .inr ⟨hdev, fun parsed hparsed => ?_⟩, hwithin.selected, hwithin.budget,
        fun _ => ⟨fun entry hentry => ?_, candidate, devices, hcandidate, hdevices, hto⟩⟩
      · exact parseDeviceList_format hwithin.wf (hdev ▸ hparsed)
      · exact ⟨rawDev, devices, hraw, hparse, hwithin.discovered entry hentry⟩
  · intro name candidate devices hcandidate hdevices hdropped
    obtain ⟨hname, -⟩ := lookup_discovery hadd hdevices
    obtain ⟨narrowed, hnarrow, hkept⟩ := exists_narrow hcompatible hcandidate hdevices hname
    have hnone : narrowed = none := by
      by_contra hsome
      obtain ⟨param, hparam⟩ := hkept (Option.isSome_iff_ne_none.mpr hsome)
      cases halgo : sel.algo with
      | none => exact hdropped param (by simpa [halgo] using hparam)
      | some algo =>
        rw [halgo] at hdropped
        obtain ⟨param', hparam'⟩ := exists_mem_assign hparam
        exact hdropped param' hparam'
    obtain ⟨entries, ⟨resolved, slots, hresolved, hnarrowed, rfl⟩, -, hempty, -⟩ :=
      narrow_spec hsel hchoice (hwf hdevices) hnarrow
    exact ⟨resolved, hresolved, fun entry hentry =>
      hnarrowed.budget_eq_zero (hempty hnone) hentry⟩

/-- Two algorithms, one for the CPU and one for a GPU with two processes. -/
def exampleParams : List (String × String) :=
  [("rx/0", "cpu^4"), ("kawpow", "gpu1*[intensity=4]^2")]

/-- One process on the GPU is requested. -/
def exampleOptions : Options := ⟨none, "cpu".toList, some "gpu1^1".toList, []⟩

theorem selection_never_widens_gpu : ∃ opt₁ opt₂ discovery sel,
    addAlgoParams exampleParams exampleOptions = .ok (opt₁, discovery) ∧
      prepareAlgoParams discovery opt₁ = .ok (opt₂, true) ∧ select opt₁ = .ok sel ∧
      opt₂.algoParams.map Prod.fst = ["kawpow"] ∧
      ∀ name param, (name, param) ∈ opt₂.algoParams → ∃ entries, StandsFor param.dev name entries ∧
        ∀ device, sel.Fixed device →
          processesOn device entries ≤ processesOn device sel.entries := by
  have hrun : ((addAlgoParams exampleParams exampleOptions).toOption.bind fun r =>
      (prepareAlgoParams r.2 r.1).toOption.map fun r' =>
        (r'.1.algoParams.map Prod.fst, r'.2, r.1.devRequest.isSome)) =
      some (["kawpow"], true, true) := by decide +kernel
  cases hadd : addAlgoParams exampleParams exampleOptions with
  | error message => simp [hadd, Except.toOption] at hrun
  | ok r =>
    obtain ⟨opt₁, discovery⟩ := r
    cases hprepare : prepareAlgoParams discovery opt₁ with
    | error message => simp [hadd, hprepare, Except.toOption] at hrun
    | ok r =>
      obtain ⟨opt₂, ready⟩ := r
      simp only [hadd, hprepare, Except.toOption, Option.bind_some, Option.map_some,
        Option.some.injEq, Prod.mk.injEq] at hrun
      obtain ⟨hnames, rfl, hrequest⟩ := hrun
      obtain ⟨sel, hselect, -, hkept, -⟩ := selection_never_widens _ _ _ _ _ _ hadd hprepare
        (.inr hrequest)
      refine ⟨opt₁, opt₂, discovery, sel, rfl, hprepare, hselect, hnames, ?_⟩
      intro name param hmem
      obtain ⟨entries, hstands, -, hbudget, -⟩ := hkept name param hmem
      exact ⟨entries, hstands, hbudget⟩

end MoMiner.Miner
