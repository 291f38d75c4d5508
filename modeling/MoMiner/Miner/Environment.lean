import Mathlib.Data.Char
import Mathlib.Data.List.Lex
import Mathlib.Data.List.ReduceOption
import MoMiner.Miner.Printed

/-!
# Discovered devices and the user's selection

`environment.js` merges what the native core discovers with the saved parameters of each algorithm
(`addAlgoParams`), and then narrows the parameters to the devices that the user selected
(`prepareAlgoParams`). `jobs.js` resolves a configured device list against a heuristic one.
-/

namespace MoMiner.Miner

open MoMiner.Js

/-! ## Options -/

structure AlgoParam where
  dev : List Char
  perf : Option Number
  backend : String
  tuning : Tuning

/-- The options that device selection reads. -/
structure Options where
  jobAlgo : Option String
  jobDev : List Char
  devRequest : Option (List Char)
  algoParams : List (String × AlgoParam)

/-- `object[key] = value`; `__proto__` is not a property of its own. -/
def assign {α : Type} (fields : List (String × α)) (key : String) (value : α) :
    List (String × α) :=
  if key = "__proto__" then fields
  else if (fields.lookup key).isSome then
    fields.map fun f => if f.1 = key then (key, value) else f
  else fields ++ [(key, value)]

def algoAliases : List (String × String) :=
  [("cuckaroo", "c29"), ("cuckaroo29", "c29"), ("c29xtm", "c29"),
   ("cuckaroo30", "c30"), ("c30ctx", "c30"),
   ("kawpow1", "kawpow"), ("kawpow4", "kawpow"),
   ("xel/2", "xelishashv3"), ("xel/3", "xelishashv3"), ("xel/v3", "xelishashv3")]

/-- The name of an algorithm; a missing or empty one is no algorithm. -/
def normalizeAlgoName (algo : Option String) : Option String :=
  (algo.filter (· ≠ "")).map fun algo =>
    let name := toLowerCase algo
    (algoAliases.lookup name).getD name

def validBackends : List String :=
  ["auto", "sycl", "sycl-opencl", "sycl-l0", "sycl-native", "native"]

def validateBackend (value : String) : Except String String :=
  if value = "" then .ok "auto"
  else
    let backend := toLowerCase value
    if backend ∈ validBackends then .ok backend
    else .error ("Invalid GPU backend: " ++ value ++ "; expected " ++
      ", ".intercalate validBackends)

/-! ## Resolving a device list -/

def mergeDeviceTuning (algo : String) (heuristic named entry : Tuning) : Tuning :=
  let tuning := (heuristic.merge named).merge entry
  let requestedBeamLayout := (entry .layout).or (named .layout)
  if algo = "beamhash3" ∧ requestedBeamLayout.any (· ≠ .choice .auto) ∧
      entry .workgroup = none ∧ named .workgroup = none then
    Function.update tuning .workgroup none
  else tuning

/-- The tuning that a heuristic list gives to a configured device. -/
def heuristicTuning (algo : String) (candidates : List DeviceEntry) : Tuning :=
  match candidates with
  | [] => Tuning.empty
  | [only] => only.tuning
  | first :: _ =>
    if primaryTuningField algo ≠ .intensity then first.tuning
    else Tuning.empty.set .intensity
      (.int (candidates.map fun c => (c.tuning.int? .intensity).getD 0).sum)

/-- The entries that a configured one resolves to. -/
def resolveEntry (algo : String) (configured heuristic : List DeviceEntry) (named : Tuning)
    (entry : DeviceEntry) : List DeviceEntry :=
  if !isGpu entry.device then [entry]
  else
    let candidates := heuristic.filter (·.device = entry.device)
    let explicitShape := (entry.tuning (primaryTuningField algo)).isSome
    if !explicitShape ∧ entry.processes = 1 ∧
        configured.countP (·.device = entry.device) = 1 ∧ 1 < candidates.length then
      candidates.map fun candidate =>
        { entry with tuning := mergeDeviceTuning algo candidate.tuning named entry.tuning }
    else
      [{ entry with
        tuning := mergeDeviceTuning algo (heuristicTuning algo candidates) named entry.tuning }]

def resolvedDeviceList (algo : String) (configuredDev heuristicDev : List Char) (named : Tuning) :
    Except String (List Char) := do
  let configured ← parseDeviceList configuredDev algo
  let heuristic ← parseDeviceList heuristicDev algo
  return formatDeviceList (configured.flatMap (resolveEntry algo configured heuristic named))

/-! ## Discovery -/

def backendMark : String := "@backend:"

/-- The algorithm of a backend hint. -/
def hintedAlgo? (key : String) : Option String :=
  if backendMark.toList.isPrefixOf key.toList then
    some (String.ofList (key.toList.drop backendMark.length))
  else none

/-- A letter or digit, and then also `_`, `.`, `/` or `-`. -/
def isAlgoKey (algo : String) : Bool :=
  match algo.toList with
  | [] => false
  | c :: cs => c.isAlphanum && cs.all fun d => d.isAlphanum || d ∈ ['_', '.', '/', '-']

def reservedAlgoParamKeys : List String := ["__proto__", "constructor", "prototype"]

def validateAlgoParamEntry (entry : String × String) : Except String Unit := do
  let algo := (hintedAlgo? entry.1).getD entry.1
  throwIf (!isAlgoKey algo ∨ algo ∈ reservedAlgoParamKeys ∨
      (entry.1.toList.head? = some '@' ∧ hintedAlgo? entry.1 = none))
    ("Invalid algorithm parameter key: " ++ entry.1)
  throwIf (entry.2 = "") ("Invalid algorithm parameters for " ++ entry.1)

/-- What was discovered: the devices of each algorithm. -/
abbrev Discovery := List (String × List DeviceEntry)

/-- Take over the backend of a hint where none is configured. -/
def addBackendHint (params : List (String × AlgoParam)) (entry : String × String) :
    Except String (List (String × AlgoParam)) :=
  match hintedAlgo? entry.1 with
  | none => .ok params
  | some algo =>
    match params.lookup algo with
    | none => .ok params
    | some configured =>
      if configured.backend = "" ∨ configured.backend = "auto" then do
        return assign params algo { configured with backend := ← validateBackend entry.2 }
      else .ok params

/-- Merge the discovered devices of an algorithm. -/
def addDiscovered (hints : List (String × String)) (st : List (String × AlgoParam) × Discovery)
    (entry : String × String) : Except String (List (String × AlgoParam) × Discovery) :=
  let (algo, rawDev) := entry
  if algo.toList.head? = some '@' then .ok st
  else do
    let discovered ← parseDeviceList rawDev.toList algo
    match st.1.lookup algo with
    | none =>
      let backend ← validateBackend ((hints.lookup (backendMark ++ algo)).getD "auto")
      let param := ⟨formatDeviceList discovered, none, backend, Tuning.empty⟩
      return (assign st.1 algo param, assign st.2 algo discovered)
    | some configured =>
      let dev ← resolvedDeviceList algo configured.dev rawDev.toList configured.tuning
      return (assign st.1 algo { configured with dev }, assign st.2 algo discovered)

def addAlgoParams (params : List (String × String)) (opt : Options) :
    Except String (Options × Discovery) := do
  params.forM validateAlgoParamEntry
  let hinted ← params.foldlM addBackendHint opt.algoParams
  let (algoParams, discovery) ← params.foldlM (addDiscovered params) (hinted, [])
  return ({ opt with algoParams }, discovery)

/-! ## The selection -/

/-- The selected processes of each device, and the devices whose budget is explicit. -/
structure Budget where
  selectedProcesses : List Char → Option ℕ
  boundedDevices : List (List Char)

/-- Count a selected entry, given the part of the request at its place. -/
def Budget.add (b : Budget) (entry : DeviceEntry) (part : Option (List Char)) : Budget where
  boundedDevices :=
    if part.any ('^' ∈ ·) ∨ (b.selectedProcesses entry.device).isSome then
      entry.device :: b.boundedDevices
    else b.boundedDevices
  selectedProcesses := Function.update b.selectedProcesses entry.device
    (some ((b.selectedProcesses entry.device).getD 0 + entry.processes))

theorem Budget.add_boundedDevices (b : Budget) (entry : DeviceEntry) (part : Option (List Char)) :
    (b.add entry part).boundedDevices =
      if part.any ('^' ∈ ·) ∨ (b.selectedProcesses entry.device).isSome then
        entry.device :: b.boundedDevices
      else b.boundedDevices := rfl

theorem Budget.add_selectedProcesses (b : Budget) (entry : DeviceEntry)
    (part : Option (List Char)) :
    (b.add entry part).selectedProcesses = Function.update b.selectedProcesses entry.device
      (some ((b.selectedProcesses entry.device).getD 0 + entry.processes)) := rfl

/-- The budget of the selected entries; the parts of the request are read at the same places. -/
def countSelected (b : Budget) : List DeviceEntry → List (List Char) → Budget
  | [], _ => b
  | entry :: entries, parts => countSelected (b.add entry parts.head?) entries parts.tail

/-- What `prepareAlgoParams` computes from the user's choice before it looks at the algorithms. -/
structure Selection where
  algo : Option String
  algoParam : AlgoParam
  entries : List DeviceEntry
  parts : List (List Char)
  budget : Budget

/-- The parameters of the chosen algorithm. An explicit device overrides discovery. -/
def chosenParam (opt : Options) (algo : Option String) : Except String AlgoParam :=
  let detected := algo.bind fun algo => opt.algoParams.lookup algo
  let param := detected.getD ⟨opt.jobDev, none, "auto", Tuning.empty⟩
  match algo, opt.devRequest with
  | some algo, some requested => do
    let heuristic := (detected.map AlgoParam.dev).getD requested
    return { param with dev := ← resolvedDeviceList algo requested heuristic param.tuning }
  | _, _ => .ok param

def select (opt : Options) : Except String Selection := do
  let algo := normalizeAlgoName opt.jobAlgo
  let algoParam ← chosenParam opt algo
  let text := if algo.isSome then algoParam.dev else opt.devRequest.getD []
  let entries ← parseDeviceList text (algo.getD "")
  let parts := (opt.devRequest.map (split ',')).getD []
  return ⟨algo, algoParam, entries, parts, countSelected ⟨fun _ => none, []⟩ entries parts⟩

/-! ## Automatic mode -/

/-- The entries of a requested part that names a CPU. -/
def cpuEntries (bounded : Bool) (requested : DeviceEntry) (candidates : List DeviceEntry) :
    List DeviceEntry :=
  candidates.map fun candidate =>
    { requested with
      tuning := candidate.tuning.merge requested.tuning
      processes := if bounded then requested.processes else candidate.processes }

/-- The entries of a requested part that names a GPU, for one known geometry. -/
def gpuEntries (algo : String) (named : Tuning) (bounded : Bool) (part : List Char)
    (candidate : DeviceEntry) : Except String (List DeviceEntry) := do
  let resolved ← resolvedDeviceList algo part (formatDeviceEntry candidate) named
  let entries ← parseDeviceList resolved algo
  return entries.map fun entry =>
    { entry with processes := if bounded then entry.processes else candidate.processes }

/-- The entries of one requested part. -/
def partEntries (b : Budget) (algo : String) (named : Tuning) (heuristic discovery : List DeviceEntry)
    (selected : DeviceEntry) (part : List Char) : Except String (List DeviceEntry) :=
  if discovery.all (·.device ≠ selected.device) then .ok []
  else
    match parseDeviceEntry part algo with
    | .error reason =>
      .error ("Selected device tuning is not supported for " ++ algo ++ ": " ++ reason)
    | .ok requested =>
      let candidates := heuristic.filter (·.device = selected.device)
      let bounded := decide (selected.device ∈ b.boundedDevices)
      if isCpu requested.device then .ok (cpuEntries bounded requested candidates)
      else do
        let used := if bounded then candidates.take 1 else candidates
        let entries ← used.mapM (gpuEntries algo named bounded part)
        return entries.flatten

/-- The entries of an algorithm for the requested parts. -/
def selectAutoEntries (sel : Selection) (algo : String) (candidate : AlgoParam)
    (discovery : List DeviceEntry) : Except String (List DeviceEntry) := do
  let configured ← parseDeviceList candidate.dev algo
  let heuristic := configured ++ discovery.filter fun entry =>
    configured.all (·.device ≠ entry.device)
  let entries ← (sel.entries.zip sel.parts).mapM fun (selected, part) =>
    partEntries sel.budget algo candidate.tuning heuristic discovery selected part
  return entries.flatten

/-! ## Narrowing -/

/-- The entries of an algorithm before they are narrowed to the budget. -/
def resolvedEntries (sel : Selection) (algo : String) (candidate : AlgoParam)
    (discovery : List DeviceEntry) : Except String (List DeviceEntry) :=
  if sel.algo.isSome then parseDeviceList candidate.dev algo
  else selectAutoEntries sel algo candidate discovery

/-- The processes that a list of entries has on a device. -/
def processesOn (device : List Char) (entries : List DeviceEntry) : ℕ :=
  ((entries.filter (·.device = device)).map DeviceEntry.processes).sum

/-- The budget of each device for an algorithm. In automatic mode a device without an explicit
budget keeps the processes that it was resolved to. -/
def remainingProcesses (sel : Selection) (discovery resolved : List DeviceEntry)
    (device : List Char) : ℕ :=
  if sel.algo.isNone ∧ discovery.any (·.device = device) ∧ device ∉ sel.budget.boundedDevices then
    processesOn device resolved
  else (sel.budget.selectedProcesses device).getD 0

/-- The entries whose device was discovered. -/
def discoveredEntries (discovery resolved : List DeviceEntry) : List DeviceEntry :=
  resolved.filter fun entry => discovery.any (·.device = entry.device)

/-- Give each entry what is left of its device's budget; an entry without processes is dropped. -/
def takeProcesses (remaining : List Char → ℕ) : List DeviceEntry → List (Option DeviceEntry)
  | [] => []
  | entry :: entries =>
    let processes := min entry.processes (remaining entry.device)
    let rest := takeProcesses
      (Function.update remaining entry.device (remaining entry.device - processes)) entries
    (if processes = 0 then none else some { entry with processes }) :: rest

/-- The printed entries, in the order of the texts. -/
def sortedTexts (entries : List DeviceEntry) : List Char :=
  [','].intercalate ((entries.map formatDeviceEntry).mergeSort fun a b => decide (a ≤ b))

/-- `perf !== null && perf > 0`. -/
def isMeasured (perf : Option Number) : Bool :=
  perf.any fun
    | .finite q => 0 < q
    | .infinite negative => !negative

/-- The narrowed parameters of an algorithm, unless nothing is left of them. -/
def narrow (sel : Selection) (algo : String) (candidate : AlgoParam)
    (discovery : List DeviceEntry) : Except String (Option AlgoParam) := do
  let resolved ← resolvedEntries sel algo candidate discovery
  let entries := (takeProcesses (remainingProcesses sel discovery resolved)
    (discoveredEntries discovery resolved)).reduceOption
  if entries.isEmpty then return none
  else
    let previous ← parseDeviceList candidate.dev algo
    let changed := sel.algo.isNone ∧ isMeasured candidate.perf ∧
      sortedTexts previous ≠ sortedTexts entries
    return some { candidate with
      dev := formatDeviceList entries
      perf := if changed then none else candidate.perf }

/-- Keep the algorithms that were discovered and have something left. -/
def addCompatible (sel : Selection) (discovery : Discovery) (compatible : List (String × AlgoParam))
    (entry : String × AlgoParam) : Except String (List (String × AlgoParam)) :=
  match discovery.lookup entry.1 with
  | none => .ok compatible
  | some devices => do
    match ← narrow sel entry.1 entry.2 devices with
    | none => return compatible
    | some param => return assign compatible entry.1 param

/-- Narrow the algorithms to the selected devices, where the user selected any; also returns whether
there is something to mine. -/
def prepareAlgoParams (discovery : Discovery) (opt : Options) : Except String (Options × Bool) :=
  if normalizeAlgoName opt.jobAlgo = none ∧ opt.devRequest = none then .ok (opt, true)
  else do
    let sel ← select opt
    let compatible ← opt.algoParams.foldlM (addCompatible sel discovery) []
    let algoParams := sel.algo.elim compatible fun algo => assign compatible algo sel.algoParam
    return ({ opt with jobAlgo := sel.algo.or opt.jobAlgo, algoParams }, !algoParams.isEmpty)

end MoMiner.Miner
