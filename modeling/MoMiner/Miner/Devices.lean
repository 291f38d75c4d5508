import MoMiner.Js.DecimalText
import MoMiner.Miner.Tuning
import MoMiner.Native.Numerals

/-!
# Device texts

A device text names a CPU or a GPU, its tuning and its number of processes:
`gpu1*[intensity=4;workgroup=64]^2`. A list of devices separates them by commas. This module has the
parser and the printer of `gpu-tuning.js`.
-/

namespace MoMiner.Miner

open MoMiner.Js

/-! ## The grammar -/

/-- `text.split(separator)`, at one character. -/
def split (separator : Char) (text : List Char) : List (List Char) := text.splitOn separator

/-- The number that a text of digits prints. -/
def digitsValue (digits : List Char) : ℕ := decimalValue (String.ofList digits)

/-- `[1-9]\d*` and what follows. -/
def positiveNumber? (text : List Char) : Option (List Char × List Char) :=
  match text with
  | [] => none
  | c :: _ => if c.isDigit ∧ c ≠ '0' then some (text.span Char.isDigit) else none

/-- The parts of a device text that the pattern captures. -/
structure DeviceMatch where
  device : List Char
  main : Option (List Char)
  tuning : Option (List Char)
  processes : Option (List Char)

/-- `(cpu\d*|gpu\d+)`, without regard to case, and what follows. -/
def matchDevice (text : List Char) : Option (List Char × List Char) :=
  let name := (text.take 3).map Char.toLower
  let number := (text.drop 3).span Char.isDigit
  if name = ['c', 'p', 'u'] ∨ (name = ['g', 'p', 'u'] ∧ number.1 ≠ []) then
    some (text.take 3 ++ number.1, number.2)
  else none

/-- `(?:\*([1-9]\d*)|\*\[([^\]]*)\])?`: the main value or the tuning list, and what follows. -/
def matchTuning : List Char → Option (Option (List Char) × Option (List Char) × List Char)
  | '*' :: '[' :: rest =>
    match rest.span (· ≠ ']') with
    | (inner, _ :: after) => some (none, some inner, after)
    | (_, []) => none
  | '*' :: rest => (positiveNumber? rest).map fun (digits, after) => (some digits, none, after)
  | rest => some (none, none, rest)

/-- `(?:\^([1-9]\d*))?$`. -/
def matchProcesses : List Char → Option (Option (List Char))
  | [] => some none
  | '^' :: rest =>
    match positiveNumber? rest with
    | some (digits, []) => some (some digits)
    | _ => none
  | _ => none

/-- `/^(cpu\d*|gpu\d+)(?:\*([1-9]\d*)|\*\[([^\]]*)\])?(?:\^([1-9]\d*))?$/i`. -/
def matchEntry (text : List Char) : Option DeviceMatch := do
  let (device, rest) ← matchDevice text
  let (main, tuning, rest) ← matchTuning rest
  let processes ← matchProcesses rest
  return ⟨device, main, tuning, processes⟩

/-! ## Parsing -/

structure DeviceEntry where
  device : List Char
  tuning : Tuning
  processes : ℕ

def isCpu (device : List Char) : Bool := ['c', 'p', 'u'].isPrefixOf device

def isGpu (device : List Char) : Bool := ['g', 'p', 'u'].isPrefixOf device

/-- Add one `name=value` part to the raw tuning. -/
def addTuningPart (context : String) (raw : List (String × Json)) (part : List Char) :
    Except String (List (String × Json)) :=
  let separator := part.idxOf '='
  if separator = 0 ∨ part.length ≤ separator + 1 then
    .error (context ++ " tuning values must use name=value")
  else
    let key := lowerCase (trim (part.take separator))
    -- `key in raw` also finds the properties that every object inherits.
    if !isLowerName key || (raw.lookup (String.ofList key)).isSome ||
        String.ofList key = "constructor" then
      .error (context ++ " has an invalid or duplicate tuning key: " ++ String.ofList key)
    else
      .ok (raw ++ [(String.ofList key, .str (String.ofList (trim (part.drop (separator + 1)))))])

def parseExpandedTuning (algo : String) (text : Option (List Char)) (context : String) :
    Except String Tuning :=
  match text with
  | none => .ok Tuning.empty
  | some [] => .error (context ++ " tuning list must not be empty")
  | some text => do
    let raw ← (split ';' text).foldlM (addTuningPart context) []
    validateTuning algo (.obj raw) context

/-- The number at the end of a device name. -/
def deviceIndex (device : List Char) : ℕ := digitsValue (device.drop 3)

/-- Set the main value of the short form. -/
def setMain (algo context : String) (device : List Char) (t : Tuning) (main : ℕ) :
    Except String Tuning := do
  let field := if isCpu device then .intensity else primaryTuningField algo
  throwIf (algo ∈ fixedIntensityAlgos ∧ field = .intensity ∧ main ≠ 1)
    (context ++ ".intensity must be 1 for " ++ algo)
  throwIf ((t.int? field).any fun v => v ≠ 0 && v ≠ main)
    (context ++ " specifies conflicting " ++ field.name ++ " values")
  let v ← validateInteger field (.num (.finite main)) (context ++ "." ++ field.name)
  return t.set field (.int v)

/-- The tuning with the main value, if there is one. -/
def addMain (algo context : String) (device : List Char) (t : Tuning) :
    Option (List Char) → Except String Tuning
  | none => .ok t
  | some digits => setMain algo context device t (digitsValue digits)

def parseMatch (algo context : String) (found : DeviceMatch) : Except String DeviceEntry := do
  let device := found.device.map Char.toLower
  throwIf (1023 < deviceIndex device) (String.ofList device ++ " index must be at most 1023")
  let listed ← parseExpandedTuning algo found.tuning context
  let tuning ← addMain algo context device listed found.main
  let processes := found.processes.elim 1 digitsValue
  throwIf (1024 < processes) (context ++ " process count must be at most 1024")
  return ⟨device, tuning, processes⟩

def parseDeviceEntry (entry : List Char) (algo : String) : Except String DeviceEntry :=
  match matchEntry (trim entry) with
  | none => .error ("invalid device entry: " ++ String.ofList entry)
  | some found => parseMatch algo (String.ofList (trim entry)) found

def parseDeviceList (dev : List Char) (algo : String) : Except String (List DeviceEntry) :=
  if trim dev = [] then .error "device list must be a string"
  else (split ',' dev).mapM (parseDeviceEntry · algo)

/-! ## Printing -/

def TuningValue.text : TuningValue → List Char
  | .int n => Nat.toDigits 10 n
  | .choice c => c.text.toList

/-- The printed tuning list of a device; the intensity of a CPU is printed before it. -/
def tuningFields (entry : DeviceEntry) : List (List Char) :=
  (tuningFieldOrder.filter fun f => !(isCpu entry.device && f = .intensity)).filterMap fun f =>
    (entry.tuning f).map fun v => f.name.toList ++ '=' :: v.text

/-- The printed number of processes. -/
def processesText (processes : ℕ) : List Char :=
  if 1 < processes then '^' :: Nat.toDigits 10 processes else []

/-- The printed intensity of a CPU. -/
def cpuIntensityText (entry : DeviceEntry) : List Char :=
  if isCpu entry.device then
    ((entry.tuning.int? .intensity).filter (· ≠ 0)).elim [] fun n => '*' :: Nat.toDigits 10 n
  else []

/-- The printed tuning list. -/
def tuningText (entry : DeviceEntry) : List Char :=
  let fields := tuningFields entry
  if fields = [] then [] else ['*', '['] ++ [';'].intercalate fields ++ [']']

def formatDeviceEntry (entry : DeviceEntry) : List Char :=
  entry.device ++ cpuIntensityText entry ++ tuningText entry ++ processesText entry.processes

def formatDeviceList (entries : List DeviceEntry) : List Char :=
  [','].intercalate (entries.map formatDeviceEntry)

/-! ## Numbers in a text -/

theorem digitsValue_toDigits (n : ℕ) : digitsValue (Nat.toDigits 10 n) = n :=
  decimalValue_toDigits n

/-- A text of digits is cut off where the digits end. -/
theorem span_isDigit {digits rest : List Char} (hdigits : ∀ c ∈ digits, c.isDigit)
    (hrest : ∀ c ∈ rest.head?, c.isDigit = false) :
    (digits ++ rest).span Char.isDigit = (digits, rest) := by
  have hempty : rest.takeWhile Char.isDigit = [] ∧ rest.dropWhile Char.isDigit = rest := by
    cases rest with
    | nil => exact ⟨rfl, rfl⟩
    | cons c cs => simp [hrest c rfl]
  rw [List.span_eq_takeWhile_dropWhile, List.takeWhile_append_of_pos hdigits,
    List.dropWhile_append_of_pos hdigits, hempty.1, hempty.2, List.append_nil]

/-- A printed positive number is matched up to its end. -/
theorem positiveNumber?_toDigits {n : ℕ} {rest : List Char} (hn : 0 < n)
    (hrest : ∀ c ∈ rest.head?, c.isDigit = false) :
    positiveNumber? (Nat.toDigits 10 n ++ rest) = some (Nat.toDigits 10 n, rest) := by
  obtain ⟨c, cs, hcs⟩ := List.exists_cons_of_ne_nil (Nat.toDigits_ne_nil (n := n) (b := 10))
  have hdigit : c.isDigit := isDigit_of_mem_toDigits (n := n) (by simp [hcs])
  have hzero : c ≠ '0' := head_toDigits_ne_zero hn c (by simp [hcs])
  have hspan := span_isDigit (fun c hc => isDigit_of_mem_toDigits (n := n) hc) hrest
  rw [hcs, List.cons_append] at hspan ⊢
  rw [positiveNumber?, if_pos ⟨hdigit, hzero⟩, hspan]

/-! ## The grammar on printed parts -/

/-- A device name in lower case: `cpu`, `cpu<N>` or `gpu<N>`. -/
inductive DeviceName : List Char → Prop
  | cpu {digits : List Char} (h : ∀ c ∈ digits, c.isDigit) : DeviceName (['c', 'p', 'u'] ++ digits)
  | gpu {digits : List Char} (h : ∀ c ∈ digits, c.isDigit) (hne : digits ≠ []) :
      DeviceName (['g', 'p', 'u'] ++ digits)

theorem matchDevice_append {device rest : List Char} (hd : DeviceName device)
    (hrest : ∀ c ∈ rest.head?, c.isDigit = false) :
    matchDevice (device ++ rest) = some (device, rest) := by
  cases hd with
  | cpu h =>
    have hspan := span_isDigit h hrest
    rw [List.span_eq_takeWhile_dropWhile, Prod.mk.injEq] at hspan
    simp [matchDevice, hspan]
  | gpu h hne =>
    have hspan := span_isDigit h hrest
    rw [List.span_eq_takeWhile_dropWhile, Prod.mk.injEq] at hspan
    simp [matchDevice, hspan, hne]

theorem DeviceName.toLower {device : List Char} (hd : DeviceName device) :
    device.map Char.toLower = device := by
  cases hd with
  | cpu h => simpa using List.map_congr_left (g := id) fun c hc => toLower_of_isDigit (h c hc)
  | gpu h _ => simpa using List.map_congr_left (g := id) fun c hc => toLower_of_isDigit (h c hc)

theorem matchTuning_none {rest : List Char} (h : ∀ c ∈ rest.head?, c ≠ '*') :
    matchTuning rest = some (none, none, rest) := by
  cases rest with
  | nil => rfl
  | cons c cs =>
    have hc : c ≠ '*' := h c rfl
    unfold matchTuning
    split
    · next heq => exact absurd (List.cons.inj heq).1 hc
    · next heq => exact absurd (List.cons.inj heq).1 hc
    · rfl

/-- The short form: one number. -/
theorem matchTuning_main {n : ℕ} {rest : List Char} (hn : 0 < n)
    (hrest : ∀ c ∈ rest.head?, c.isDigit = false) :
    matchTuning ('*' :: (Nat.toDigits 10 n ++ rest)) =
      some (some (Nat.toDigits 10 n), none, rest) := by
  have hmatch := positiveNumber?_toDigits hn hrest
  have hhead : ∀ c ∈ (Nat.toDigits 10 n ++ rest).head?, c ≠ '[' := by
    rw [List.head?_append_of_ne_nil _ Nat.toDigits_ne_nil]
    intro c hc hbracket
    have := isDigit_of_mem_toDigits (List.mem_of_mem_head? hc)
    rw [hbracket] at this
    cases this
  unfold matchTuning
  split
  · next heq =>
    rw [(List.cons.inj heq).2] at hhead
    exact absurd rfl (hhead '[' rfl)
  · next heq =>
    rw [← (List.cons.inj heq).2, hmatch]
    rfl
  · next h => exact absurd rfl (h _)

/-- The long form: everything up to the first bracket. -/
theorem matchTuning_list {inner rest : List Char} (h : ']' ∉ inner) :
    matchTuning ('*' :: '[' :: (inner ++ ']' :: rest)) = some (none, some inner, rest) := by
  have hspan : (inner ++ ']' :: rest).span (· ≠ ']') = (inner, ']' :: rest) := by
    have hall : ∀ c ∈ inner, (fun c : Char => decide (c ≠ ']')) c = true := by
      intro c hc
      have hne : c ≠ ']' := fun heq => h (heq ▸ hc)
      simpa using hne
    rw [List.span_eq_takeWhile_dropWhile, List.takeWhile_append_of_pos hall,
      List.dropWhile_append_of_pos hall]
    simp
  rw [matchTuning, hspan]

theorem matchProcesses_text {processes : ℕ} (h : 0 < processes) :
    ∃ digits, matchProcesses (processesText processes) = some digits ∧
      digits.elim 1 digitsValue = processes := by
  rw [processesText]
  split_ifs with hmany
  · have hdigits : positiveNumber? (Nat.toDigits 10 processes ++ []) =
        some (Nat.toDigits 10 processes, []) := positiveNumber?_toDigits h (by simp)
    rw [List.append_nil] at hdigits
    exact ⟨some (Nat.toDigits 10 processes), by simp [matchProcesses, hdigits],
      digitsValue_toDigits processes⟩
  · exact ⟨none, rfl, by rw [Option.elim_none]; omega⟩

theorem head_processesText (processes : ℕ) :
    ∀ c ∈ (processesText processes).head?, c = '^' := by
  rw [processesText]
  split_ifs <;> simp

/-- A text that ends in a letter or digit and begins with one is not trimmed. -/
theorem isSpace_of_isDigit {c : Char} (h : c.isDigit) : isSpace c = false := by
  simp only [Char.isDigit, Bool.and_eq_true, decide_eq_true_eq, ge_iff_le,
    UInt32.le_iff_toNat_le] at h
  have hlow : '0'.val.toNat = 48 := by decide
  have hhigh : '9'.val.toNat = 57 := by decide
  have hc : c.val.toNat = c.toNat := rfl
  simp only [isSpace, List.contains_eq_mem, List.mem_cons, List.not_mem_nil, or_false,
    Bool.or_eq_false_iff, decide_eq_false_iff_not, Bool.and_eq_false_iff]
  omega

end MoMiner.Miner
