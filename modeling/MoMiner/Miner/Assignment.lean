import MoMiner.Miner.RoundTrip

/-!
# Devices of the workers

`recreate_threads` starts a worker for each process of each device in a list. It asks for the device
of the worker with `get_thread_dev`, which cuts the number of processes off the text of the entry,
and the worker parses what is left. The controller parses without an algorithm, which is never
stricter than the algorithm of the job.

The cut counts characters from the end of the entry, white space included. Where an entry with
several processes ends in white space, the worker gets a text that still has a part of the number.

Main result: `assignment_iff`.
-/

namespace MoMiner.Miner

open MoMiner.Js

/-! ## The functions of `helper.js` -/

/-- The device text without its number of processes, and that number. -/
def parseThreadDev (devPart : List Char) : Except String (List Char × ℕ) := do
  let parsed ← parseDeviceEntry devPart ""
  return (devPart.take (devPart.length - (processesText parsed.processes).length), parsed.processes)

/-- The loop of `get_thread_dev`, after `threadCount` threads. -/
def findThreadDev (threadId : ℕ) : List (List Char) → ℕ → Except String (Option (List Char))
  | [], _ => .ok none
  | devPart :: rest, threadCount => do
    let (dev, threads) ← parseThreadDev devPart
    if threadId < threadCount + threads then return some dev
    else findThreadDev threadId rest (threadCount + threads)

def getThreadDev (threadId : ℕ) (devs : List Char) : Except String (Option (List Char)) :=
  findThreadDev threadId (split ',' devs) 0

def getDevThreads (dev : List Char) : Except String ℕ :=
  (split ',' dev).foldlM (fun threadCount devPart => do
    return threadCount + (← parseThreadDev devPart).2) 0

/-- The devices for which `recreate_threads` starts workers, in order. -/
def workerDevs (dev : List Char) : Except String (List (List Char)) := do
  let threadCount ← getDevThreads dev
  (List.range threadCount).mapM fun i => do
    match (← getThreadDev i dev).filter (· ≠ []) with
    | some selectedDev => return selectedDev
    | none => .error ("No device configured for worker " ++ toString i)

/-! ## Parsing without an algorithm -/

theorem mem_allowedFields_empty (f : Field) : f ∈ allowedFields "" := by
  cases f <;> decide

theorem Tuning.Checked.empty {algo : String} {t : Tuning} (h : t.Checked algo) : t.Checked "" where
  allowed := fun f _ _ => mem_allowedFields_empty f
  takes := h.takes
  fits := fun f v hv =>
    { fixed := fun hmem => absurd hmem (by decide)
      listed := fun choice hmem hf =>
        (h.fits f v hv).listed choice (List.mem_append_right _ hmem) hf
      beam := fun h => absurd h (by decide)
      pearl := fun h => absurd h (by decide) }
  shaped := fun h => absurd h (by decide)

/-- Only the texts of errors depend on the context. -/
theorem validateInteger_label {f : Field} {value : Json} {label label' : String} {v : ℕ}
    (h : validateInteger f value label = .ok v) : validateInteger f value label' = .ok v :=
  validateInteger_eq_ok.mpr (validateInteger_eq_ok.mp h)

theorem validateValue_label {f : Field} {value : Json} {label label' : String} {v : TuningValue}
    (h : validateValue f value label = .ok v) : validateValue f value label' = .ok v := by
  unfold validateValue at h ⊢
  split at h
  · obtain ⟨n, hn, h⟩ := Except.bind_eq_ok.mp h
    cases h
    exact Except.bind_eq_ok.mpr ⟨n, validateInteger_label hn, rfl⟩
  · split at h
    · cases h
    · cases h
      rfl

/-- A stricter algorithm accepts the same parts of an object. -/
theorem validateField_mono {algo algo' context context' : String} {t t' : Tuning}
    {entry : String × Json} (hallowed : ∀ f ∈ allowedFields algo, f ∈ allowedFields algo')
    (h : validateField algo context t entry = .ok t') :
    validateField algo' context' t entry = .ok t' := by
  unfold validateField at h ⊢
  split at h
  · cases h
  · next f hf =>
    obtain ⟨hname, hmem⟩ := Option.filter_eq_some_iff.mp hf
    have hf' : (Field.ofName? entry.1).filter (· ∈ allowedFields algo') = some f :=
      Option.filter_eq_some_iff.mpr ⟨hname, by simpa using hallowed f (by simpa using hmem)⟩
    obtain ⟨v, hv, h⟩ := Except.bind_eq_ok.mp h
    simp only [hf', Except.bind_eq_ok]
    exact ⟨v, validateValue_label hv, h⟩

theorem addTuningPart_context {context context' : String} {raw raw' : List (String × Json)}
    {part : List Char} (h : addTuningPart context raw part = .ok raw') :
    addTuningPart context' raw part = .ok raw' := by
  simp only [addTuningPart] at h ⊢
  split_ifs at h ⊢ with hshape hkey
  exact h

/-- A tuning list is also accepted by an algorithm that accepts its tuning. -/
theorem parseExpandedTuning_mono {algo algo' context context' : String} {text : Option (List Char)}
    {t : Tuning} (hallowed : ∀ f ∈ allowedFields algo, f ∈ allowedFields algo')
    (hchecked : t.Checked algo → t.Checked algo')
    (h : parseExpandedTuning algo text context = .ok t) :
    parseExpandedTuning algo' text context' = .ok t := by
  unfold parseExpandedTuning at h ⊢
  split at h
  · exact h
  · cases h
  · next text _ =>
    obtain ⟨raw, hraw, hvalid⟩ := Except.bind_eq_ok.mp h
    have hraw' := foldlM_mono (g := addTuningPart context') hraw fun _ _ _ _ =>
      addTuningPart_context
    have hchecked' := hchecked (validateTuning_checked hvalid)
    obtain ⟨read, hread, hvalid⟩ := Except.bind_eq_ok.mp hvalid
    obtain ⟨u, -, hok⟩ := Except.bind_eq_ok.mp hvalid
    cases hok
    refine Except.bind_eq_ok.mpr ⟨raw, hraw', Except.bind_eq_ok.mpr ⟨t, ?_, ?_⟩⟩
    · exact foldlM_mono hread fun _ _ _ _ => validateField_mono hallowed
    · exact Except.bind_eq_ok.mpr
        ⟨(), checkTuning_eq_ok.mpr ⟨hchecked'.fits, hchecked'.shaped⟩, rfl⟩

theorem addMain_context {algo context context' : String} {device : List Char} {t t' : Tuning}
    {main : Option (List Char)} (h : addMain algo context device t main = .ok t') :
    addMain algo context' device t main = .ok t' := by
  cases main with
  | none => exact h
  | some digits =>
    simp only [addMain, setMain, Except.bind_eq_ok, throwIf_eq_ok] at h ⊢
    obtain ⟨_, hfixed, _, hconflict, v, hv, h⟩ := h
    exact ⟨(), hfixed, (), hconflict, v, validateInteger_label hv, h⟩

theorem parseMatch_context {algo context context' : String} {found : DeviceMatch}
    {entry : DeviceEntry} (h : parseMatch algo context found = .ok entry) :
    parseMatch algo context' found = .ok entry := by
  obtain ⟨hdevice, hprocesses, listed, hlisted, htuning⟩ := parseMatch_eq_ok.mp h
  exact parseMatch_eq_ok.mpr ⟨hdevice, hprocesses, listed,
    parseExpandedTuning_mono (fun _ h => h) id hlisted, addMain_context htuning⟩

theorem mainValue_empty {algo : String} {device : List Char} {v : ℕ}
    (h : MainValue algo (mainField algo device) v) : MainValue "" (mainField "" device) v := by
  have hfield : mainField "" device = .intensity := by
    rw [mainField]
    split_ifs <;> rfl
  have hminimum : (mainField algo device).minimum = 1 := by
    rw [mainField]
    split_ifs
    · rfl
    · rcases primaryTuningField_cases algo with ⟨-, h⟩ | ⟨-, h⟩ | ⟨-, h⟩ | ⟨-, h⟩ | ⟨-, h⟩ <;>
        rw [h] <;> rfl
  have hpos : 1 ≤ v := hminimum ▸ h.takes.2.1
  rw [hfield]
  exact ⟨⟨rfl, hpos, h.takes.2.2.1, by simp⟩, fun hmem => absurd hmem (by decide)⟩

/-- A text that an algorithm accepts is accepted without one. -/
theorem parseDeviceEntry_empty {text : List Char} {algo : String} {entry : DeviceEntry}
    (h : parseDeviceEntry text algo = .ok entry) :
    ∃ entry', parseDeviceEntry text "" = .ok entry' := by
  unfold parseDeviceEntry at h ⊢
  split at h
  · cases h
  · next found hfound =>
    obtain ⟨⟨hdevice, hindex⟩, ⟨hprocesses, hle⟩, listed, hlisted, htuning⟩ := parseMatch_eq_ok.mp h
    have hlisted' := @parseExpandedTuning_mono _ _ _ (String.ofList (trim text)) _ _
      (fun f _ => mem_allowedFields_empty f) Tuning.Checked.empty hlisted
    obtain ⟨part, -, hpart, -, -⟩ := matchEntry_cut hfound
    obtain ⟨device, main, list, processes⟩ := found
    simp only at hpart hlisted htuning hdevice hprocesses
    cases main with
    | none =>
      exact ⟨⟨entry.device, listed, entry.processes⟩, parseMatch_eq_ok.mpr
        ⟨⟨hdevice, hindex⟩, ⟨hprocesses, hle⟩, listed, hlisted', rfl⟩⟩
    | some digits =>
      cases hpart
      rw [← Except.ok.inj hlisted] at htuning hlisted'
      obtain ⟨hvalue, -⟩ := setMain_eq_ok.mp htuning
      exact ⟨⟨entry.device, Tuning.single (mainField "" entry.device) (digitsValue digits),
        entry.processes⟩, parseMatch_eq_ok.mpr
        ⟨⟨hdevice, hindex⟩, ⟨hprocesses, hle⟩, Tuning.empty, hlisted',
          setMain_eq_ok.mpr ⟨mainValue_empty hvalue, rfl⟩⟩⟩

theorem parseThreadDev_eq {part : List Char} {algo : String} {entry : DeviceEntry}
    (h : parseDeviceEntry part algo = .ok entry) :
    parseThreadDev part = .ok
      (part.take (part.length - (processesText entry.processes).length), entry.processes) := by
  obtain ⟨entry', h'⟩ := parseDeviceEntry_empty h
  have hprocesses : entry.processes = entry'.processes :=
    congrArg Prod.snd (parseDeviceEntry_algo h h')
  rw [parseThreadDev, h', hprocesses]
  rfl

/-! ## Cutting off the number of processes -/

/-- Digits that do not begin with a zero are what prints their number. -/
theorem toDigits_digitsValue {digits : List Char} (h : PositiveDigits digits) :
    0 < digitsValue digits ∧ Nat.toDigits 10 (digitsValue digits) = digits :=
  toDigits_decimalValue h.ne_nil h.isDigit h.head

/-- The number of white space characters at the end of a text. -/
def trailing (text : List Char) : ℕ := (text.reverse.takeWhile isSpace).length

/-- A prefix of `^N` is no number of processes, or the number one, in two cases. -/
theorem matchProcesses_take {digits : List Char} (h : PositiveDigits digits)
    (hone : digitsValue digits ≠ 1) (k : ℕ) :
    (∃ processes, matchProcesses (('^' :: digits).take k) = some processes ∧
      processes.elim 1 digitsValue = 1) ↔ k = 0 ∨ (k = 2 ∧ digits.head? = some '1') := by
  match k with
  | 0 => exact iff_of_true ⟨none, rfl, rfl⟩ (.inl rfl)
  | 1 => exact iff_of_false (fun ⟨_, h, _⟩ => nomatch h) (by omega)
  | k + 2 =>
    obtain ⟨c, cs, rfl⟩ := List.exists_cons_of_ne_nil h.ne_nil
    have hstart : PositiveDigits (c :: cs.take k) :=
      ⟨List.cons_ne_nil _ _, fun d hd => h.isDigit d ((List.take_sublist (k + 1) (c :: cs)).subset hd),
        h.head⟩
    have hmatch : matchProcesses (('^' :: c :: cs).take (k + 2)) = some (some (c :: cs.take k)) := by
      have := @positiveNumber?_append _ [] hstart (by simp)
      rw [List.append_nil] at this
      rw [List.take_succ_cons, List.take_succ_cons, matchProcesses, this]
    simp only [hmatch, Option.some.injEq, exists_eq_left', Option.elim_some, List.head?_cons,
      Nat.add_eq_zero_iff, OfNat.ofNat_ne_zero, and_false, false_or, Nat.add_eq_right]
    have hvalue := (toDigits_digitsValue hstart).2
    constructor
    · intro hv
      rw [hv] at hvalue
      obtain ⟨rfl, htake⟩ := List.cons.inj (show ['1'] = c :: cs.take k from hvalue)
      refine ⟨?_, rfl⟩
      rcases List.take_eq_nil_iff.mp htake.symm with hk | rfl
      · exact hk
      · exact absurd rfl hone
    · rintro ⟨rfl, rfl⟩
      rw [List.take_zero]
      rfl

theorem toLower_of_isSpace {c : Char} (h : isSpace c) : c.toLower = c := by
  delta Char.toLower
  rw [dif_neg]
  rintro ⟨hlow, hhigh⟩
  simp only [ge_iff_le, UInt32.le_iff_toNat_le] at hlow hhigh
  have hA : 'A'.val.toNat = 65 := by decide
  have hZ : 'Z'.val.toNat = 90 := by decide
  have hc : c.val.toNat = c.toNat := rfl
  simp only [isSpace, List.contains_eq_mem, List.mem_cons, List.not_mem_nil, or_false,
    Bool.or_eq_true, decide_eq_true_eq, Bool.and_eq_true] at h
  omega

/-- A device has no white space. -/
theorem isSpace_of_mem_device {device : List Char} (h : DeviceName (device.map Char.toLower)) :
    ∀ c ∈ device, isSpace c = false := by
  intro c hc
  by_contra hspace
  rw [Bool.not_eq_false] at hspace
  have hplain := h.isPlain c (List.mem_map.mpr ⟨c, hc, toLower_of_isSpace hspace⟩)
  simp [isPlain, hspace] at hplain

theorem DeviceText.ne_nil {device : List Char} (h : DeviceText device) : device ≠ [] := by
  rintro rfl
  cases h [] (by simp)

/-- Neither a device nor a tuning part ends in white space. -/
theorem getLast_body {device part : List Char} {main list : Option (List Char)}
    (hd : DeviceName (device.map Char.toLower)) (hp : TuningPart main list part) :
    ∀ c ∈ (device ++ part).getLast?, isSpace c = false := by
  intro c hc
  cases hp with
  | none =>
    rw [List.append_nil] at hc
    exact isSpace_of_mem_device hd c (List.mem_of_mem_getLast? hc)
  | @main digits h =>
    have hne := h.ne_nil
    rw [List.getLast?_append_of_ne_nil _ (List.cons_ne_nil _ _), List.getLast?_cons_of_ne_nil hne]
      at hc
    exact isSpace_of_isDigit (h.isDigit c (List.mem_of_mem_getLast? hc))
  | @list inner h =>
    have hsplit : device ++ '*' :: '[' :: (inner ++ [']']) =
        (device ++ '*' :: '[' :: inner) ++ [']'] := by simp
    rw [hsplit, List.getLast?_concat] at hc
    rw [← Option.some.inj hc]
    decide

theorem trailing_append {front text back : List Char} (hback : ∀ c ∈ back, isSpace c)
    (hne : text ≠ []) (hlast : ∀ c ∈ text.getLast?, isSpace c = false) :
    trailing (front ++ (text ++ back)) = back.length := by
  rw [← List.head?_reverse] at hlast
  obtain ⟨c, cs, hcs⟩ := List.exists_cons_of_ne_nil (mt List.reverse_eq_nil_iff.mp hne)
  have hreverse : (front ++ (text ++ back)).reverse = back.reverse ++ (c :: (cs ++ front.reverse)) := by
    simp [hcs]
  have hc : isSpace c = false := hlast c (by simp [hcs])
  rw [trailing, hreverse,
    List.takeWhile_append_of_pos fun d hd => hback d (List.mem_reverse.mp hd),
    List.takeWhile_cons_of_neg (by simp [hc]), List.append_nil, List.length_reverse]

/-- The entries whose text loses exactly its number of processes. -/
def SliceKept (part : List Char) (entry : DeviceEntry) : Prop :=
  entry.processes = 1 ∨ trailing part = 0 ∨
    (trailing part = 2 ∧ (Nat.toDigits 10 entry.processes).head? = some '1')

/-- The entry of one process. -/
def DeviceEntry.one (entry : DeviceEntry) : DeviceEntry := { entry with processes := 1 }

/-- What the parser makes of the body of an entry and another end. -/
theorem parseDeviceEntry_body {text : List Char} {algo context : String} {found : DeviceMatch}
    {entry : DeviceEntry} {part tail : List Char} (hd : DeviceText found.device)
    (hp : TuningPart found.main found.tuning part) (htail : ∀ c ∈ tail.head?, c = '^')
    (hparse : parseMatch algo context found = .ok entry)
    (htrim : trim text = found.device ++ (part ++ tail)) :
    parseDeviceEntry text algo = .ok entry.one ↔
      ∃ processes, matchProcesses tail = some processes ∧ processes.elim 1 digitsValue = 1 := by
  obtain ⟨⟨hdevice, hindex⟩, -, hrest⟩ := parseMatch_eq_ok.mp hparse
  rw [parseDeviceEntry, htrim, matchEntry_append hd hp htail]
  cases hprocesses : matchProcesses tail with
  | none => simp
  | some processes =>
    simp only [Option.map_some, Option.some.injEq, exists_eq_left']
    constructor
    · intro h
      obtain ⟨-, ⟨hvalue, -⟩, -⟩ := parseMatch_eq_ok.mp h
      exact hvalue.symm
    · intro hvalue
      refine @parseMatch_context _ context _ _ _ (parseMatch_eq_ok.mpr ?_)
      exact ⟨⟨hdevice, hindex⟩, ⟨hvalue.symm, by simp [DeviceEntry.one]⟩, hrest⟩

/-- **One entry.** What is left of its text is parsed as the entry with one process exactly when the
cut removes its number of processes. -/
theorem parse_cut {part : List Char} {algo : String} {entry : DeviceEntry}
    (h : parseDeviceEntry part algo = .ok entry) :
    parseDeviceEntry (part.take (part.length - (processesText entry.processes).length)) algo =
      .ok entry.one ↔ SliceKept part entry := by
  by_cases hone : entry.processes = 1
  · have hself : entry.one = entry := by rw [DeviceEntry.one, ← hone]
    have htext : processesText entry.processes = [] := by rw [processesText, if_neg (by omega)]
    rw [htext, List.length_nil, Nat.sub_zero, List.take_length, hself]
    exact iff_of_true h (.inl hone)
  · have hwf := parseDeviceEntry_wf h
    unfold parseDeviceEntry at h
    split at h
    · cases h
    · next found hfound =>
      obtain ⟨⟨hdevice, -⟩, ⟨hprocesses, -⟩, -⟩ := parseMatch_eq_ok.mp h
      obtain ⟨tuning, hd, hp, hdigits, htext⟩ := matchEntry_cut hfound
      have hname : DeviceName (found.device.map Char.toLower) := hdevice ▸ hwf.name
      cases hfp : found.processes with
      | none =>
        rw [hfp] at hprocesses
        exact absurd hprocesses hone
      | some digits =>
        rw [hfp] at hprocesses htext
        have hpositive := hdigits digits hfp
        obtain ⟨hpos, hprinted⟩ := toDigits_digitsValue hpositive
        have hvalue : entry.processes = digitsValue digits := hprocesses
        rw [hvalue] at hone
        have hcount : processesText entry.processes = '^' :: digits := by
          rw [hvalue, processesText, if_pos (by omega), hprinted]
        obtain ⟨front, back, hpart, hfront, hback, hhead, hlast⟩ := exists_trim part
        have hbody : trim part = found.device ++ tuning ++ '^' :: digits := by
          rw [htext, List.append_assoc]
          rfl
        rw [hbody] at hpart hhead hlast
        have hne : found.device ++ tuning ≠ [] := by simp [hd.ne_nil]
        have hcut : part.take (part.length - (processesText entry.processes).length) =
            front ++ (found.device ++ (tuning ++ ('^' :: digits).take back.length) ++
              back.take (back.length - ('^' :: digits).length)) := by
          have hlength : part.length - (processesText entry.processes).length =
              (front ++ (found.device ++ tuning)).length + back.length := by
            rw [hcount, hpart]
            simp only [List.length_append, List.length_cons]
            omega
          have hassoc : part = (front ++ (found.device ++ tuning)) ++ ('^' :: digits ++ back) := by
            rw [hpart]
            simp
          rw [hlength]
          nth_rewrite 1 [hassoc]
          rw [List.take_length_add_append, List.take_append]
          simp
        have htrailing : trailing part = back.length := by
          rw [hpart]
          exact trailing_append hback (by simp) hlast
        have htail : ∀ c ∈ (('^' :: digits).take back.length).head?, c = '^' := by
          intro c hc
          cases hk : back.length with
          | zero =>
            rw [hk] at hc
            cases hc
          | succ k =>
            rw [hk] at hc
            exact (Option.some.inj hc).symm
        have htrim : trim (front ++ (found.device ++ (tuning ++ ('^' :: digits).take back.length) ++
            back.take (back.length - ('^' :: digits).length))) =
            found.device ++ (tuning ++ ('^' :: digits).take back.length) := by
          rw [← List.append_assoc found.device]
          refine trim_append hfront (fun c hc => hback c (List.mem_of_mem_take hc)) (by simp [hd.ne_nil])
            ?_ ?_
          · rw [List.head?_append_of_ne_nil _ hne] at hhead ⊢
            exact hhead
          · intro c hc
            by_cases hnil : ('^' :: digits).take back.length = []
            · rw [hnil, List.append_nil] at hc
              exact getLast_body hname hp c hc
            · rw [List.getLast?_append_of_ne_nil _ hnil] at hc
              rcases List.mem_cons.mp (List.mem_of_mem_take (List.mem_of_mem_getLast? hc)) with rfl | hc
              · decide
              · exact isSpace_of_isDigit (hpositive.isDigit c hc)
        rw [hcut, parseDeviceEntry_body hd hp htail h htrim, matchProcesses_take hpositive hone,
          SliceKept, htrailing, hvalue, hprinted, or_iff_right hone]

/-! ## Whole lists -/

/-- The text of a worker for an entry. -/
def threadDev (part : List Char) (entry : DeviceEntry) : List Char :=
  part.take (part.length - (processesText entry.processes).length)

/-- Each entry, once for each of its processes. -/
def expansion (entries : List DeviceEntry) : List DeviceEntry :=
  entries.flatMap fun entry => List.replicate entry.processes entry.one

/-- The part that each worker comes from. -/
def units (parts : List (List Char × DeviceEntry)) : List (List Char × DeviceEntry) :=
  parts.flatMap fun p => List.replicate p.2.processes p

/-- The text of each worker. -/
def workers (parts : List (List Char × DeviceEntry)) : List (List Char) :=
  (units parts).map fun p => threadDev p.1 p.2

/-- Texts with the entries that they are parsed as. -/
def Parsed (algo : String) (parts : List (List Char × DeviceEntry)) : Prop :=
  ∀ p ∈ parts, parseDeviceEntry p.1 algo = .ok p.2

variable {algo : String} {parts : List (List Char × DeviceEntry)}

theorem foldlM_parseThreadDev (h : Parsed algo parts) (threadCount : ℕ) :
    (parts.map Prod.fst).foldlM (fun threadCount devPart => do
        return threadCount + (← parseThreadDev devPart).2) threadCount =
      .ok (threadCount + (workers parts).length) := by
  induction parts generalizing threadCount with
  | nil => rfl
  | cons p parts ih =>
    obtain ⟨hp, hparts⟩ := List.forall_mem_cons.mp h
    rw [List.map_cons, List.foldlM_cons, parseThreadDev_eq hp]
    refine (ih hparts _).trans ?_
    simp [workers, units, Nat.add_assoc]

/-- The loop finds the text of a worker that is not behind it. -/
theorem findThreadDev_eq (h : Parsed algo parts) {threadId threadCount : ℕ}
    (hle : threadCount ≤ threadId) :
    findThreadDev threadId (parts.map Prod.fst) threadCount =
      .ok ((workers parts)[threadId - threadCount]?) := by
  induction parts generalizing threadCount with
  | nil => rfl
  | cons p parts ih =>
    obtain ⟨hp, hparts⟩ := List.forall_mem_cons.mp h
    rw [List.map_cons, findThreadDev, parseThreadDev_eq hp]
    have hworkers : workers (p :: parts) =
        List.replicate p.2.processes (threadDev p.1 p.2) ++ workers parts := by
      simp [workers, units]
    change (if threadId < threadCount + p.2.processes then Except.ok (some (threadDev p.1 p.2))
      else findThreadDev threadId (parts.map Prod.fst) (threadCount + p.2.processes)) = _
    rw [hworkers]
    split_ifs with hlt
    · rw [List.getElem?_append_left (by rw [List.length_replicate]; omega),
        List.getElem?_replicate_of_lt (by omega)]
    · rw [ih hparts (by omega), List.getElem?_append_right (by rw [List.length_replicate]; omega),
        List.length_replicate, Nat.sub_sub]

theorem expansion_eq (parts : List (List Char × DeviceEntry)) :
    expansion (parts.map Prod.snd) = (units parts).map fun p => p.2.one := by
  induction parts with
  | nil => rfl
  | cons p parts ih =>
    have hcons : expansion ((p :: parts).map Prod.snd) =
        List.replicate p.2.processes p.2.one ++ expansion (parts.map Prod.snd) := rfl
    rw [hcons, ih]
    simp [units]

theorem Parsed.mem_units (h : Parsed algo parts) {p : List Char × DeviceEntry} :
    p ∈ units parts ↔ p ∈ parts := by
  simp only [units, List.mem_flatMap, List.mem_replicate]
  constructor
  · rintro ⟨q, hq, -, rfl⟩
    exact hq
  · intro hp
    exact ⟨p, hp, (parseDeviceEntry_wf (h p hp)).pos.ne', rfl⟩

/-- The texts of the workers are parsed as their entries exactly when each part is cut right. -/
theorem forall₂_workers (h : Parsed algo parts) :
    List.Forall₂ (fun dev entry => parseDeviceEntry dev algo = .ok entry) (workers parts)
      (expansion (parts.map Prod.snd)) ↔ ∀ p ∈ parts, SliceKept p.1 p.2 := by
  rw [workers, expansion_eq, List.forall₂_map_left_iff, List.forall₂_map_right_iff,
    List.forall₂_same]
  constructor
  · intro hall p hp
    exact (parse_cut (h p hp)).mp (hall p (h.mem_units.mpr hp))
  · intro hall p hp
    have hmem := h.mem_units.mp hp
    exact (parse_cut (h p hmem)).mpr (hall p hmem)

theorem threadDev_ne_nil {part : List Char} {entry : DeviceEntry}
    (h : parseDeviceEntry part algo = .ok entry) : threadDev part entry ≠ [] := by
  obtain ⟨found, hfound, -, hprocesses⟩ := parseDeviceEntry_ok h
  obtain ⟨tuning, hd, -, hdigits, htext⟩ := matchEntry_cut hfound
  have hsuffix : (processesText entry.processes).length ≤
      (processesPart found.processes).length := by
    cases hfp : found.processes with
    | none =>
      rw [hprocesses, hfp]
      exact le_rfl
    | some digits =>
      have hprinted := (toDigits_digitsValue (hdigits digits hfp)).2
      rw [hprocesses, hfp, Option.elim_some, processesText]
      split_ifs
      · rw [hprinted]
        exact le_rfl
      · exact Nat.zero_le _
  have hlength := congrArg List.length htext
  have hdevice := List.length_pos_iff.mpr hd.ne_nil
  obtain ⟨front, back, hpart, -⟩ := exists_trim part
  have htotal := congrArg List.length hpart
  simp only [List.length_append] at hlength htotal
  have hpositive : 0 < (threadDev part entry).length := by
    rw [threadDev, List.length_take]
    omega
  exact List.ne_nil_of_length_pos hpositive

theorem getDevThreads_eq (h : Parsed algo parts) {devs : List Char}
    (hparts : split ',' devs = parts.map Prod.fst) :
    getDevThreads devs = .ok (workers parts).length := by
  rw [getDevThreads, hparts, foldlM_parseThreadDev h, Nat.zero_add]

theorem getThreadDev_eq (h : Parsed algo parts) {devs : List Char}
    (hparts : split ',' devs = parts.map Prod.fst) (i : ℕ) :
    getThreadDev i devs = .ok (workers parts)[i]? := by
  rw [getThreadDev, hparts, findThreadDev_eq h (Nat.zero_le i), Nat.sub_zero]

theorem workerDevs_eq (h : Parsed algo parts) {devs : List Char}
    (hparts : split ',' devs = parts.map Prod.fst) : workerDevs devs = .ok (workers parts) := by
  have hne : ∀ dev ∈ workers parts, dev ≠ [] := by
    intro dev hdev
    obtain ⟨p, hp, rfl⟩ := List.mem_map.mp hdev
    exact threadDev_ne_nil (h p (h.mem_units.mp hp))
  have hlist : workers parts =
      (List.range (workers parts).length).map fun i => (workers parts)[i]?.getD [] := by
    refine List.ext_getElem (by simp) fun i hi _ => ?_
    simp [hi]
  have hfound : ∀ i ∈ List.range (workers parts).length, (do
      match (← getThreadDev i devs).filter (· ≠ []) with
      | some selectedDev => return selectedDev
      | none => .error ("No device configured for worker " ++ toString i) : Except String _) =
        .ok ((workers parts)[i]?.getD []) := by
    intro i hi
    rw [List.mem_range] at hi
    have hfilter : (some (workers parts)[i]).filter (fun dev => decide (dev ≠ [])) =
        some (workers parts)[i] := by
      rw [Option.filter_some, if_pos (by simpa using hne _ (List.getElem_mem hi))]
    rw [getThreadDev_eq h hparts, List.getElem?_eq_getElem hi]
    change (match (some (workers parts)[i]).filter (fun dev => decide (dev ≠ [])) with
      | some selectedDev => Except.ok selectedDev
      | none => .error _) = _
    rw [hfilter]
    rfl
  have hmap : ∀ F : ℕ → Except String (List Char), (∀ i ∈ List.range (workers parts).length,
      F i = .ok ((workers parts)[i]?.getD [])) →
      (List.range (workers parts).length).mapM F = .ok (workers parts) := by
    intro F hF
    have hall := mapM_map_eq_ok (f := F) (g := id) hF
    rw [List.map_id, ← hlist] at hall
    exact hall
  rw [workerDevs, getDevThreads_eq h hparts]
  exact hmap _ hfound

/-- **Worker assignment.** The workers of an accepted list are its entries, once for each process and
in order, exactly when no entry with several processes loses another text than its number. -/
theorem assignment_iff {devs : List Char} {entries : List DeviceEntry}
    (h : parseDeviceList devs algo = .ok entries) :
    (getDevThreads devs = .ok (expansion entries).length ∧
      (∀ i (hi : i < (expansion entries).length), ∃ dev, getThreadDev i devs = .ok (some dev) ∧
        parseDeviceEntry dev algo = .ok (expansion entries)[i]) ∧
      ∃ selected, workerDevs devs = .ok selected ∧
        List.Forall₂ (fun dev entry => parseDeviceEntry dev algo = .ok entry) selected
          (expansion entries)) ↔
      List.Forall₂ SliceKept (split ',' devs) entries := by
  have hforall := parseDeviceList_eq h
  have hlength := hforall.length_eq
  have hfst : split ',' devs = ((split ',' devs).zip entries).map Prod.fst :=
    (List.map_fst_zip hlength.le).symm
  have hsnd : entries = ((split ',' devs).zip entries).map Prod.snd :=
    (List.map_snd_zip hlength.ge).symm
  have hparsed : Parsed algo ((split ',' devs).zip entries) := fun p hp =>
    (List.forall₂_iff_zip.mp hforall).2 hp
  have hworkers := forall₂_workers hparsed
  rw [← hsnd] at hworkers
  have hcount : (workers ((split ',' devs).zip entries)).length = (expansion entries).length := by
    nth_rewrite 2 [hsnd]
    rw [expansion_eq, workers, List.length_map, List.length_map]
  have hkept : List.Forall₂ SliceKept (split ',' devs) entries ↔
      ∀ p ∈ (split ',' devs).zip entries, SliceKept p.1 p.2 := by
    rw [List.forall₂_iff_zip]
    exact ⟨fun h p hp => h.2 hp, fun h => ⟨hlength, fun hp => h _ hp⟩⟩
  rw [hkept, ← hworkers, getDevThreads_eq hparsed hfst, workerDevs_eq hparsed hfst, hcount]
  constructor
  · rintro ⟨-, -, selected, hselected, hall⟩
    cases hselected
    exact hall
  · intro hall
    refine ⟨rfl, fun i hi => ?_, _, rfl, hall⟩
    have hi' := hcount ▸ hi
    refine ⟨_, ?_, hall.get hi' hi⟩
    rw [getThreadDev_eq hparsed hfst, List.getElem?_eq_getElem hi']
    rfl

theorem assignment_iff_pair : ∃ entries, parseDeviceList "gpu0*64^2, cpu^3".toList "" = .ok entries ∧
    ((getDevThreads "gpu0*64^2, cpu^3".toList = .ok (expansion entries).length ∧
      (∀ i (hi : i < (expansion entries).length), ∃ dev,
        getThreadDev i "gpu0*64^2, cpu^3".toList = .ok (some dev) ∧
          parseDeviceEntry dev "" = .ok (expansion entries)[i]) ∧
      ∃ selected, workerDevs "gpu0*64^2, cpu^3".toList = .ok selected ∧
        List.Forall₂ (fun dev entry => parseDeviceEntry dev "" = .ok entry) selected
          (expansion entries)) ↔
      List.Forall₂ SliceKept (split ',' "gpu0*64^2, cpu^3".toList) entries) :=
  ⟨_, rfl, @assignment_iff _ "gpu0*64^2, cpu^3".toList _ rfl⟩

/-- White space after the number of processes leaves its mark on the text of the worker. -/
theorem assignment_trailing_space : ∃ entries,
    parseDeviceList "gpu0^2 ".toList "c29" = .ok entries ∧ (expansion entries).length = 2 ∧
    getThreadDev 0 "gpu0^2 ".toList = .ok (some "gpu0^".toList) ∧
    parseDeviceEntry "gpu0^".toList "c29" = .error "invalid device entry: gpu0^" :=
  ⟨_, rfl, rfl, rfl, rfl⟩

end MoMiner.Miner
