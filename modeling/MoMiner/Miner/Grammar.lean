import MoMiner.Miner.Printed

/-!
# The grammar of device texts

A device text is a device name, a main value or a tuning list, and a number of processes. The
parser matches the three parts one after the other, and each of them ends where the next one
begins: what is matched is the concatenation of its parts, and a concatenation of parts is matched.

Main results: `matchEntry_append` and `matchEntry_cut`.
-/

namespace MoMiner.Miner

open MoMiner.Js

/-! ## Positive numbers -/

/-- Digits that do not begin with a zero. -/
structure PositiveDigits (digits : List Char) : Prop where
  ne_nil : digits ≠ []
  isDigit : ∀ c ∈ digits, c.isDigit
  head : ∀ c ∈ digits.head?, c ≠ '0'

theorem positiveDigits_toDigits {n : ℕ} (h : 0 < n) : PositiveDigits (Nat.toDigits 10 n) where
  ne_nil := Nat.toDigits_ne_nil
  isDigit := fun _ hc => isDigit_of_mem_toDigits hc
  head := head_toDigits_ne_zero h

theorem positiveNumber?_append {digits rest : List Char} (hd : PositiveDigits digits)
    (hrest : ∀ c ∈ rest.head?, c.isDigit = false) :
    positiveNumber? (digits ++ rest) = some (digits, rest) := by
  have hspan := span_isDigit hd.isDigit hrest
  obtain ⟨c, cs, rfl⟩ := List.exists_cons_of_ne_nil hd.ne_nil
  have hdigit : c.isDigit := hd.isDigit c List.mem_cons_self
  have hzero : c ≠ '0' := hd.head c rfl
  rw [List.cons_append] at hspan ⊢
  rw [positiveNumber?, if_pos ⟨hdigit, hzero⟩, hspan]

theorem positiveNumber?_eq_some {text digits rest : List Char}
    (h : positiveNumber? text = some (digits, rest)) :
    PositiveDigits digits ∧ text = digits ++ rest := by
  cases text with
  | nil => cases h
  | cons c cs =>
    rw [positiveNumber?] at h
    split_ifs at h with hc
    rw [Option.some.injEq, List.span_eq_takeWhile_dropWhile, Prod.mk.injEq] at h
    obtain ⟨rfl, rfl⟩ := h
    refine ⟨⟨?_, ?_, ?_⟩, List.takeWhile_append_dropWhile.symm⟩
    · rw [List.takeWhile_cons_of_pos hc.1]
      exact List.cons_ne_nil _ _
    · intro d hd
      exact List.mem_takeWhile_imp hd
    · rw [List.takeWhile_cons_of_pos hc.1]
      intro d hd
      rw [← Option.some.inj hd]
      exact hc.2

/-! ## The tuning part -/

/-- The part of a text that gives the main value or the tuning list. -/
inductive TuningPart : Option (List Char) → Option (List Char) → List Char → Prop
  | none : TuningPart none none []
  | main {digits : List Char} (h : PositiveDigits digits) :
      TuningPart (some digits) none ('*' :: digits)
  | list {inner : List Char} (h : ']' ∉ inner) :
      TuningPart none (some inner) ('*' :: '[' :: (inner ++ [']']))

/-- A tuning part is empty or begins with a star, so a device number ends before it. -/
theorem TuningPart.head {main list : Option (List Char)} {part : List Char}
    (h : TuningPart main list part) {rest : List Char}
    (hrest : ∀ c ∈ rest.head?, c.isDigit = false) :
    ∀ c ∈ (part ++ rest).head?, c.isDigit = false := by
  cases h with
  | none => exact hrest
  | main _ =>
    intro c hc
    rw [← Option.some.inj hc]
    decide
  | list _ =>
    intro c hc
    rw [← Option.some.inj hc]
    decide

theorem matchTuning_append {main list : Option (List Char)} {part rest : List Char}
    (h : TuningPart main list part) (hrest : ∀ c ∈ rest.head?, c = '^') :
    matchTuning (part ++ rest) = some (main, list, rest) := by
  cases h with
  | none =>
    refine matchTuning_none fun c hc => ?_
    rw [hrest c hc]
    decide
  | @main digits hd =>
    have hdigit : ∀ c ∈ rest.head?, c.isDigit = false := fun c hc => by
      rw [hrest c hc]
      decide
    have hmatch := positiveNumber?_append hd hdigit
    rw [List.cons_append]
    unfold matchTuning
    split
    · next heq =>
      obtain ⟨c, cs, rfl⟩ := List.exists_cons_of_ne_nil hd.ne_nil
      have hbracket : c = '[' := (List.cons.inj (List.cons.inj heq).2).1
      have := hd.isDigit c List.mem_cons_self
      rw [hbracket] at this
      cases this
    · next heq =>
      rw [← (List.cons.inj heq).2, hmatch]
      rfl
    · next h => exact absurd rfl (h _)
  | list hinner =>
    rw [List.cons_append, List.cons_append, List.append_assoc, List.singleton_append]
    exact matchTuning_list hinner

theorem matchTuning_eq_some {text rest : List Char} {main list : Option (List Char)}
    (h : matchTuning text = some (main, list, rest)) :
    ∃ part, TuningPart main list part ∧ text = part ++ rest := by
  unfold matchTuning at h
  split at h
  · next tail =>
    split at h
    · next inner c after hspan =>
      cases h
      rw [List.span_eq_takeWhile_dropWhile, Prod.mk.injEq] at hspan
      obtain ⟨hinner, hafter⟩ := hspan
      have hstop : c = ']' := by
        have := List.head?_dropWhile_not (fun c : Char => decide (c ≠ ']')) tail
        rw [hafter] at this
        simpa using this
      have hnot : ']' ∉ inner := by
        intro hmem
        rw [← hinner] at hmem
        simpa using List.mem_takeWhile_imp hmem
      refine ⟨_, .list hnot, ?_⟩
      have hsplit := List.takeWhile_append_dropWhile (p := fun c : Char => decide (c ≠ ']')) (l := tail)
      rw [hinner, hafter, hstop] at hsplit
      simp [← hsplit]
    · cases h
  · next tail _ =>
    obtain ⟨⟨digits, after⟩, hmatch, h⟩ := Option.map_eq_some_iff.mp h
    cases h
    obtain ⟨hd, htail⟩ := positiveNumber?_eq_some hmatch
    exact ⟨_, .main hd, by rw [htail, List.cons_append]⟩
  · cases h
    exact ⟨[], .none, rfl⟩

/-! ## The device and the processes -/

/-- A text that is matched as a device, up to the end of its number. -/
def DeviceText (device : List Char) : Prop :=
  ∀ rest : List Char, (∀ c ∈ rest.head?, c.isDigit = false) →
    matchDevice (device ++ rest) = some (device, rest)

theorem DeviceName.deviceText {device : List Char} (hd : DeviceName device) : DeviceText device :=
  fun _ hrest => matchDevice_append hd hrest

theorem matchDevice_eq_some {text device rest : List Char}
    (h : matchDevice text = some (device, rest)) : DeviceText device ∧ text = device ++ rest := by
  rw [matchDevice] at h
  split_ifs at h with hname
  simp only [List.span_eq_takeWhile_dropWhile, Option.some.injEq, Prod.mk.injEq] at h hname
  obtain ⟨rfl, rfl⟩ := h
  have hlength : (text.take 3).length = 3 := by
    have hmap : ((text.take 3).map Char.toLower).length = 3 := by
      rcases hname with hname | ⟨hname, -⟩ <;> rw [hname] <;> rfl
    simpa using hmap
  refine ⟨fun rest' hrest' => ?_, ?_⟩
  · have hspan := span_isDigit (fun c hc => List.mem_takeWhile_imp (p := Char.isDigit)
      (l := text.drop 3) hc) hrest'
    rw [List.append_assoc, matchDevice, List.take_left' hlength, List.drop_left' hlength, hspan,
      if_pos hname]
  · rw [List.append_assoc, List.takeWhile_append_dropWhile, List.take_append_drop]

/-- The part of a text that gives the number of processes. -/
def processesPart (processes : Option (List Char)) : List Char := processes.elim [] ('^' :: ·)

theorem head_processesPart (processes : Option (List Char)) :
    ∀ c ∈ (processesPart processes).head?, c = '^' := by
  cases processes with
  | none => simp [processesPart]
  | some digits => simp [processesPart]

theorem matchProcesses_eq_some {text : List Char} {processes : Option (List Char)}
    (h : matchProcesses text = some processes) :
    (∀ digits ∈ processes, PositiveDigits digits) ∧ text = processesPart processes := by
  unfold matchProcesses at h
  split at h
  · cases h
    exact ⟨by simp, rfl⟩
  · split at h
    · next digits hmatch =>
      cases h
      obtain ⟨hd, htext⟩ := positiveNumber?_eq_some hmatch
      rw [List.append_nil] at htext
      exact ⟨fun d h => Option.some.inj h ▸ hd, by rw [htext]; rfl⟩
    · cases h
  · cases h

/-! ## Whole texts -/

/-- **Parts that follow each other are matched.** -/
theorem matchEntry_append {device part rest : List Char} {main list : Option (List Char)}
    (hd : DeviceText device) (hp : TuningPart main list part) (hrest : ∀ c ∈ rest.head?, c = '^') :
    matchEntry (device ++ (part ++ rest)) =
      (matchProcesses rest).map fun processes => ⟨device, main, list, processes⟩ := by
  have hdigit : ∀ c ∈ rest.head?, c.isDigit = false := fun c hc => by
    rw [hrest c hc]
    decide
  rw [matchEntry, hd _ (hp.head hdigit)]
  simp only [Option.bind_eq_bind, Option.bind_some, matchTuning_append hp hrest]
  cases matchProcesses rest <;> rfl

/-- **What is matched are parts that follow each other.** -/
theorem matchEntry_cut {text : List Char} {found : DeviceMatch} (h : matchEntry text = some found) :
    ∃ part, DeviceText found.device ∧ TuningPart found.main found.tuning part ∧
      (∀ digits ∈ found.processes, PositiveDigits digits) ∧
      text = found.device ++ (part ++ processesPart found.processes) := by
  simp only [matchEntry, Option.bind_eq_bind, Option.bind_eq_some_iff, Option.pure_def,
    Option.some.injEq] at h
  obtain ⟨⟨device, rest⟩, hdevice, ⟨main, list, after⟩, htuning, processes, hprocesses, rfl⟩ := h
  obtain ⟨hd, rfl⟩ := matchDevice_eq_some hdevice
  obtain ⟨part, hp, rfl⟩ := matchTuning_eq_some htuning
  obtain ⟨hdigits, rfl⟩ := matchProcesses_eq_some hprocesses
  exact ⟨part, hd, hp, hdigits, rfl⟩

end MoMiner.Miner
