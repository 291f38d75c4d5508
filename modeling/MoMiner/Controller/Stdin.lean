import MoMiner.Js.CodeUnits
import MoMiner.Js.Text
import MoMiner.Lib.Lines

/-!
# The input of a worker process

A worker that was spawned without a channel gets its messages on standard input, one JSON value a
line. `readStdinMessages` of `helper.js` keeps the unfinished line between chunks and stops for good
at the first fault.

**Main results.** Two chunks are read as the text they make together (`data_append`), so the chunks
of a text do not matter, and what is read fails exactly at a fault of the text (`stdin_verdict`).
-/

namespace MoMiner.Controller

open MoMiner.Js MoMiner.Lines

/-! ## The reader -/

/-- What the reader needs of the language and of its caller: `JSON.parse`, and `handle_msg` with the
state it works on, which answers whether the message is accepted. -/
structure MessageHandler (σ μ : Type*) where
  parse : List CodeUnit → Option μ
  handle : σ → μ → σ × Bool

def maxWorkerMessageLine : ℕ := 1024 * 1024

def newline : CodeUnit := 0x0a

/-- The texts that `fail` is called with. -/
inductive InputFault
  | lineLimit | malformed
  deriving DecidableEq, Repr

/-- The variables of `readStdinMessages`, the state of the handler, and what was done so far:
the messages delivered, the number of lines that were taken, the failures reported with that number,
and whether `on_end` was called. -/
structure StdinReader (σ μ : Type*) where
  input : List CodeUnit := []
  failed : Bool := false
  state : σ
  delivered : List μ := []
  lines : ℕ := 0
  failures : List (ℕ × InputFault) := []
  ended : Bool := false

section

variable {σ μ : Type*} (h : MessageHandler σ μ)

def StdinReader.fail (r : StdinReader σ μ) (fault : InputFault) : StdinReader σ μ :=
  if r.failed then r
  else { r with failed := true, input := [], failures := r.failures ++ [(r.lines, fault)] }

/-- What precedes and what follows the first end of a line. -/
def takeLine (input : List CodeUnit) : Option (List CodeUnit × List CodeUnit) :=
  (input.idxOf? newline).map fun eol => (input.take eol, input.drop (eol + 1))

/-- The body of the loop, for a line that was taken. -/
def readLine (r : StdinReader σ μ) (line : List CodeUnit) : StdinReader σ μ :=
  if maxWorkerMessageLine < line.length then r.fail .lineLimit
  else if line = [] then { r with lines := r.lines + 1 }
  else match h.parse line with
    | none => r.fail .malformed
    | some message =>
      let (state, accepted) := h.handle r.state message
      let r' := { r with state := state, delivered := r.delivered ++ [message] }
      if accepted then { r' with lines := r.lines + 1 } else r'.fail .malformed

theorem length_input_fail (r : StdinReader σ μ) (fault : InputFault) :
    (r.fail fault).input.length ≤ r.input.length := by
  rw [StdinReader.fail]
  split
  · exact le_rfl
  · exact Nat.zero_le _

theorem length_input_readLine (r : StdinReader σ μ) (line : List CodeUnit) :
    (readLine h r line).input.length ≤ r.input.length := by
  rw [readLine]
  split_ifs with hlimit hempty
  · exact length_input_fail r _
  · exact le_rfl
  · cases h.parse line with
    | none => exact length_input_fail r _
    | some message =>
      dsimp only
      split_ifs
      · exact le_rfl
      · exact length_input_fail _ _

theorem length_of_takeLine {input line rest : List CodeUnit}
    (ht : takeLine input = some (line, rest)) : rest.length < input.length := by
  simp only [takeLine, Option.map_eq_some_iff, Prod.mk.injEq] at ht
  obtain ⟨eol, heol, -, rfl⟩ := ht
  have hlt : eol < input.length := by
    obtain ⟨hmem, -⟩ := List.idxOf?_eq_some_iff.mp heol
    exact hmem
  rw [List.length_drop]
  omega

/-- The loop over the lines, and the limit for what is left. -/
def readLines (r : StdinReader σ μ) : StdinReader σ μ :=
  match _ht : takeLine r.input with
  | none => if maxWorkerMessageLine < r.input.length then r.fail .lineLimit else r
  | some (line, rest) =>
    let r' := readLine h { r with input := rest } line
    if r'.failed then r' else readLines r'
termination_by r.input.length
decreasing_by
  exact lt_of_le_of_lt (length_input_readLine h _ line) (length_of_takeLine ‹_›)

/-- The handler of `data`. -/
def data (r : StdinReader σ μ) (chunk : List CodeUnit) : StdinReader σ μ :=
  if r.failed then r else readLines h { r with input := r.input ++ chunk }

/-- `text.trim()` is empty. -/
def isBlankInput (text : List CodeUnit) : Bool :=
  text.all fun u => isSpace (Char.ofNat u.toNat)

/-- The handler of `end`. -/
def stdinEnd (r : StdinReader σ μ) : StdinReader σ μ :=
  if r.failed then r
  else if !isBlankInput r.input then r.fail .malformed
  else { r with ended := true }

/-- The reader after all chunks and the end of the input. -/
def readStdinMessages (s : σ) (chunks : List (List CodeUnit)) : StdinReader σ μ :=
  stdinEnd (chunks.foldl (data h) { state := s })

/-! ## One line -/

/-- A line that the reader fails at: it is longer than the limit, or has something in it that is no
message or is not accepted. -/
def BadLine (s : σ) (line : List CodeUnit) : Prop :=
  maxWorkerMessageLine < line.length ∨
    line ≠ [] ∧ ∀ message, h.parse line = some message → (h.handle s message).2 = false

/-- The state of the handler after a line, and what the line delivers. -/
def lineState (s : σ) (line : List CodeUnit) : σ :=
  if line = [] then s
  else match h.parse line with
    | none => s
    | some message => (h.handle s message).1

def lineMessages (line : List CodeUnit) : List μ :=
  if line = [] then [] else (h.parse line).toList

variable {h}

/-- A bad line ends the reading, whatever follows it. -/
theorem readLine_bad {r : StdinReader σ μ} {line : List CodeUnit} (hr : r.failed = false)
    (hbad : BadLine h r.state line) : ∃ fault state delivered, ∀ input,
      readLine h { r with input := input } line =
        { r with
          failed := true, input := [], state := state, delivered := delivered,
          failures := r.failures ++ [(r.lines, fault)] } ∧
      (fault = .lineLimit ↔ maxWorkerMessageLine < line.length) := by
  by_cases hlimit : maxWorkerMessageLine < line.length
  · exact ⟨.lineLimit, r.state, r.delivered, fun input => by
      simp [readLine, StdinReader.fail, hlimit, hr]⟩
  · obtain ⟨hne, hmessage⟩ := hbad.resolve_left hlimit
    cases hp : h.parse line with
    | none =>
      exact ⟨.malformed, r.state, r.delivered, fun input => by
        simp [readLine, StdinReader.fail, hlimit, hne, hp, hr]⟩
    | some message =>
      exact ⟨.malformed, (h.handle r.state message).1, r.delivered ++ [message], fun input => by
        simp [readLine, StdinReader.fail, hlimit, hne, hp, hr, hmessage message hp]⟩

/-- Any other line is handled, and the reading goes on. -/
theorem readLine_good {r : StdinReader σ μ} {line : List CodeUnit}
    (hgood : ¬BadLine h r.state line) (input : List CodeUnit) :
    readLine h { r with input := input } line =
      { r with
        input := input, state := lineState h r.state line,
        delivered := r.delivered ++ lineMessages h line, lines := r.lines + 1 } := by
  simp only [BadLine, not_or, not_and, not_forall] at hgood
  obtain ⟨hlimit, hmessage⟩ := hgood
  by_cases hne : line = []
  · simp [readLine, lineState, lineMessages, hne]
  · obtain ⟨message, hp, haccepted⟩ := hmessage hne
    have htrue : (h.handle r.state message).2 = true := by simpa using haccepted
    simp [readLine, lineState, lineMessages, hlimit, hne, hp, htrue]

/-! ## The loop -/

theorem takeLine_of_notMem {text : List CodeUnit} (hnot : newline ∉ text) :
    takeLine text = none := by
  rw [takeLine, List.idxOf?_eq_none_iff.mpr hnot, Option.map_none]

theorem takeLine_line {first : List CodeUnit} (hnot : newline ∉ first) (rest : List CodeUnit) :
    takeLine (first ++ newline :: rest) = some (first, rest) := by
  have heol : (first ++ newline :: rest).idxOf? newline = some first.length := by
    refine List.idxOf?_eq_some_iff.mpr ⟨by simp, by simp, fun j hj => ?_⟩
    rw [List.getElem_append_left hj]
    refine fun heq => hnot ?_
    rw [← heq]
    exact List.getElem_mem hj
  rw [takeLine, heol]
  simp

theorem readLines_unfinished (r : StdinReader σ μ) {text : List CodeUnit} (hnot : newline ∉ text) :
    readLines h { r with input := text } =
      if maxWorkerMessageLine < text.length then { r with input := text }.fail .lineLimit
      else { r with input := text } := by
  rw [readLines]
  split
  · rfl
  · rename_i ht
    rw [takeLine_of_notMem hnot] at ht
    cases ht

theorem readLines_line (r : StdinReader σ μ) {first : List CodeUnit} (hnot : newline ∉ first)
    (rest : List CodeUnit) : readLines h { r with input := first ++ newline :: rest } =
      if (readLine h { r with input := rest } first).failed then
        readLine h { r with input := rest } first
      else readLines h (readLine h { r with input := rest } first) := by
  rw [readLines]
  split
  · rename_i ht
    rw [takeLine_line hnot] at ht
    cases ht
  · rename_i ht
    rw [takeLine_line hnot] at ht
    cases ht
    rfl

/-- The reader after a line that is not bad. -/
def StdinReader.next (h : MessageHandler σ μ) (r : StdinReader σ μ) (line : List CodeUnit) :
    StdinReader σ μ :=
  { r with
    state := lineState h r.state line, delivered := r.delivered ++ lineMessages h line,
    lines := r.lines + 1 }

theorem readLines_good {r : StdinReader σ μ} {first : List CodeUnit} (hr : r.failed = false)
    (hnot : newline ∉ first) (hgood : ¬BadLine h r.state first) (rest : List CodeUnit) :
    readLines h { r with input := first ++ newline :: rest } =
      readLines h { r.next h first with input := rest } := by
  rw [readLines_line r hnot, readLine_good hgood, if_neg (by simp [hr])]
  rfl

/-! ## Chunks -/

/-- A line that is too long so far is too long when it ends. -/
theorem readLines_long {text : List CodeUnit} (hnot : newline ∉ text)
    (hlimit : maxWorkerMessageLine < text.length) (chunk : List CodeUnit) {r : StdinReader σ μ}
    (hr : r.failed = false) :
    readLines h { r with input := text ++ chunk } =
      { r with
        failed := true, input := [], failures := r.failures ++ [(r.lines, .lineLimit)] } := by
  have hlong (rest : List CodeUnit) : maxWorkerMessageLine < (text ++ rest).length := by
    rw [List.length_append]
    omega
  induction chunk using lines_induction (s := newline) with
  | unfinished chunk hchunk =>
    rw [readLines_unfinished r (by simp [hnot, hchunk]), if_pos (hlong chunk)]
    simp [StdinReader.fail, hr]
  | line first rest hfirst _ =>
    have hline : readLine h { r with input := rest } (text ++ first) = { r with
        failed := true, input := [], failures := r.failures ++ [(r.lines, .lineLimit)] } := by
      rw [readLine, if_pos (hlong first)]
      simp [StdinReader.fail, hr]
    rw [← List.append_assoc, readLines_line r (by simp [hnot, hfirst]), hline, if_pos rfl]

/-- What is left of a text is completed by the next chunk. -/
theorem data_readLines (text chunk : List CodeUnit) {r : StdinReader σ μ} (hr : r.failed = false) :
    data h (readLines h { r with input := text }) chunk =
      readLines h { r with input := text ++ chunk } := by
  induction text using lines_induction (s := newline) generalizing r with
  | unfinished text hnot =>
    rw [readLines_unfinished r hnot]
    split_ifs with hlimit
    · rw [readLines_long hnot hlimit chunk hr]
      simp [data, StdinReader.fail, hr]
    · rw [data, if_neg (by simp [hr])]
  | line first rest hnot ih =>
    rw [List.append_assoc, List.cons_append]
    by_cases hbad : BadLine h r.state first
    · obtain ⟨fault, state, delivered, heq⟩ := readLine_bad hr hbad
      rw [readLines_line r hnot, readLines_line r hnot, (heq rest).1, (heq (rest ++ chunk)).1]
      simp [data]
    · rw [readLines_good hr hnot hbad, readLines_good hr hnot hbad]
      exact ih hr

/-- **Two chunks are read as one.** -/
theorem data_append (r : StdinReader σ μ) (first second : List CodeUnit) :
    data h (data h r first) second = data h r (first ++ second) := by
  cases hr : r.failed with
  | true => simp [data, hr]
  | false =>
    have hfirst (chunk : List CodeUnit) :
        data h r chunk = readLines h { r with input := r.input ++ chunk } := by
      rw [data, if_neg (by simp [hr])]
    rw [hfirst, hfirst, data_readLines _ _ hr, List.append_assoc]

theorem foldl_data (r : StdinReader σ μ) (first : List CodeUnit) (chunks : List (List CodeUnit)) :
    chunks.foldl (data h) (data h r first) = data h r (first ++ chunks.flatten) := by
  induction chunks generalizing first with
  | nil => simp
  | cons chunk chunks ih =>
    rw [List.foldl_cons, data_append, ih, List.flatten_cons, List.append_assoc]

theorem readStdinMessages_flatten (s : σ) (chunks : List (List CodeUnit)) :
    readStdinMessages h s chunks = readStdinMessages h s [chunks.flatten] := by
  have hnil : data h { state := s } [] = ({ state := s } : StdinReader σ μ) := by
    rw [data, if_neg (by simp)]
    exact readLines_unfinished { state := s } List.not_mem_nil
  have hfold := foldl_data (h := h) { state := s } [] chunks
  rw [hnil, List.nil_append] at hfold
  rw [readStdinMessages, hfold]
  rfl

/-- A text that arrives at once. -/
theorem readStdinMessages_one (s : σ) (text : List CodeUnit) : readStdinMessages h s [text] =
    stdinEnd (readLines h { ({ state := s } : StdinReader σ μ) with input := text }) := rfl

/-! ## The verdict -/

variable (h) in
/-- A text that reading fails at: one of its lines is bad in the state that the lines before it
leave, or what follows the last line is too long or not blank. -/
def Faulty (s : σ) (text : List CodeUnit) : Prop :=
  (∃ before line after, terminated newline text = before ++ line :: after ∧
    BadLine h (before.foldl (lineState h) s) line) ∨
  maxWorkerMessageLine < (remainder newline text).length ∨
  isBlankInput (remainder newline text) = false

theorem faulty_unfinished {s : σ} {text : List CodeUnit} (hnot : newline ∉ text) :
    Faulty h s text ↔ maxWorkerMessageLine < text.length ∨ isBlankInput text = false := by
  simp [Faulty, terminated_of_notMem hnot, remainder_of_notMem hnot]

theorem faulty_line {s : σ} {first : List CodeUnit} (hnot : newline ∉ first)
    (rest : List CodeUnit) : Faulty h s (first ++ newline :: rest) ↔
      BadLine h s first ∨ Faulty h (lineState h s first) rest := by
  rw [Faulty, Faulty, terminated_line hnot, remainder_line hnot, ← @or_assoc (BadLine h s first)]
  refine or_congr_left ⟨?_, ?_⟩
  · rintro ⟨before, line, after, hsplit, hbad⟩
    cases before with
    | nil =>
      obtain ⟨rfl, -⟩ := List.cons.inj hsplit
      exact .inl hbad
    | cons c before =>
      obtain ⟨rfl, hrest⟩ := List.cons.inj hsplit
      exact .inr ⟨before, line, after, hrest, hbad⟩
  · rintro (hbad | ⟨before, line, after, hsplit, hbad⟩)
    · exact ⟨[], first, _, rfl, hbad⟩
    · exact ⟨first :: before, line, after, by rw [hsplit, List.cons_append], hbad⟩

/-- A faulty text fails once, and for its length only where a line has it. -/
theorem readLines_faulty (text : List CodeUnit) {r : StdinReader σ μ} (hr : r.failed = false)
    (hfaulty : Faulty h r.state text) :
    ∃ line fault, (stdinEnd (readLines h { r with input := text })).failures =
        r.failures ++ [(line, fault)] ∧
      (fault = .lineLimit → ∃ part ∈ text.splitOn newline, maxWorkerMessageLine < part.length) := by
  induction text using lines_induction (s := newline) generalizing r with
  | unfinished text hnot =>
    rw [readLines_unfinished r hnot, List.splitOn_eq_singleton hnot]
    by_cases hlimit : maxWorkerMessageLine < text.length
    · exact ⟨r.lines, .lineLimit, by simp [stdinEnd, StdinReader.fail, hlimit, hr],
        fun _ => ⟨text, List.mem_singleton_self text, hlimit⟩⟩
    · have hblank := ((faulty_unfinished hnot).mp hfaulty).resolve_left hlimit
      exact ⟨r.lines, .malformed, by simp [stdinEnd, StdinReader.fail, hlimit, hr, hblank], nofun⟩
  | line first rest hnot ih =>
    rw [List.splitOn_append_cons_self_of_not_mem hnot]
    by_cases hbad : BadLine h r.state first
    · obtain ⟨fault, state, delivered, hread⟩ := readLine_bad hr hbad
      rw [readLines_line r hnot, (hread rest).1]
      exact ⟨r.lines, fault, by simp [stdinEnd],
        fun hlimit => ⟨first, List.mem_cons_self, (hread rest).2.mp hlimit⟩⟩
    · rw [readLines_good hr hnot hbad]
      obtain ⟨line, fault, hfailures, hlimit⟩ :=
        ih (r := r.next h first) hr (((faulty_line hnot rest).mp hfaulty).resolve_left hbad)
      refine ⟨line, fault, hfailures, fun hfault => ?_⟩
      obtain ⟨part, hpart, hlong⟩ := hlimit hfault
      exact ⟨part, List.mem_cons_of_mem _ hpart, hlong⟩

/-- Any other text is read to its end. -/
theorem readLines_sound (text : List CodeUnit) {r : StdinReader σ μ} (hr : r.failed = false)
    (hsound : ¬Faulty h r.state text) :
    stdinEnd (readLines h { r with input := text }) =
      { r with
        input := remainder newline text,
        state := (terminated newline text).foldl (lineState h) r.state,
        delivered := r.delivered ++ (terminated newline text).flatMap (lineMessages h),
        lines := r.lines + (terminated newline text).length, ended := true } := by
  induction text using lines_induction (s := newline) generalizing r with
  | unfinished text hnot =>
    rw [faulty_unfinished hnot, not_or, Bool.not_eq_false] at hsound
    rw [readLines_unfinished r hnot, if_neg hsound.1, terminated_of_notMem hnot,
      remainder_of_notMem hnot]
    simp [stdinEnd, hr, hsound.2]
  | line first rest hnot ih =>
    rw [faulty_line hnot, not_or] at hsound
    rw [readLines_good hr hnot hsound.1, ih (r := r.next h first) hr hsound.2,
      terminated_line hnot, remainder_line hnot]
    simp [StdinReader.next, Nat.add_assoc, Nat.add_comm 1]

end

/-- **The input is read in one way, however it is cut.** It fails at most once, and exactly when
the text is faulty; else every line is delivered. Lines within the limit never fail for their
length. -/
theorem stdin_verdict {σ μ : Type*} (h : MessageHandler σ μ) (s : σ)
    (chunks : List (List CodeUnit)) :
    readStdinMessages h s chunks = readStdinMessages h s [chunks.flatten] ∧
    (readStdinMessages h s chunks).failures.length ≤ 1 ∧
    ((readStdinMessages h s chunks).failures ≠ [] ↔ Faulty h s chunks.flatten) ∧
    ((readStdinMessages h s chunks).failures = [] →
      (readStdinMessages h s chunks).delivered =
        (terminated newline chunks.flatten).flatMap (lineMessages h)) ∧
    ((∀ part ∈ chunks.flatten.splitOn newline, part.length ≤ maxWorkerMessageLine) →
      ∀ failure ∈ (readStdinMessages h s chunks).failures, failure.2 = .malformed) := by
  have hflatten := readStdinMessages_flatten (h := h) s chunks
  refine ⟨hflatten, ?_⟩
  rw [hflatten, readStdinMessages_one]
  by_cases hfaulty : Faulty h s chunks.flatten
  · obtain ⟨line, fault, hfailures, hlimit⟩ :=
      readLines_faulty chunks.flatten (r := { state := s }) rfl hfaulty
    rw [hfailures]
    refine ⟨by simp, by simp [hfaulty], by simp, fun hshort failure hmem => ?_⟩
    obtain rfl := List.mem_singleton.mp hmem
    cases fault with
    | malformed => rfl
    | lineLimit =>
      obtain ⟨part, hpart, hlong⟩ := hlimit rfl
      exact absurd (hshort part hpart) (Nat.not_le.mpr hlong)
  · rw [readLines_sound chunks.flatten (r := { state := s }) rfl hfaulty]
    simp [hfaulty]

/-! ## Two exceptions

An empty line is no JSON text and is passed over; blanks without an end of line are no line and may
still be too many. -/

/-- The faults of a text with every line in it, and of the rest only that it is not blank. -/
def LineFault {σ μ : Type*} (h : MessageHandler σ μ) (s : σ) (text : List CodeUnit) : Prop :=
  (∃ before line after, terminated newline text = before ++ line :: after ∧
    (maxWorkerMessageLine < line.length ∨ h.parse line = none ∨
      ∃ message, h.parse line = some message ∧
        (h.handle (before.foldl (lineState h) s) message).2 = false)) ∨
  isBlankInput (remainder newline text) = false

/-- A handler that accepts nothing, with a parser that reads no empty or blank text. -/
def refusing : MessageHandler Unit Unit where
  parse text := if isBlankInput text then none else some ()
  handle _ _ := ((), false)

theorem stdin_not_lineFault :
    ¬((readStdinMessages refusing () [[newline]]).failures ≠ [] ↔
        LineFault refusing () [newline]) ∧
      ¬((readStdinMessages refusing () [List.replicate (maxWorkerMessageLine + 1) 0x20]).failures ≠
          [] ↔ LineFault refusing () (List.replicate (maxWorkerMessageLine + 1) 0x20)) := by
  have hempty : terminated newline [newline] = [[]] ∧ remainder newline [newline] = [] := by decide
  have hblanks : newline ∉ List.replicate (maxWorkerMessageLine + 1) (0x20 : CodeUnit) := by
    simp [newline]
  constructor
  · have hline : LineFault refusing () [newline] :=
      .inl ⟨[], [], [], hempty.1, .inr (.inl rfl)⟩
    have hread : (readStdinMessages refusing () [[newline]]).failures = [] := by
      have hsound : ¬Faulty refusing () [newline] := by
        have hiff : Faulty refusing () [newline] ↔ _ := faulty_line List.not_mem_nil []
        rw [hiff, faulty_unfinished List.not_mem_nil]
        simp [BadLine, isBlankInput]
      rw [readStdinMessages_one, readLines_sound [newline] (r := { state := () }) rfl hsound]
    simp [hread, hline]
  · have hfault : Faulty refusing () (List.replicate (maxWorkerMessageLine + 1) 0x20) := by
      rw [faulty_unfinished hblanks]
      exact .inl (by simp)
    obtain ⟨line, fault, hread, -⟩ := readLines_faulty _ (r := { state := () }) rfl hfault
    have hspace : isSpace (Char.ofNat 32) = true := by decide
    rw [readStdinMessages_one, hread, LineFault, terminated_of_notMem hblanks,
      remainder_of_notMem hblanks]
    simp [isBlankInput, hspace]

end MoMiner.Controller
