import MoMiner.Controller.Stdin
import MoMiner.Js.Value

/-!
# The output of a worker process

A worker that was spawned without a channel writes messages and plain lines on its standard output.
The handler of `createSubprocessThread` keeps the unfinished line between chunks. A line that is a
message has a limit when it is complete, a plain line has one only while it is unfinished, and a
malformed message drops everything that is buffered.

**Main results.** Two ways of cutting a text into chunks give the same messages and the same verdict
when no plain line is longer than the limit of unfinished ones and, once the worker was asked to
close, no message is malformed and no unfinished line too long (`stdout_chunks`). A long plain line
is a failure only if a chunk ends in it (`stdout_chunks_fail`).
-/

namespace MoMiner.Controller

open MoMiner.Js MoMiner.Lines

/-! ## Lines -/

def workerMessagePrefix : List CodeUnit := ascii "MOM_WORKER_MESSAGE "

def maxPearlProofBytes : ℕ := 8 * 1024 * 1024

def maxPearlProofBase64 : ℕ := (maxPearlProofBytes + 2) / 3 * 4

def maxProofEventOverhead : ℕ := 64 * 1024

def maxWorkerProofLine : ℕ := maxPearlProofBase64 + maxProofEventOverhead

/-- What the handler needs of the language and of its caller: `JSON.parse`, and whether the message
handler, having got some messages, has asked this worker to close. -/
structure WorkerHost where
  parse : List CodeUnit → Option Json
  asksClose : List Json → Bool

/-- `isWorkerEvent(value) && value.thread_id === i`. -/
def isEventOf (i : ℕ) (value : Json) : Bool :=
  value.isObject && (value.object? "value").isSome && (value.text? "type").isSome &&
    (((value.get? "thread_id").bind Json.num?).bind Number.safeNat?) == some i

/-- Whether a long line is the result of a search with a proof, and short without the proof. -/
def proofFits (length : ℕ) (message : Json) : Bool :=
  match (message.get? "value").bind (·.text? "plain_proof") with
  | none => false
  | some proof => message.text? "type" == some "result" &&
      jsLength proof ≤ maxPearlProofBase64 && length - jsLength proof ≤ maxProofEventOverhead

/-- What a complete line is. -/
inductive LineKind
  | plain
  | malformed
  | invalid
  | tooLong
  | message (value : Json)

def isProtocol (text : List CodeUnit) : Bool := workerMessagePrefix.isPrefixOf text

def lineKind (host : WorkerHost) (i : ℕ) (line : List CodeUnit) : LineKind :=
  if !isProtocol line then .plain
  else if maxWorkerProofLine < line.length then .malformed
  else match host.parse (line.drop workerMessagePrefix.length) with
    | none => .malformed
    | some value =>
      if !isEventOf i value then .invalid
      else if maxWorkerMessageLine < line.length && !proofFits line.length value then .tooLong
      else .message value

/-- The limit of an unfinished line. -/
def pendingLimit (output : List CodeUnit) : ℕ :=
  if isProtocol output then maxWorkerProofLine else maxWorkerMessageLine

/-! ## The handler -/

/-- The variables of `createSubprocessThread`, and what was done so far: `closing` is
`expectedWorkerCloses.has(thread)`. -/
structure WorkerReader where
  output : List CodeUnit := []
  failureReported : Bool := false
  closing : Bool := false
  delivered : List Json := []
  failures : ℕ := 0

def WorkerReader.failWorker (r : WorkerReader) : WorkerReader :=
  if r.failureReported || r.closing then r
  else { r with failureReported := true, closing := true, failures := r.failures + 1 }

section

variable (host : WorkerHost) (i : ℕ)

/-- Hand a message on. -/
def WorkerReader.deliver (r : WorkerReader) (value : Json) : WorkerReader :=
  { r with
    delivered := r.delivered ++ [value]
    closing := r.closing || host.asksClose (r.delivered ++ [value]) }

/-- The loop over the lines. -/
def takeLines (r : WorkerReader) : WorkerReader :=
  match _ht : takeLine r.output with
  | none => r
  | some (line, rest) =>
    match lineKind host i line with
    | .plain => takeLines { r with output := rest }
    | .malformed =>
      if r.failureReported then takeLines { r with output := rest }
      -- The rest of the buffer is dropped with the line.
      else { r.failWorker with output := [] }
    | .invalid | .tooLong =>
      if r.failureReported then takeLines { r with output := rest }
      else takeLines { r.failWorker with output := rest }
    | .message value =>
      if r.failureReported then takeLines { r with output := rest }
      else takeLines { r.deliver host value with output := rest }
termination_by r.output.length
decreasing_by all_goals exact length_of_takeLine ‹_›

/-- The limit for what is left. -/
def checkPending (r : WorkerReader) : WorkerReader :=
  if pendingLimit r.output < r.output.length then { r.failWorker with output := [] } else r

/-- What happens to a reader: a chunk of output arrives, or the worker is asked to close. -/
inductive StdoutEvent
  | data (chunk : List CodeUnit)
  | closeRequest

def WorkerReader.step (r : WorkerReader) : StdoutEvent → WorkerReader
  | .data chunk => checkPending (takeLines host i { r with output := r.output ++ chunk })
  | .closeRequest => { r with closing := true }

def runStdout (r : WorkerReader) (events : List StdoutEvent) : WorkerReader :=
  events.foldl (WorkerReader.step host i) r

/-- The events of a text in chunks, with a request to close between two segments. -/
def stdoutEvents : List (List (List CodeUnit)) → List StdoutEvent
  | [] => []
  | [chunks] => chunks.map .data
  | chunks :: segments => chunks.map .data ++ .closeRequest :: stdoutEvents segments

/-- What is compared of two runs: the messages, and how often the worker was failed. -/
def verdict (r : WorkerReader) : List Json × ℕ := (r.delivered, r.failures)

/-! ## Texts without a defect -/

/-- What the lines so far have made of a worker, wherever the chunks ended. -/
structure Progress where
  delivered : List Json := []
  closing : Bool := false
  failed : Bool := false

/-- What a text brings in turn: its complete lines, what is unfinished at the end of a segment, and
a request to close. -/
inductive StdoutItem
  | line (text : List CodeUnit)
  | unfinished (text : List CodeUnit)
  | closeRequest

def Progress.fail (p : Progress) : Progress :=
  if p.closing then p else { p with failed := true, closing := true }

def Progress.next (p : Progress) : StdoutItem → Progress
  | .line text =>
    match lineKind host i text with
    | .plain => p
    | .message value =>
      { p with
        delivered := p.delivered ++ [value]
        closing := p.closing || host.asksClose (p.delivered ++ [value]) }
    | _ => p.fail
  | .unfinished text => if pendingLimit text < text.length then p.fail else p
  | .closeRequest => { p with closing := true }

/-- A line that is treated the same wherever chunks end: a plain one within the limit of unfinished
lines, and any other but a malformed message after a request to close. -/
def LineKind.Sound (closing : Bool) (length : ℕ) : LineKind → Prop
  | .plain => length ≤ maxWorkerMessageLine
  | .malformed => closing = false
  | _ => True

instance LineKind.decidableSound (closing : Bool) (length : ℕ) :
    (kind : LineKind) → Decidable (kind.Sound closing length)
  | .plain => inferInstanceAs (Decidable (_ ≤ _))
  | .malformed => inferInstanceAs (Decidable (_ = _))
  | .invalid | .tooLong | .message _ => .isTrue trivial

/-- After a request to close, what is unfinished may not be too long. -/
def Progress.Sound (p : Progress) : StdoutItem → Prop
  | .line text => (lineKind host i text).Sound p.closing text.length
  | .unfinished text => p.closing = true → text.length ≤ pendingLimit text
  | .closeRequest => True

instance Progress.decidableSound (p : Progress) :
    (item : StdoutItem) → Decidable (p.Sound host i item)
  | .line text => inferInstanceAs (Decidable ((lineKind host i text).Sound p.closing text.length))
  | .unfinished _ => inferInstanceAs (Decidable (_ = true → _))
  | .closeRequest => .isTrue trivial

/-- Every item up to a failure is sound. -/
def Sound : Progress → List StdoutItem → Prop
  | _, [] => True
  | p, item :: items => p.failed = true ∨ p.Sound host i item ∧ Sound (p.next host i item) items

instance decidableSound :
    (p : Progress) → (items : List StdoutItem) → Decidable (Sound host i p items)
  | _, [] => .isTrue trivial
  | p, item :: items =>
    have := decidableSound (p.next host i item) items
    inferInstanceAs (Decidable (_ ∨ _ ∧ _))

end

/-- The items of one segment, after an unfinished line. -/
def segmentItems (pending segment : List CodeUnit) : List StdoutItem :=
  (terminated newline (pending ++ segment)).map .line ++
    [.unfinished (remainder newline (pending ++ segment))]

/-- The items of the segments of a text. -/
def stdoutItems : List CodeUnit → List (List CodeUnit) → List StdoutItem
  | _, [] => []
  | pending, [segment] => segmentItems pending segment
  | pending, segment :: segments =>
    segmentItems pending segment ++
      .closeRequest :: stdoutItems (remainder newline (pending ++ segment)) segments

/-! ## The loop -/

theorem takeLines_unfinished {host : WorkerHost} {i : ℕ} (r : WorkerReader) {text : List CodeUnit}
    (hnot : newline ∉ text) :
    takeLines host i { r with output := text } = { r with output := text } := by
  rw [takeLines]
  split
  · rfl
  · rename_i ht
    rw [takeLine_of_notMem hnot] at ht
    cases ht

section

variable {host : WorkerHost} {i : ℕ}

/-- Failing a worker does not look at its output. -/
theorem failWorker_output (r : WorkerReader) (text rest : List CodeUnit) :
    { ({ r with output := text }).failWorker with output := rest } =
      { r.failWorker with output := rest } := by
  rw [WorkerReader.failWorker, WorkerReader.failWorker]
  split_ifs <;> rfl

/-- The reader after a line was taken. -/
theorem takeLines_line (r : WorkerReader) {first : List CodeUnit} (hnot : newline ∉ first)
    (rest : List CodeUnit) : takeLines host i { r with output := first ++ newline :: rest } =
      match lineKind host i first with
      | .plain => takeLines host i { r with output := rest }
      | .malformed =>
        if r.failureReported then takeLines host i { r with output := rest }
        else { r.failWorker with output := [] }
      | .invalid | .tooLong =>
        if r.failureReported then takeLines host i { r with output := rest }
        else takeLines host i { r.failWorker with output := rest }
      | .message value =>
        if r.failureReported then takeLines host i { r with output := rest }
        else takeLines host i { r.deliver host value with output := rest } := by
  rw [takeLines]
  split
  · rename_i ht
    rw [takeLine_line hnot] at ht
    cases ht
  · rename_i ht
    rw [takeLine_line hnot] at ht
    cases ht
    cases lineKind host i first with
    | plain => rfl
    | malformed => simp only [failWorker_output]
    | invalid => simp only [failWorker_output]
    | tooLong => simp only [failWorker_output]
    | message value => rfl

/-- After a failure the lines are taken and nothing else. -/
theorem takeLines_failed {r : WorkerReader} (hr : r.failureReported = true)
    (text : List CodeUnit) :
    takeLines host i { r with output := text } =
      { r with output := remainder newline text } := by
  induction text using lines_induction (s := newline) with
  | unfinished text hnot => rw [takeLines_unfinished r hnot, remainder_of_notMem hnot]
  | line first rest hnot ih =>
    rw [takeLines_line r hnot, remainder_line hnot]
    cases lineKind host i first <;> simpa only [hr, if_true] using ih

/-! ## Lines that are too long before they end -/

/-- What makes an unfinished line too long makes every line that begins with it a long plain line or
a malformed message. -/
theorem overlong_start {text : List CodeUnit} (h : pendingLimit text < text.length)
    (more : List CodeUnit) :
    pendingLimit (text ++ more) < (text ++ more).length ∧
      (lineKind host i (text ++ more) = .malformed ∨
        lineKind host i (text ++ more) = .plain ∧
          maxWorkerMessageLine < (text ++ more).length) := by
  have hlength : text.length ≤ (text ++ more).length := by simp
  cases hprotocol : isProtocol text with
  | true =>
    have hmore : isProtocol (text ++ more) = true := by
      rw [isProtocol, List.isPrefixOf_iff_prefix] at hprotocol ⊢
      exact hprotocol.trans (List.prefix_append text more)
    rw [pendingLimit, if_pos hprotocol] at h
    rw [pendingLimit, if_pos hmore]
    have hlong := h.trans_le hlength
    exact ⟨hlong, .inl (by rw [lineKind, if_neg (by simp [hmore]), if_pos hlong])⟩
  | false =>
    rw [pendingLimit, if_neg (by simp [hprotocol])] at h
    have hmore : isProtocol (text ++ more) = false := by
      by_contra hprefix
      rw [Bool.not_eq_false, isProtocol, List.isPrefixOf_iff_prefix] at hprefix
      -- A text that is too long for a plain line is longer than the prefix of a message.
      have hshort : workerMessagePrefix.length ≤ text.length :=
        le_trans (by decide) h.le
      have hprefix' := List.prefix_of_prefix_length_le hprefix (List.prefix_append text more) hshort
      rw [← List.isPrefixOf_iff_prefix, ← isProtocol, hprotocol] at hprefix'
      cases hprefix'
    rw [pendingLimit, if_neg (by simp [hmore])]
    have hlong := h.trans_le hlength
    exact ⟨hlong, .inr ⟨by simp [lineKind, hmore], hlong⟩⟩

/-! ## One segment -/

/-- The items of a text until one fails the worker. -/
def Progress.settle (host : WorkerHost) (i : ℕ) (p : Progress) (items : List StdoutItem) :
    Progress :=
  items.foldl (fun p item => if p.failed then p else p.next host i item) p

theorem settle_failed {p : Progress} (hp : p.failed = true) (items : List StdoutItem) :
    p.settle host i items = p := by
  induction items with
  | nil => rfl
  | cons item items ih =>
    rw [Progress.settle, List.foldl_cons, if_pos hp]
    exact ih

theorem settle_cons {p : Progress} (hp : p.failed = false) (item : StdoutItem)
    (items : List StdoutItem) :
    p.settle host i (item :: items) = (p.next host i item).settle host i items := by
  rw [Progress.settle, List.foldl_cons, if_neg (by simp [hp])]
  rfl

theorem settle_append (p : Progress) (items more : List StdoutItem) :
    p.settle host i (items ++ more) = (p.settle host i items).settle host i more :=
  List.foldl_append

theorem sound_append (p : Progress) (items more : List StdoutItem) :
    Sound host i p (items ++ more) ↔
      Sound host i p items ∧ Sound host i (p.settle host i items) more := by
  induction items generalizing p with
  | nil => simp [Sound, Progress.settle]
  | cons item items ih =>
    cases hp : p.failed with
    | true =>
      rw [settle_failed hp]
      cases more <;> simp [Sound, hp]
    | false =>
      rw [settle_cons hp, List.cons_append, Sound, Sound, ih]
      simp [hp, and_assoc]

/-- The reader has come as far as the items. -/
structure Follows (r : WorkerReader) (p : Progress) : Prop where
  failed : r.failureReported = p.failed
  delivered : r.delivered = p.delivered
  failures : r.failures = if p.failed then 1 else 0
  closing : p.failed = false → r.closing = p.closing

theorem Follows.verdict {r : WorkerReader} {p : Progress} (h : Follows r p) :
    verdict r = (p.delivered, if p.failed then 1 else 0) := by
  rw [Controller.verdict, h.delivered, h.failures]

theorem Follows.failWorker {r : WorkerReader} {p : Progress} (h : Follows r p)
    (hp : p.failed = false) : Follows r.failWorker p.fail := by
  have hr : r.failureReported = false := h.failed.trans hp
  have hclosing := h.closing hp
  rw [WorkerReader.failWorker, Progress.fail, hr, hclosing, Bool.false_or]
  split_ifs with hclose
  · exact h
  · exact ⟨rfl, h.delivered, by simp [h.failures, hp], nofun⟩

/-- The output of a reader says nothing about how far it has come. -/
theorem Follows.output {r : WorkerReader} {p : Progress} (h : Follows r p)
    (text : List CodeUnit) : Follows { r with output := text } p :=
  ⟨h.failed, h.delivered, h.failures, h.closing⟩

theorem Follows.deliver {r : WorkerReader} {p : Progress} (h : Follows r p)
    (hp : p.failed = false) (value : Json) : Follows (r.deliver host value)
      { p with
        delivered := p.delivered ++ [value]
        closing := p.closing || host.asksClose (p.delivered ++ [value]) } :=
  ⟨h.failed, by simp [WorkerReader.deliver, h.delivered], h.failures, fun _ => by
    simp [WorkerReader.deliver, h.delivered, h.closing hp]⟩

/-- Nothing follows a failure. -/
theorem Follows.run_failed {p : Progress} (hp : p.failed = true) (events : List StdoutEvent)
    {r : WorkerReader} (h : Follows r p) : Follows (runStdout host i r events) p := by
  induction events generalizing r with
  | nil => exact h
  | cons event events ih =>
    refine ih ?_
    cases event with
    | closeRequest => exact ⟨h.failed, h.delivered, h.failures, by simp [hp]⟩
    | data chunk =>
      have hr : r.failureReported = true := h.failed.trans hp
      rw [WorkerReader.step, takeLines_failed hr, checkPending, WorkerReader.failWorker]
      split_ifs with _ hfail
      · exact h.output _
      · exact absurd (by simp [hr]) hfail
      · exact h.output _

/-- The loop follows the lines of what is buffered. -/
theorem Follows.takeLines (text : List CodeUnit) {r : WorkerReader} {p : Progress}
    (h : Follows r p) (hp : p.failed = false)
    (hsound : Sound host i p ((terminated newline text).map .line)) :
    Follows (takeLines host i { r with output := text })
        (p.settle host i ((terminated newline text).map .line)) ∧
      ((p.settle host i ((terminated newline text).map .line)).failed = false →
        (Controller.takeLines host i { r with output := text }).output =
          remainder newline text) := by
  induction text using lines_induction (s := newline) generalizing r p with
  | unfinished text hnot =>
    rw [takeLines_unfinished r hnot, terminated_of_notMem hnot, remainder_of_notMem hnot]
    exact ⟨h.output text, fun _ => rfl⟩
  | line first rest hnot ih =>
    have hr : r.failureReported = false := h.failed.trans hp
    rw [terminated_line hnot, List.map_cons] at hsound ⊢
    rw [remainder_line hnot, settle_cons hp, takeLines_line r hnot]
    obtain ⟨hline, hrest⟩ := hsound.resolve_left (by simp [hp])
    -- A failed line that does not drop the buffer.
    have hfail (hnext : p.next host i (.line first) = p.fail) :
        Follows (Controller.takeLines host i { r.failWorker with output := rest })
            ((p.next host i (.line first)).settle host i ((terminated newline rest).map .line)) ∧
          (((p.next host i (.line first)).settle host i
              ((terminated newline rest).map .line)).failed = false →
            (Controller.takeLines host i { r.failWorker with output := rest }).output =
              remainder newline rest) := by
      rw [hnext] at hrest ⊢
      cases hp' : p.fail.failed with
      | false => exact ih (h.failWorker hp) hp' hrest
      | true =>
        rw [settle_failed hp', takeLines_failed ((h.failWorker hp).failed.trans hp')]
        exact ⟨(h.failWorker hp).output _, fun _ => rfl⟩
    cases hkind : lineKind host i first with
    | plain =>
      have hnext : p.next host i (.line first) = p := by simp [Progress.next, hkind]
      rw [hnext] at hrest ⊢
      exact ih h hp hrest
    | message value =>
      simp only [hr, Bool.false_eq_true, if_false]
      simp only [Progress.next, hkind] at hrest ⊢
      exact ih (h.deliver hp value) hp hrest
    | invalid =>
      simp only [hr, Bool.false_eq_true, if_false]
      exact hfail (by simp [Progress.next, hkind])
    | tooLong =>
      simp only [hr, Bool.false_eq_true, if_false]
      exact hfail (by simp [Progress.next, hkind])
    | malformed =>
      simp only [hr, Bool.false_eq_true, if_false]
      have hnext : p.next host i (.line first) = p.fail := by simp [Progress.next, hkind]
      have hclosing : p.closing = false := by
        simpa [Progress.Sound, LineKind.Sound, hkind] using hline
      have hfailed : p.fail.failed = true := by simp [Progress.fail, hclosing]
      rw [hnext, settle_failed hfailed]
      exact ⟨(h.failWorker hp).output [], by simp [hfailed]⟩

/-- Two pieces of a segment. -/
theorem segmentItems_append (pending first second : List CodeUnit) :
    segmentItems pending (first ++ second) =
      (terminated newline (pending ++ first)).map .line ++
        segmentItems (remainder newline (pending ++ first)) second := by
  rw [segmentItems, segmentItems, ← List.append_assoc, terminated_append (pending ++ first),
    remainder_append (pending ++ first), List.map_append, List.append_assoc]

/-- What is too long when a chunk ends fails the worker where it ends. -/
theorem settle_overlong {p : Progress} (hp : p.failed = false) {pending : List CodeUnit}
    (hnot : newline ∉ pending) (hlong : pendingLimit pending < pending.length)
    (segment : List CodeUnit) (hsound : Sound host i p (segmentItems pending segment)) :
    p.closing = false ∧ p.settle host i (segmentItems pending segment) = p.fail := by
  have hstop {item : StdoutItem} {items : List StdoutItem} (hclosing : p.closing = false)
      (hnext : p.next host i item = p.fail) :
      p.closing = false ∧ p.settle host i (item :: items) = p.fail := by
    have hfailed : p.fail.failed = true := by simp [Progress.fail, hclosing]
    rw [settle_cons hp, hnext, settle_failed hfailed]
    exact ⟨hclosing, rfl⟩
  induction segment using lines_induction (s := newline) with
  | unfinished text htext =>
    have hboth : newline ∉ pending ++ text := by simp [hnot, htext]
    rw [segmentItems, terminated_of_notMem hboth, remainder_of_notMem hboth] at hsound ⊢
    obtain ⟨hitem, -⟩ := hsound.resolve_left (by simp [hp])
    have hlimit := (@overlong_start host i _ hlong text).1
    refine hstop ?_ (by rw [Progress.next, if_pos hlimit])
    by_contra hclosing
    exact absurd (hitem (by simpa using hclosing)) (by omega)
  | line first rest hfirst _ =>
    have hboth : newline ∉ pending ++ first := by simp [hnot, hfirst]
    rw [segmentItems, ← List.append_assoc, terminated_line hboth] at hsound ⊢
    obtain ⟨hitem, -⟩ := hsound.resolve_left (by simp [hp])
    rcases (@overlong_start host i _ hlong first).2 with hkind | ⟨hkind, hlimit⟩
    · refine hstop ?_ (by simp [Progress.next, hkind])
      simpa [Progress.Sound, LineKind.Sound, hkind] using hitem
    · simp only [Progress.Sound, LineKind.Sound, hkind] at hitem
      exact absurd hitem (by omega)

/-- Chunks of one segment are followed to its end. -/
theorem Follows.segment (chunks : List (List CodeUnit)) {r : WorkerReader} {p : Progress}
    {pending : List CodeUnit} (h : Follows r p) (hp : p.failed = false)
    (houtput : r.output = pending) (hnot : newline ∉ pending)
    (hshort : pending.length ≤ pendingLimit pending)
    (hsound : Sound host i p (segmentItems pending chunks.flatten)) :
    Follows (runStdout host i r (chunks.map .data))
        (p.settle host i (segmentItems pending chunks.flatten)) ∧
      ((p.settle host i (segmentItems pending chunks.flatten)).failed = false →
        (runStdout host i r (chunks.map .data)).output =
            remainder newline (pending ++ chunks.flatten) ∧
          (remainder newline (pending ++ chunks.flatten)).length ≤
            pendingLimit (remainder newline (pending ++ chunks.flatten))) := by
  induction chunks generalizing r p pending with
  | nil =>
    have hstay : p.settle host i (segmentItems pending []) = p := by
      rw [segmentItems, List.append_nil, terminated_of_notMem hnot, remainder_of_notMem hnot]
      simp [Progress.settle, Progress.next, hp, hshort]
    rw [List.flatten_nil, hstay, List.append_nil, remainder_of_notMem hnot]
    exact ⟨h, fun _ => ⟨houtput, hshort⟩⟩
  | cons chunk chunks ih =>
    rw [List.flatten_cons, segmentItems_append] at hsound ⊢
    obtain ⟨hlines, hrest⟩ := (sound_append _ _ _).mp hsound
    rw [settle_append, ← List.append_assoc, remainder_append (pending ++ chunk)]
    obtain ⟨hfollows, hremainder⟩ := h.takeLines (pending ++ chunk) hp hlines
    have hrun : runStdout host i r ((chunk :: chunks).map .data) =
        runStdout host i
          (checkPending (Controller.takeLines host i { r with output := pending ++ chunk }))
          (chunks.map .data) := by
      rw [← houtput]
      rfl
    rw [hrun]
    generalize p.settle host i ((terminated newline (pending ++ chunk)).map .line) = p' at *
    generalize Controller.takeLines host i { r with output := pending ++ chunk } = r' at *
    have hbuffered := @notMem_remainder _ _ newline (pending ++ chunk)
    generalize remainder newline (pending ++ chunk) = buffered at *
    cases hp' : p'.failed with
    | true =>
      have hcheck : Follows (checkPending r') p' := by
        rw [checkPending, WorkerReader.failWorker, hfollows.failed, hp', Bool.true_or, if_pos rfl]
        split_ifs
        · exact hfollows.output []
        · exact hfollows
      rw [settle_failed hp']
      exact ⟨hcheck.run_failed hp' _, by simp [hp']⟩
    | false =>
      have hbuffer := hremainder hp'
      by_cases hlong : pendingLimit buffered < buffered.length
      · obtain ⟨hclosing, hsettle⟩ := settle_overlong hp' hbuffered hlong _ hrest
        have hfailed : p'.fail.failed = true := by simp [Progress.fail, hclosing]
        rw [hsettle, checkPending, hbuffer, if_pos hlong]
        exact ⟨((hfollows.failWorker hp').output []).run_failed hfailed _, by simp [hfailed]⟩
      · rw [checkPending, hbuffer, if_neg hlong]
        exact ih hfollows hp' hbuffer hbuffered (by omega) hrest

/-! ## Segments -/

theorem Follows.segments (splits : List (List (List CodeUnit))) {r : WorkerReader} {p : Progress}
    {pending : List CodeUnit} (h : Follows r p) (hp : p.failed = false)
    (houtput : r.output = pending) (hnot : newline ∉ pending)
    (hshort : pending.length ≤ pendingLimit pending)
    (hsound : Sound host i p (stdoutItems pending (splits.map List.flatten))) :
    Follows (runStdout host i r (stdoutEvents splits))
      (p.settle host i (stdoutItems pending (splits.map List.flatten))) := by
  induction splits generalizing r p pending with
  | nil => exact h
  | cons chunks splits ih =>
    cases splits with
    | nil => exact (h.segment chunks hp houtput hnot hshort hsound).1
    | cons next splits =>
      obtain ⟨hsegment, hrest⟩ := (sound_append _ _ _).mp hsound
      obtain ⟨hfollows, hremainder⟩ := h.segment chunks hp houtput hnot hshort hsegment
      have hrun : runStdout host i r (stdoutEvents (chunks :: next :: splits)) =
          runStdout host i (runStdout host i r (chunks.map .data))
            (.closeRequest :: stdoutEvents (next :: splits)) := List.foldl_append
      have hitems : stdoutItems pending ((chunks :: next :: splits).map List.flatten) =
          segmentItems pending chunks.flatten ++ .closeRequest ::
            stdoutItems (remainder newline (pending ++ chunks.flatten))
              ((next :: splits).map List.flatten) := rfl
      rw [hrun, hitems, settle_append]
      generalize runStdout host i r (chunks.map .data) = r' at *
      generalize p.settle host i (segmentItems pending chunks.flatten) = p' at *
      cases hp' : p'.failed with
      | true =>
        rw [settle_failed hp']
        exact hfollows.run_failed hp' _
      | false =>
        obtain ⟨hbuffer, hshort'⟩ := hremainder hp'
        obtain ⟨-, hlater⟩ := hrest.resolve_left (by simp [hp'])
        rw [settle_cons hp']
        exact ih (r := r'.step host i .closeRequest) (p := p'.next host i .closeRequest)
          ⟨hfollows.failed, hfollows.delivered, hfollows.failures, fun _ => rfl⟩ hp' hbuffer
          (notMem_remainder _) hshort' hlater

end

/-- **Chunks do not matter for a sound text**: two ways of cutting it, with the requests to close at
the same places, give the same messages and the same verdict, and the worker is failed at most
once. -/
theorem stdout_chunks (host : WorkerHost) (i : ℕ) (splits splits' : List (List (List CodeUnit)))
    (htext : splits.map List.flatten = splits'.map List.flatten)
    (hsound : Sound host i {} (stdoutItems [] (splits.map List.flatten))) :
    verdict (runStdout host i {} (stdoutEvents splits)) =
        verdict (runStdout host i {} (stdoutEvents splits')) ∧
      (runStdout host i {} (stdoutEvents splits)).failures ≤ 1 := by
  have hstart : Follows {} {} := ⟨rfl, rfl, rfl, fun _ => rfl⟩
  have hfirst := hstart.segments splits rfl rfl (by simp) (by simp) hsound
  have hsecond := hstart.segments splits' rfl rfl (by simp) (by simp) (htext ▸ hsound)
  refine ⟨by rw [hfirst.verdict, hsecond.verdict, htext], ?_⟩
  rw [hfirst.failures]
  split_ifs <;> omega

/-- A host that parses nothing and never asks to close. -/
def silentHost : WorkerHost := ⟨fun _ => none, fun _ => false⟩

theorem stdout_chunks_short :
    verdict (runStdout silentHost 0 {} (stdoutEvents [[ascii "hi\nyou"]])) =
        verdict (runStdout silentHost 0 {} (stdoutEvents [[ascii "h", ascii "i\ny", ascii "ou"]])) ∧
      (runStdout silentHost 0 {} (stdoutEvents [[ascii "hi\nyou"]])).failures ≤ 1 :=
  stdout_chunks silentHost 0 [[ascii "hi\nyou"]] [[ascii "h", ascii "i\ny", ascii "ou"]] (by decide)
    (by decide)

/-- A long plain line at once, and cut before its end. -/
theorem failures_of_long {text : List CodeUnit} (hnot : newline ∉ text)
    (hplain : isProtocol text = false) (hlong : maxWorkerMessageLine < text.length) :
    (runStdout silentHost 0 {} (stdoutEvents [[text ++ [newline]]])).failures = 0 ∧
      (runStdout silentHost 0 {} (stdoutEvents [[text, [newline]]])).failures = 1 := by
  have hone : runStdout silentHost 0 {} (stdoutEvents [[text ++ [newline]]]) =
      checkPending (takeLines silentHost 0 { output := text ++ [newline] }) := rfl
  have htwo : runStdout silentHost 0 {} (stdoutEvents [[text, [newline]]]) =
      runStdout silentHost 0 (checkPending (takeLines silentHost 0 { output := text }))
        [.data [newline]] := rfl
  have hnothing : takeLines silentHost 0 {} = {} :=
    @takeLines_unfinished silentHost 0 {} [] List.not_mem_nil
  have hkind : lineKind silentHost 0 text = .plain := by
    rw [lineKind, hplain]
    rfl
  have hwhole := @takeLines_line silentHost 0 {} text hnot []
  have hcut := @takeLines_unfinished silentHost 0 {} text hnot
  rw [hkind] at hwhole
  refine ⟨?_, ?_⟩
  · rw [hone, hwhole, hnothing]
    rfl
  · have hpending : pendingLimit text < text.length := by
      rwa [pendingLimit, hplain]
    have hfailed : Follows (WorkerReader.failWorker { output := text }) { failed := true } :=
      ⟨rfl, rfl, rfl, nofun⟩
    rw [htwo, hcut, checkPending, if_pos hpending]
    exact ((hfailed.output []).run_failed rfl _).failures

/-- A plain line that is one code unit longer than the limit of unfinished lines. -/
def longPlainLine : List CodeUnit := List.replicate (maxWorkerMessageLine + 1) 0x78

/-- **A long plain line fails a worker only if a chunk ends in it.** -/
theorem stdout_chunks_fail : ¬ ∀ (host : WorkerHost) (i : ℕ)
    (splits splits' : List (List (List CodeUnit))),
    splits.map List.flatten = splits'.map List.flatten →
      verdict (runStdout host i {} (stdoutEvents splits)) =
        verdict (runStdout host i {} (stdoutEvents splits')) := by
  intro h
  have hnot : newline ∉ longPlainLine := by
    intro hmem
    cases List.eq_of_mem_replicate hmem
  have hplain : isProtocol longPlainLine = false := by
    rw [longPlainLine, List.replicate_succ]
    rfl
  have hlong : maxWorkerMessageLine < longPlainLine.length := by
    rw [longPlainLine, List.length_replicate]
    exact Nat.lt_succ_self maxWorkerMessageLine
  have hfailures := failures_of_long hnot hplain hlong
  have hsame := h silentHost 0 [[longPlainLine ++ [newline]]] [[longPlainLine, [newline]]] (by simp)
  rw [verdict, verdict, hfailures.1, hfailures.2] at hsame
  cases (Prod.mk.inj hsame).2

end MoMiner.Controller
