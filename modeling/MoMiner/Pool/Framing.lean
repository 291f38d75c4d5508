import MoMiner.Js.Text
import MoMiner.Js.Value
import MoMiner.Lib.Lines

/-!
# The lines of a pool connection

A pool sends one JSON message a line, in chunks that TCP cuts anywhere. `poolDataHandler` of
`pool/connection.js` keeps the unfinished line between chunks and hands every finished one to
`handlePoolLines`, which stops when a line is malformed, its handler throws or the socket is no
longer the current one of the pool.

The lines are handled as if the whole text had arrived at once (`pool_framing`).
-/

namespace MoMiner.Pool

open MoMiner.Js MoMiner.Lines

/-! ## The handlers -/

/-- What handling the lines of a pool needs of the controller. Sockets are numbered as they are
opened; `connect_pool` never installs an old one. -/
structure LineHandler (σ : Type) where
  /-- The current socket of the pool. -/
  socket : σ → Option ℕ
  /-- How many sockets were opened so far. -/
  opened : σ → ℕ
  parsePoolLine : List Char → Option Json
  /-- `pool_message`, and whether it threw. -/
  poolMessage : σ → Json → σ × Bool
  /-- The body of `clear_pool_connection`. -/
  clear : σ → σ
  /-- `switchPool`, and whether it threw. -/
  switchPool : σ → σ × Bool
  message_opened : ∀ s json, opened s ≤ opened (poolMessage s json).1
  clear_socket : ∀ s, socket (clear s) = none
  clear_opened : ∀ s, opened s ≤ opened (clear s)
  switch_socket : ∀ s n, socket (switchPool s).1 = some n → socket s = some n ∨ opened s ≤ n

/-- How the lines of a chunk ended: all of them were handled, the rest was dropped, or the
exception of a failed pool switch left the handler. -/
inductive Ending
  | finished | stopped | crashed
  deriving DecidableEq, Repr

/-- The result of handling lines, with the lines that were parsed. -/
structure LinesResult (σ : Type) where
  state : σ
  ending : Ending
  parsed : List (List Char)

section

variable {σ : Type} (h : LineHandler σ) (n : ℕ)

/-- `isCurrentPoolSocket` of the connection with socket `n`. -/
def isCurrentPoolSocket (s : σ) : Prop := h.socket s = some n

instance (s : σ) : Decidable (isCurrentPoolSocket h n s) := inferInstanceAs (Decidable (_ = _))

/-- `poolErrorHandler`: close the connection and switch to another pool. -/
def poolErr (s : σ) : σ × Ending :=
  if isCurrentPoolSocket h n s then
    let (s', threw) := h.switchPool (h.clear s)
    (s', if threw then .crashed else .stopped)
  else (s, .stopped)

def isBlank (line : List Char) : Bool := trim line == []

/-- One line of the loop of `handlePoolLines`: the next state, and how the loop ends if it does. -/
def handlePoolLine (s : σ) (message : List Char) : σ × Option Ending :=
  if isBlank message then (s, none)
  else
    match h.parsePoolLine message with
    | none => ((poolErr h n s).1, some (poolErr h n s).2)
    | some json =>
      match h.poolMessage s json with
      | (s', true) => ((poolErr h n s').1, some (poolErr h n s').2)
      | (s', false) => (s', none)

def handlePoolLines (s : σ) : List (List Char) → LinesResult σ
  | [] => ⟨s, if isCurrentPoolSocket h n s then .finished else .stopped, []⟩
  | message :: messages =>
    if ¬isCurrentPoolSocket h n s then ⟨s, .stopped, []⟩
    else
      let parsed := if isBlank message then [] else [message]
      match handlePoolLine h n s message with
      | (s', some ending) => ⟨s', ending, parsed⟩
      | (s', none) =>
        let rest := handlePoolLines s' messages
        { rest with parsed := parsed ++ rest.parsed }

def splitPoolMessages (text : List Char) : List (List Char) × List Char :=
  let messages := text.splitOn '\n'
  if text.getLast? = some '\n' then (messages, []) else (messages.dropLast, messages.getLastD [])

/-- `Buffer.byteLength`: the length in UTF-8. -/
def byteLength (text : List Char) : ℕ := (text.map Char.utf8Size).sum

def maxPoolDataBuffer : ℕ := 1024 * 1024

/-- A data handler with its buffer, the state of the controller and the lines parsed so far. -/
structure Receiver (σ : Type) where
  buffer : List Char
  state : σ
  parsed : List (List Char)

/-- `readPoolData`: the buffer with the chunk, unless the connection is or gets closed. -/
def readPoolData (r : Receiver σ) (data : List Char) : σ × Option (List Char) :=
  if ¬isCurrentPoolSocket h n r.state then (r.state, none)
  else if byteLength (r.buffer ++ data) ≤ maxPoolDataBuffer then (r.state, some (r.buffer ++ data))
  else ((poolErr h n r.state).1, none)

def poolDataHandler (r : Receiver σ) (data : List Char) : Receiver σ :=
  match readPoolData h n r data with
  | (s, none) => { r with state := s }
  | (s, some next) =>
    if '\n' ∉ next then { r with buffer := next, state := s }
    else
      let (messages, incomplete) := splitPoolMessages next
      let result := handlePoolLines h n s messages
      { state := result.state
        parsed := r.parsed ++ result.parsed
        buffer := match result.ending with
          | .finished => incomplete
          | .stopped => []
          -- the exception skips the assignment
          | .crashed => next }

/-- The handler after a sequence of chunks. -/
def receive (r : Receiver σ) (chunks : List (List Char)) : Receiver σ :=
  chunks.foldl (poolDataHandler h n) r

/-- No chunk fills the buffer beyond its limit. -/
def WithinLimit (r : Receiver σ) : List (List Char) → Prop
  | [] => True
  | chunk :: chunks =>
    (isCurrentPoolSocket h n r.state → byteLength (r.buffer ++ chunk) ≤ maxPoolDataBuffer) ∧
      WithinLimit (poolDataHandler h n r chunk) chunks

end

/-! ## Handling lines in pieces -/

section

variable {σ : Type} {h : LineHandler σ} {n : ℕ} {s : σ}

/-- After an error the socket is not the current one. -/
theorem poolErr_closes (hn : n < h.opened s) : ¬isCurrentPoolSocket h n (poolErr h n s).1 := by
  unfold poolErr
  split_ifs with hcur
  · intro hc
    rcases h.switch_socket _ _ hc with hold | hnew
    · rw [h.clear_socket] at hold
      cases hold
    · have := h.clear_opened s
      omega
  · exact hcur

theorem poolErr_ending : (poolErr h n s).2 ≠ .finished := by
  unfold poolErr
  split_ifs
  · dsimp only
    split_ifs <;> simp
  · simp

/-- A line ends in the error handler or lets the loop go on. -/
theorem handlePoolLine_cases (s : σ) (message : List Char) :
    (∃ s₁, h.opened s ≤ h.opened s₁ ∧
      handlePoolLine h n s message = ((poolErr h n s₁).1, some (poolErr h n s₁).2)) ∨
    (∃ s₁, h.opened s ≤ h.opened s₁ ∧ handlePoolLine h n s message = (s₁, none)) := by
  unfold handlePoolLine
  by_cases hblank : isBlank message = true
  · rw [if_pos hblank]
    exact .inr ⟨s, le_rfl, rfl⟩
  rw [if_neg hblank]
  cases h.parsePoolLine message with
  | none => exact .inl ⟨s, le_rfl, rfl⟩
  | some json =>
    have hopened := h.message_opened s json
    rcases hm : h.poolMessage s json with ⟨s₁, threw⟩
    rw [hm] at hopened
    cases threw with
    | true => exact .inl ⟨s₁, hopened, by simp only [hm]⟩
    | false => exact .inr ⟨s₁, hopened, by simp only [hm]⟩

theorem handlePoolLine_stop {message : List Char} {s' : σ} {ending : Ending}
    (hn : n < h.opened s) (hl : handlePoolLine h n s message = (s', some ending)) :
    ending ≠ .finished ∧ ¬isCurrentPoolSocket h n s' := by
  rcases handlePoolLine_cases (h := h) (n := n) s message with ⟨s₁, hopened, heq⟩ | ⟨s₁, -, heq⟩
  · rw [heq] at hl
    cases hl
    exact ⟨poolErr_ending, poolErr_closes (lt_of_lt_of_le hn hopened)⟩
  · rw [heq] at hl
    cases hl

theorem handlePoolLine_opened {message : List Char} {s' : σ}
    (hl : handlePoolLine h n s message = (s', none)) : h.opened s ≤ h.opened s' := by
  rcases handlePoolLine_cases (h := h) (n := n) s message with ⟨s₁, -, heq⟩ | ⟨s₁, hopened, heq⟩
  · rw [heq] at hl
    cases hl
  · rw [heq] at hl
    cases hl
    exact hopened

theorem handlePoolLines_nil : handlePoolLines h n s [] =
    ⟨s, if isCurrentPoolSocket h n s then .finished else .stopped, []⟩ := rfl

theorem handlePoolLines_cons (message : List Char) (messages : List (List Char)) :
    handlePoolLines h n s (message :: messages) =
      if ¬isCurrentPoolSocket h n s then ⟨s, .stopped, []⟩
      else
        let parsed := if isBlank message then [] else [message]
        match handlePoolLine h n s message with
        | (s', some ending) => ⟨s', ending, parsed⟩
        | (s', none) =>
          let rest := handlePoolLines h n s' messages
          { rest with parsed := parsed ++ rest.parsed } := rfl

/-- A closed connection handles nothing. -/
theorem handlePoolLines_closed (messages : List (List Char)) (hc : ¬isCurrentPoolSocket h n s) :
    handlePoolLines h n s messages = ⟨s, .stopped, []⟩ := by
  cases messages with
  | nil => rw [handlePoolLines_nil, if_neg hc]
  | cons message messages => rw [handlePoolLines_cons, if_pos hc]

theorem handlePoolLines_stop {message : List Char} {s' : σ} {ending : Ending}
    (hcur : isCurrentPoolSocket h n s) (hl : handlePoolLine h n s message = (s', some ending))
    (messages : List (List Char)) : handlePoolLines h n s (message :: messages) =
      ⟨s', ending, if isBlank message then [] else [message]⟩ := by
  rw [handlePoolLines_cons, if_neg (not_not.mpr hcur), hl]

theorem handlePoolLines_next {message : List Char} {s' : σ}
    (hcur : isCurrentPoolSocket h n s) (hl : handlePoolLine h n s message = (s', none))
    (messages : List (List Char)) : handlePoolLines h n s (message :: messages) =
      { handlePoolLines h n s' messages with
        parsed := (if isBlank message then [] else [message]) ++
          (handlePoolLines h n s' messages).parsed } := by
  rw [handlePoolLines_cons, if_neg (not_not.mpr hcur), hl]

/-- Induction over the lines that a connection handles. -/
theorem handled_induction {motive : (s : σ) → List (List Char) → n < h.opened s → Prop}
    (closed : ∀ s messages hn, ¬isCurrentPoolSocket h n s → motive s messages hn)
    (nil : ∀ s hn, isCurrentPoolSocket h n s → motive s [] hn)
    (stop : ∀ s message messages s' ending hn, isCurrentPoolSocket h n s →
      handlePoolLine h n s message = (s', some ending) → motive s (message :: messages) hn)
    (next : ∀ s message messages s' hn hn', isCurrentPoolSocket h n s →
      handlePoolLine h n s message = (s', none) → motive s' messages hn' →
      motive s (message :: messages) hn)
    (s : σ) (messages : List (List Char)) (hn : n < h.opened s) : motive s messages hn := by
  induction messages generalizing s with
  | nil =>
    by_cases hcur : isCurrentPoolSocket h n s
    · exact nil s hn hcur
    · exact closed s [] hn hcur
  | cons message messages ih =>
    by_cases hcur : isCurrentPoolSocket h n s
    · rcases hl : handlePoolLine h n s message with ⟨s', _ | ending⟩
      · have hn' := lt_of_lt_of_le hn (handlePoolLine_opened hl)
        exact next s message messages s' hn hn' hcur hl (ih s' hn')
      · exact stop s message messages s' ending hn hcur hl
    · exact closed s _ hn hcur

/-- The lines ended early exactly when the socket is no longer the current one. -/
theorem handlePoolLines_ending (messages : List (List Char)) (hn : n < h.opened s) :
    (handlePoolLines h n s messages).ending = .finished ↔
      isCurrentPoolSocket h n (handlePoolLines h n s messages).state := by
  induction s, messages, hn using handled_induction with
  | closed s messages hn hcur => simp [handlePoolLines_closed messages hcur, hcur]
  | nil s hn hcur => simp [handlePoolLines_nil, hcur]
  | stop s message messages s' ending hn hcur hl =>
    obtain ⟨hne, hclosed⟩ := handlePoolLine_stop hn hl
    simp [handlePoolLines_stop hcur hl, hne, hclosed]
  | next s message messages s' hn hn' hcur hl ih =>
    rw [handlePoolLines_next hcur hl]
    exact ih

theorem handlePoolLines_opened (messages : List (List Char)) (hn : n < h.opened s)
    (hf : (handlePoolLines h n s messages).ending = .finished) :
    n < h.opened (handlePoolLines h n s messages).state := by
  revert hf
  induction s, messages, hn using handled_induction with
  | closed s messages hn hcur => simp [handlePoolLines_closed messages hcur]
  | nil s hn hcur => exact fun _ => hn
  | stop s message messages s' ending hn hcur hl =>
    have hne := (handlePoolLine_stop hn hl).1
    simp [handlePoolLines_stop hcur hl, hne]
  | next s message messages s' hn hn' hcur hl ih =>
    rw [handlePoolLines_next hcur hl]
    exact ih

/-- Lines in two pieces: the second is handled where the first finished, or not at all. -/
theorem handlePoolLines_append (first second : List (List Char)) (hn : n < h.opened s) :
    handlePoolLines h n s (first ++ second) =
      if (handlePoolLines h n s first).ending = .finished then
        { handlePoolLines h n (handlePoolLines h n s first).state second with
          parsed := (handlePoolLines h n s first).parsed ++
            (handlePoolLines h n (handlePoolLines h n s first).state second).parsed }
      else handlePoolLines h n s first := by
  induction s, first, hn using handled_induction with
  | closed s messages hn hcur => simp [handlePoolLines_closed _ hcur]
  | nil s hn hcur => simp [handlePoolLines_nil, hcur]
  | stop s message messages s' ending hn hcur hl =>
    have hne := (handlePoolLine_stop hn hl).1
    simp [handlePoolLines_stop hcur hl, hne]
  | next s message messages s' hn hn' hcur hl ih =>
    rw [List.cons_append, handlePoolLines_next hcur hl, handlePoolLines_next hcur hl, ih]
    split_ifs <;> simp

/-- Blank lines at the end change nothing. -/
theorem handlePoolLines_blank {line : List Char} (hb : isBlank line = true)
    (messages : List (List Char)) (hn : n < h.opened s) :
    handlePoolLines h n s (messages ++ [line]) = handlePoolLines h n s messages := by
  rw [handlePoolLines_append _ _ hn]
  split_ifs with hf
  · have hcur := (handlePoolLines_ending messages hn).mp hf
    have hl : handlePoolLine h n (handlePoolLines h n s messages).state line =
        ((handlePoolLines h n s messages).state, none) := by rw [handlePoolLine, if_pos hb]
    rw [handlePoolLines_next hcur hl]
    simp [handlePoolLines_nil, hcur, hb, ← hf]
  · rfl

/-- The parsed lines are the first of those that are not blank, and all of them in the end. -/
theorem handlePoolLines_parsed (messages : List (List Char)) (hn : n < h.opened s) :
    (handlePoolLines h n s messages).parsed <+: messages.filter (fun line => !isBlank line) ∧
      ((handlePoolLines h n s messages).ending = .finished →
        (handlePoolLines h n s messages).parsed = messages.filter (fun line => !isBlank line)) := by
  induction s, messages, hn using handled_induction with
  | closed s messages hn hcur => simp [handlePoolLines_closed _ hcur]
  | nil s hn hcur => simp [handlePoolLines_nil]
  | stop s message messages s' ending hn hcur hl =>
    have hne := (handlePoolLine_stop hn hl).1
    rw [handlePoolLines_stop hcur hl]
    refine ⟨?_, fun hf => absurd hf hne⟩
    by_cases hb : isBlank message = true <;> simp [hb]
  | next s message messages s' hn hn' hcur hl ih =>
    rw [handlePoolLines_next hcur hl]
    by_cases hb : isBlank message = true
    · simpa [hb] using ih
    · simpa [hb] using ih

/-! ## Chunks -/

theorem splitPoolMessages_incomplete (text : List Char) :
    (splitPoolMessages text).2 = remainder '\n' text := by
  unfold splitPoolMessages
  extract_lets messages
  split_ifs with hlast
  · exact (remainder_of_getLast hlast).symm
  · show messages.getLastD [] = _
    rw [show messages = terminated '\n' text ++ [remainder '\n' text] from splitOn_eq text]
    simp

/-- The empty text after a final line end is a blank line. -/
theorem handlePoolLines_split (text : List Char) (hn : n < h.opened s) :
    handlePoolLines h n s (splitPoolMessages text).1 =
      handlePoolLines h n s (terminated '\n' text) := by
  unfold splitPoolMessages
  extract_lets messages
  split_ifs with hlast
  · show handlePoolLines h n s messages = _
    rw [show messages = terminated '\n' text ++ [remainder '\n' text] from splitOn_eq text,
      remainder_of_getLast hlast]
    exact handlePoolLines_blank rfl _ hn
  · rfl

theorem poolDataHandler_closed {r : Receiver σ} (hc : ¬isCurrentPoolSocket h n r.state)
    (data : List Char) : poolDataHandler h n r data = r := by
  unfold poolDataHandler readPoolData
  rw [if_pos hc]

theorem receive_closed {r : Receiver σ} (hc : ¬isCurrentPoolSocket h n r.state)
    (chunks : List (List Char)) : receive h n r chunks = r := by
  induction chunks with
  | nil => rfl
  | cons chunk chunks ih =>
    show receive h n (poolDataHandler h n r chunk) chunks = r
    rw [poolDataHandler_closed hc, ih]

/-- One chunk handles the lines that it completes. -/
theorem poolDataHandler_spec {r : Receiver σ} {data : List Char} (hn : n < h.opened r.state)
    (hcur : isCurrentPoolSocket h n r.state)
    (hfit : byteLength (r.buffer ++ data) ≤ maxPoolDataBuffer) :
    let result := handlePoolLines h n r.state (terminated '\n' (r.buffer ++ data))
    let after := poolDataHandler h n r data
    after.state = result.state ∧ after.parsed = r.parsed ++ result.parsed ∧
      (result.ending = .finished → after.buffer = remainder '\n' (r.buffer ++ data)) := by
  intro result after
  have hread : readPoolData h n r data = (r.state, some (r.buffer ++ data)) := by
    rw [readPoolData, if_neg (not_not.mpr hcur), if_pos hfit]
  by_cases hline : '\n' ∈ r.buffer ++ data
  · have hafter : after = poolDataHandler h n r data := rfl
    rw [poolDataHandler, hread] at hafter
    simp only [hline, not_true_eq_false, if_false, handlePoolLines_split _ hn,
      splitPoolMessages_incomplete] at hafter
    refine ⟨by rw [hafter], by rw [hafter], fun hf => ?_⟩
    rw [hafter]
    simp only [show (handlePoolLines h n r.state (terminated '\n' (r.buffer ++ data))).ending =
      .finished from hf]
  · have hresult : result = ⟨r.state, .finished, []⟩ := by
      simp only [result, terminated_of_notMem hline, handlePoolLines_nil, if_pos hcur]
    have hafter : after = { r with buffer := r.buffer ++ data, state := r.state } := by
      simp only [after, poolDataHandler, hread, hline, not_false_eq_true, if_true]
    rw [hresult, hafter, remainder_of_notMem hline]
    simp

/-- However the text arrives, its lines are handled as if it had arrived at once. -/
theorem receive_spec (chunks : List (List Char)) {r : Receiver σ} (hn : n < h.opened r.state)
    (hfit : WithinLimit h n r chunks) :
    let result := handlePoolLines h n r.state (terminated '\n' (r.buffer ++ chunks.flatten))
    let after := receive h n r chunks
    isCurrentPoolSocket h n r.state → '\n' ∉ r.buffer →
    after.state = result.state ∧ after.parsed = r.parsed ++ result.parsed ∧
      (result.ending = .finished → after.buffer = remainder '\n' (r.buffer ++ chunks.flatten)) := by
  intro result after hcur hbuf
  induction chunks generalizing r with
  | nil =>
    have hnot : '\n' ∉ r.buffer ++ ([] : List (List Char)).flatten := by simpa using hbuf
    have hresult : result = ⟨r.state, .finished, []⟩ := by
      simp only [result, terminated_of_notMem hnot, handlePoolLines_nil, if_pos hcur]
    rw [hresult, remainder_of_notMem hnot]
    simp [after, receive]
  | cons chunk chunks ih =>
    obtain ⟨hlimit, hrest⟩ := hfit
    obtain ⟨hstate, hparsed, hbuffer⟩ := poolDataHandler_spec hn hcur (hlimit hcur)
    have hflat : r.buffer ++ (chunk :: chunks).flatten = (r.buffer ++ chunk) ++ chunks.flatten := by
      simp
    have hafter : after = receive h n (poolDataHandler h n r chunk) chunks := rfl
    have hresult : result = handlePoolLines h n r.state (terminated '\n' (r.buffer ++ chunk) ++
        terminated '\n' (remainder '\n' (r.buffer ++ chunk) ++ chunks.flatten)) := by
      simp only [result]
      rw [hflat, terminated_append]
    rw [handlePoolLines_append _ _ hn] at hresult
    by_cases hf : (handlePoolLines h n r.state (terminated '\n' (r.buffer ++ chunk))).ending =
        .finished
    · rw [if_pos hf, ← hstate, ← hbuffer hf] at hresult
      have hcur' := (handlePoolLines_ending _ hn).mp hf
      have hn' := handlePoolLines_opened _ hn hf
      rw [← hstate] at hcur' hn'
      have hnot : '\n' ∉ (poolDataHandler h n r chunk).buffer := by
        rw [hbuffer hf]
        exact notMem_remainder _
      obtain ⟨ih1, ih2, ih3⟩ := ih hn' hrest hcur' hnot
      rw [hresult, hafter, hflat, remainder_append, ← hbuffer hf]
      refine ⟨ih1, ?_, ih3⟩
      rw [ih2, hparsed, List.append_assoc]
    · rw [if_neg hf] at hresult
      have hclosed : ¬isCurrentPoolSocket h n (poolDataHandler h n r chunk).state := by
        rw [hstate]
        exact fun hc => hf ((handlePoolLines_ending _ hn).mpr hc)
      rw [hafter, receive_closed hclosed, hresult]
      exact ⟨hstate, hparsed, fun hf' => absurd hf' hf⟩

/-- **Pool framing is independent of the chunks.** A text that arrives in chunks within the limit
of the buffer has its lines parsed in order, each once, the blank ones left out, until one stops
the connection; no line is parsed after that. Two ways to cut the text parse the same lines and
reach the same state, and while the connection lasts the unfinished line is kept. -/
theorem pool_framing (chunks chunks' : List (List Char)) (hn : n < h.opened s)
    (hcur : isCurrentPoolSocket h n s) (hsame : chunks.flatten = chunks'.flatten)
    (hfit : WithinLimit h n ⟨[], s, []⟩ chunks) (hfit' : WithinLimit h n ⟨[], s, []⟩ chunks') :
    let lines := terminated '\n' chunks.flatten
    let result := handlePoolLines h n s lines
    let after := receive h n ⟨[], s, []⟩ chunks
    let after' := receive h n ⟨[], s, []⟩ chunks'
    (after.parsed = result.parsed ∧ after.state = result.state) ∧
    (after'.parsed = result.parsed ∧ after'.state = result.state) ∧
    after.parsed <+: lines.filter (fun line => !isBlank line) ∧
    (isCurrentPoolSocket h n after.state →
      after.parsed = lines.filter (fun line => !isBlank line) ∧
      after.buffer = remainder '\n' chunks.flatten ∧
      after'.buffer = remainder '\n' chunks.flatten) ∧
    (¬isCurrentPoolSocket h n after.state →
      (∀ more, receive h n after more = after) ∧ ∀ more, receive h n after' more = after') := by
  intro lines result after after'
  obtain ⟨hstate, hparsed, hbuffer⟩ := receive_spec chunks (r := ⟨[], s, []⟩) hn hfit hcur (by simp)
  obtain ⟨hstate', hparsed', hbuffer'⟩ :=
    receive_spec chunks' (r := ⟨[], s, []⟩) hn hfit' hcur (by simp)
  rw [← hsame] at hstate' hparsed' hbuffer'
  simp only [List.nil_append] at hstate hparsed hbuffer hstate' hparsed' hbuffer'
  have hends : result.ending = .finished ↔ isCurrentPoolSocket h n after.state := by
    rw [hstate]
    exact handlePoolLines_ending lines hn
  obtain ⟨hfirst, hall⟩ := handlePoolLines_parsed (h := h) (n := n) lines hn
  refine ⟨⟨hparsed, hstate⟩, ⟨hparsed', hstate'⟩, hparsed ▸ hfirst, fun hc => ?_, fun hc => ?_⟩
  · have hf := hends.mpr hc
    exact ⟨hparsed.trans (hall hf), hbuffer hf, hbuffer' hf⟩
  · have hc' : ¬isCurrentPoolSocket h n after'.state := by
      rw [hstate']
      rwa [hstate] at hc
    exact ⟨receive_closed hc, receive_closed hc'⟩

end

/-! ### A connection that closes at its second message -/

/-- A pool whose first message is counted and whose second one throws. -/
def exampleHandler : LineHandler (Option ℕ × ℕ) where
  socket := Prod.fst
  opened _ := 1
  parsePoolLine line := if line = "[]".toList then some (.arr []) else none
  poolMessage s _ := ((s.1, s.2 + 1), decide (0 < s.2))
  clear s := (none, s.2)
  switchPool s := (s, false)
  message_opened _ _ := le_rfl
  clear_socket _ := rfl
  clear_opened _ := le_rfl
  switch_socket _ _ hs := .inl hs

/-- Cut in the middle of a line or not, the third line is not parsed. -/
theorem pool_framing_example :
    (receive exampleHandler 0 ⟨[], (some 0, 0), []⟩
        ["[]\n[".toList, "]\n\n[]\n".toList]).parsed = ["[]".toList, "[]".toList] ∧
      (receive exampleHandler 0 ⟨[], (some 0, 0), []⟩ ["[]\n[]\n\n[]\n".toList]).parsed =
        ["[]".toList, "[]".toList] := by
  have hlines : (handlePoolLines exampleHandler 0 (some 0, 0)
      (terminated '\n' (["[]\n[".toList, "]\n\n[]\n".toList] : List (List Char)).flatten)).parsed =
        ["[]".toList, "[]".toList] := by decide +kernel
  obtain ⟨⟨hparsed, -⟩, ⟨hparsed', -⟩, -⟩ := pool_framing (h := exampleHandler) (n := 0)
    (s := (some 0, 0)) ["[]\n[".toList, "]\n\n[]\n".toList] ["[]\n[]\n\n[]\n".toList]
    Nat.one_pos rfl (by decide +kernel)
    ⟨fun _ => by decide +kernel, fun _ => by decide +kernel, trivial⟩
    ⟨fun _ => by decide +kernel, trivial⟩
  exact ⟨hparsed.trans hlines, hparsed'.trans hlines⟩

end MoMiner.Pool
