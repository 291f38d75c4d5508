import Mathlib.Data.List.Infix
import Mathlib.Logic.Relation
import MoMiner.Native.Job

/-!
# The queue of the native worker

`AsyncWorker` (`native/async-worker.h`) and the message loop of `Core::Execute`. The Node thread
posts messages, stops the worker and delivers events; the worker thread drains the queue, processes
the messages and queues events. Every atomic operation, and every operation on the queue under its
mutex, is a step. RandomX threads queue events of their own; they are joined before `Execute` ends.

Processing a message may go on, may throw a text that the loop reports, or may throw something else
that ends `Execute`. Queueing an event may fail.

Main result: `no_command_lost`.
-/

namespace MoMiner.Native.AsyncWorker

structure Message where
  name : String
  values : MessageValues
deriving DecidableEq

def Message.closes (m : Message) : Bool :=
  m.name == "close"

/-- The message that `stop` writes. -/
def closeMessage : Message :=
  ⟨"close", []⟩

inductive Event
  | progress
  | complete
  | error
deriving DecidableEq

def Event.terminal (e : Event) : Bool :=
  e != .progress

/-- A call of `post`. It is late when a terminal event was delivered before it; its window is open
when `run` has queued its terminal event and has not stored `m_accepting` yet. -/
structure Call where
  message : Message
  late : Bool
  window : Bool
deriving DecidableEq

/-- Where the Node thread is: what it does next. -/
inductive NodePc
  | idle
  | first (call : Call)
  | start (call : Call)
  | launch (call : Call)
  | second (call : Call)
  | write (call : Call)
  | withdraw (call : Call)
  | stopStarted
  | stopStopped
  | stopExchange
  | stopWrite
  | join
deriving DecidableEq

/-- Where the worker thread is. `batch` holds the drained messages that are left, `finish` what
`Execute` ended with. -/
inductive WorkerPc
  | none
  | drain
  | batch (messages : List Message)
  | finish (outcome : Event)
  | withdraw
  | mark
  | release
  | done
deriving DecidableEq

/-- A call of `post` that has ended, by returning or by throwing. -/
structure Post where
  call : Call
  returned : Bool
deriving DecidableEq

structure State where
  accepting : Bool
  started : Bool
  stopped : Bool
  node : NodePc
  worker : WorkerPc
  /-- RandomX threads are running. -/
  rx : Bool
  queue : List Message
  /-- What `post` has written. -/
  posted : List Message
  /-- `stop` has written its close. -/
  stopClose : Bool
  processed : List Message
  posts : List Post
  events : List Event
  delivered : ℕ

def State.initial : State where
  accepting := true
  started := false
  stopped := false
  node := .idle
  worker := .none
  rx := false
  queue := []
  posted := []
  stopClose := false
  processed := []
  posts := []
  events := []
  delivered := 0

/-- Everything that was written to the queue. -/
@[grind] def State.sent (s : State) : List Message :=
  s.posted ++ if s.stopClose then [closeMessage] else []

def State.terminalDelivered (s : State) : Bool :=
  (s.events.take s.delivered).any Event.terminal

/-- `Execute` is in its loop. -/
@[grind] def WorkerPc.executing : WorkerPc → Bool
  | .drain => true
  | .batch _ => true
  | _ => false

/-- `run` has stored `m_accepting`. -/
@[grind] def WorkerPc.withdrawn : WorkerPc → Bool
  | .mark => true
  | .release => true
  | .done => true
  | _ => false

@[grind] def WorkerPc.pending : WorkerPc → List Message
  | .batch messages => messages
  | _ => []

/-! ## Steps -/

def State.call (s : State) (m : Message) : Call :=
  ⟨m, s.terminalDelivered, s.terminalDelivered && s.worker == .withdraw⟩

@[grind] def State.ended (s : State) (call : Call) (returned : Bool) : State :=
  { s with node := .idle, posts := s.posts ++ [⟨call, returned⟩] }

@[grind] def State.wrote (s : State) (m : Message) : State :=
  { s with queue := s.queue ++ [m], posted := s.posted ++ [m] }

@[grind] def State.emit (s : State) (e : Event) : State :=
  { s with events := s.events ++ [e] }

/-- A step of the Node thread. -/
inductive NodeStep : State → State → Prop
  | begin (s : State) (m : Message) (h : s.node = .idle) :
    NodeStep s { s with node := .first (s.call m) }
  | firstRefused (s : State) (c : Call) (h : s.node = .first c) (ha : s.accepting = false) :
    NodeStep s (s.ended c false)
  | firstPassed (s : State) (c : Call) (h : s.node = .first c) (ha : s.accepting = true) :
    NodeStep s { s with node := .start c }
  | alreadyStarted (s : State) (c : Call) (h : s.node = .start c) (hs : s.started = true) :
    NodeStep s { s with node := .second c }
  | starting (s : State) (c : Call) (h : s.node = .start c) (hs : s.started = false) :
    NodeStep s { s with node := .launch c, started := true }
  | launched (s : State) (c : Call) (h : s.node = .launch c) :
    NodeStep s { s with node := .second c, worker := .drain }
  | functionFailed (s : State) (c : Call) (h : s.node = .launch c) :
    NodeStep s { s.ended c false with started := false }
  | threadFailed (s : State) (c : Call) (h : s.node = .launch c) :
    NodeStep s { s.ended c false with accepting := false, stopped := true }
  | secondRefused (s : State) (c : Call) (h : s.node = .second c) (ha : s.accepting = false) :
    NodeStep s (s.ended c false)
  | secondPassed (s : State) (c : Call) (h : s.node = .second c) (ha : s.accepting = true) :
    NodeStep s { s with node := .write c }
  | written (s : State) (c : Call) (h : s.node = .write c) (hc : c.message.closes = false) :
    NodeStep s ((s.wrote c.message).ended c true)
  | writtenClose (s : State) (c : Call) (h : s.node = .write c) (hc : c.message.closes = true) :
    NodeStep s { s.wrote c.message with node := .withdraw c }
  | withdrawn (s : State) (c : Call) (h : s.node = .withdraw c) :
    NodeStep s { s.ended c true with accepting := false }
  | deliver (s : State) (h : s.node = .idle) (hd : s.delivered < s.events.length) :
    NodeStep s { s with delivered := s.delivered + 1 }
  | stop (s : State) (h : s.node = .idle) : NodeStep s { s with node := .stopStarted }
  | stopUnstarted (s : State) (h : s.node = .stopStarted) (hs : s.started = false) :
    NodeStep s { s with node := .join }
  | stopHasStarted (s : State) (h : s.node = .stopStarted) (hs : s.started = true) :
    NodeStep s { s with node := .stopStopped }
  | stopIsStopped (s : State) (h : s.node = .stopStopped) (hs : s.stopped = true) :
    NodeStep s { s with node := .join }
  | stopNotStopped (s : State) (h : s.node = .stopStopped) (hs : s.stopped = false) :
    NodeStep s { s with node := .stopExchange }
  | exchanged (s : State) (h : s.node = .stopExchange) (ha : s.accepting = true) :
    NodeStep s { s with node := .stopWrite, accepting := false }
  | notAccepting (s : State) (h : s.node = .stopExchange) (ha : s.accepting = false) :
    NodeStep s { s with node := .join }
  | stopWritten (s : State) (h : s.node = .stopWrite) :
    NodeStep s { s with node := .join, queue := s.queue ++ [closeMessage], stopClose := true }
  | joined (s : State) (h : s.node = .join) (hw : s.worker = .none ∨ s.worker = .done) :
    NodeStep s { s with node := .idle }

/-- A step of the worker thread, or of a RandomX thread. -/
inductive WorkerStep : State → State → Prop
  | drain (s : State) (h : s.worker = .drain) :
    WorkerStep s { s with worker := .batch s.queue, queue := [] }
  | progress (s : State) (h : s.worker.executing = true) : WorkerStep s (s.emit .progress)
  | processed (s : State) (m : Message) (ms : List Message) (rx : Bool)
    (h : s.worker = .batch (m :: ms)) (hc : m.closes = false) :
    WorkerStep s { s with worker := .batch ms, processed := s.processed ++ [m], rx := rx }
  | threw (s : State) (m : Message) (ms : List Message) (h : s.worker = .batch (m :: ms)) :
    WorkerStep s ({ s with worker := .batch ms, processed := s.processed ++ [m] }.emit .progress)
  | closed (s : State) (m : Message) (ms : List Message) (h : s.worker = .batch (m :: ms))
    (hc : m.closes = true) :
    WorkerStep s { s with
      worker := .finish .complete, processed := s.processed ++ [m], rx := false }
  | unwoundBatch (s : State) (m : Message) (ms : List Message) (h : s.worker = .batch (m :: ms)) :
    WorkerStep s { s with
      worker := .finish .error, processed := s.processed ++ [m], rx := false }
  | batchDone (s : State) (h : s.worker = .batch []) : WorkerStep s { s with worker := .drain }
  | unwound (s : State) (h : s.worker = .drain) :
    WorkerStep s { s with worker := .finish .error, rx := false }
  | rxProgress (s : State) (h : s.rx = true) : WorkerStep s (s.emit .progress)
  | queued (s : State) (e : Event) (h : s.worker = .finish e) :
    WorkerStep s { s.emit e with worker := .withdraw }
  | notQueued (s : State) (e : Event) (h : s.worker = .finish e) :
    WorkerStep s { s with worker := .withdraw }
  | withdrawn (s : State) (h : s.worker = .withdraw) :
    WorkerStep s { s with worker := .mark, accepting := false }
  | marked (s : State) (h : s.worker = .mark) :
    WorkerStep s { s with worker := .release, stopped := true }
  | released (s : State) (h : s.worker = .release) : WorkerStep s { s with worker := .done }

def Step (s s' : State) : Prop :=
  NodeStep s s' ∨ WorkerStep s s'

def Reachable (s : State) : Prop :=
  Relation.ReflTransGen Step State.initial s

/-! ## Acceptance -/

/-- A close was written to the queue. -/
@[grind] def State.Closed (s : State) : Prop :=
  s.stopClose = true ∨ ∃ m ∈ s.posted, m.closes = true

/-- The call has passed the first look at `m_accepting` and has not written. -/
@[grind] def NodePc.calling : NodePc → Bool
  | .start _ => true
  | .launch _ => true
  | .second _ => true
  | .write _ => true
  | _ => false

@[grind] def NodePc.withdrawing : NodePc → Bool
  | .withdraw _ => true
  | _ => false

@[grind →] theorem WorkerPc.not_withdrawn {w : WorkerPc} (h : w.executing = true) :
    w.withdrawn = false := by
  cases w <;> first | rfl | cases h

/-- What the flags say. -/
structure Flags (s : State) : Prop where
  unstarted : s.started = false → s.worker = .none ∧ s.stopped = false
  starting : ∀ c, s.node = .start c → s.accepting = true ∨ s.started = true
  launching : ∀ c, s.node = .launch c →
    s.worker = .none ∧ s.started = true ∧ s.stopped = false ∧ s.accepting = true
  withdrawn : s.worker.withdrawn = true → s.accepting = false
  stopped : s.stopped = true → s.accepting = false ∧
    (s.worker = .none ∨ s.worker = .release ∨ s.worker = .done)
  closed : s.Closed → s.accepting = false ∨ s.node.withdrawing = true
  withdrawing : s.node.withdrawing = true → s.Closed
  calling : s.node.calling = true → ¬ s.Closed
  stopWriting : s.node = .stopWrite → s.accepting = false ∧ ¬ s.Closed
  refusing : s.accepting = false →
    s.Closed ∨ s.worker.withdrawn = true ∨ s.worker = .none ∨ s.node = .stopWrite
  joining : s.node = .join → s.Closed ∨ s.worker.executing = false

theorem flags_initial : Flags State.initial := by
  constructor <;> simp [State.initial, State.Closed, WorkerPc.withdrawn, NodePc.calling,
    NodePc.withdrawing]

theorem Flags.node_step {s s' : State} (hf : Flags s) (h : NodeStep s s') : Flags s' := by
  obtain ⟨h1, h2, h3, h4, h5, h6, h7, h8, h9, h10, h11⟩ := hf
  cases h <;> constructor <;> grind -ring -linarith

theorem Flags.worker_step {s s' : State} (hf : Flags s) (h : WorkerStep s s') : Flags s' := by
  obtain ⟨h1, h2, h3, h4, h5, h6, h7, h8, h9, h10, h11⟩ := hf
  cases h <;> constructor <;> grind -ring -linarith

/-! ## The queue -/

/-- `Execute` has ended. -/
@[grind] def WorkerPc.over : WorkerPc → Bool
  | .finish _ => true
  | .withdraw => true
  | .mark => true
  | .release => true
  | .done => true
  | _ => false

/-- While `Execute` runs every message is processed, drained or queued; afterwards the processed
messages are still the first ones. A close is the last message that is sent. -/
structure Queue (s : State) : Prop where
  kept : s.worker.over = false → s.processed ++ s.worker.pending ++ s.queue = s.sent
  first : s.processed <+: s.sent
  posted : ∀ ms m, s.posted = ms ++ [m] → ∀ m' ∈ ms, m'.closes = false
  stop : s.stopClose = true → ∀ m ∈ s.posted, m.closes = false

/-- A message that is added to the queue and to what was sent. -/
theorem Queue.append {s s' : State} {m : Message} (hq : Queue s) (hworker : s'.worker = s.worker)
    (hqueue : s'.queue = s.queue ++ [m]) (hprocessed : s'.processed = s.processed)
    (hsent : s'.sent = s.sent ++ [m])
    (hposted : ∀ ms m', s'.posted = ms ++ [m'] → ∀ m'' ∈ ms, m''.closes = false)
    (hstop : s'.stopClose = true → ∀ m' ∈ s'.posted, m'.closes = false) : Queue s' := by
  refine ⟨fun hover => ?_, ?_, hposted, hstop⟩
  · rw [hworker] at hover ⊢
    rw [hqueue, hprocessed, hsent, ← hq.kept hover]
    simp
  · rw [hprocessed, hsent]
    exact hq.first.trans (List.prefix_append _ _)

/-- Before a message is written, no message was a close. -/
theorem posted_append {s : State} (h : ¬ s.Closed) (m : Message) (ms : List Message) (m' : Message)
    (heq : s.posted ++ [m] = ms ++ [m']) : ∀ m'' ∈ ms, m''.closes = false := by
  obtain ⟨rfl, -⟩ := List.append_inj' heq rfl
  intro m'' hmem
  by_contra hcloses
  exact h (.inr ⟨m'', hmem, by simpa using hcloses⟩)

theorem Queue.node_step {s s' : State} (hq : Queue s) (hf : Flags s) (h : NodeStep s s') :
    Queue s' := by
  cases h with
  | written c h hc =>
    have hopen : ¬ s.Closed := hf.calling (by rw [h]; rfl)
    have hstop : s.stopClose = false := by simpa using fun h => hopen (.inl h)
    refine hq.append rfl rfl rfl ?_ (posted_append hopen c.message)
      fun h => absurd (.inl h) hopen
    simp [State.sent, State.ended, State.wrote, hstop]
  | writtenClose c h hc =>
    have hopen : ¬ s.Closed := hf.calling (by rw [h]; rfl)
    have hstop : s.stopClose = false := by simpa using fun h => hopen (.inl h)
    refine hq.append rfl rfl rfl ?_ (posted_append hopen c.message)
      fun h => absurd (.inl h) hopen
    simp [State.sent, State.wrote, hstop]
  | launched c h =>
    have hworker := (hf.launching c h).1
    refine ⟨fun _ => ?_, hq.first, hq.posted, hq.stop⟩
    have hkept := hq.kept (by rw [hworker]; rfl)
    rw [hworker] at hkept
    exact hkept
  | stopWritten h =>
    have hopen := (hf.stopWriting h).2
    have hstop : s.stopClose = false := by simpa using fun h => hopen (.inl h)
    refine hq.append rfl rfl rfl ?_ hq.posted fun _ m hm => ?_
    · simp [State.sent, hstop]
    · by_contra hcloses
      exact hopen (.inr ⟨m, hm, by simpa using hcloses⟩)
  | _ => exact ⟨hq.kept, hq.first, hq.posted, hq.stop⟩

/-- The first message of the batch is processed. -/
theorem Queue.process {s s' : State} {m : Message} {ms : List Message} (hq : Queue s)
    (hbatch : s.worker = .batch (m :: ms)) (hprocessed : s'.processed = s.processed ++ [m])
    (hqueue : s'.queue = s.queue) (hposted : s'.posted = s.posted)
    (hstop : s'.stopClose = s.stopClose)
    (hpending : s'.worker.over = false → s'.worker.pending = ms) : Queue s' := by
  have hkept := hq.kept (by rw [hbatch]; rfl)
  rw [hbatch, WorkerPc.pending] at hkept
  have hsent : s'.sent = s.sent := by rw [State.sent, hposted, hstop, State.sent]
  refine ⟨fun hover => ?_, ?_, hposted ▸ hq.posted, hstop ▸ hposted ▸ hq.stop⟩
  · rw [hprocessed, hqueue, hsent, hpending hover, ← hkept]
    simp
  · rw [hprocessed, hsent, ← hkept]
    exact ⟨ms ++ s.queue, by simp⟩

theorem Queue.worker_step {s s' : State} (hq : Queue s) (h : WorkerStep s s') : Queue s' := by
  cases h with
  | drain h =>
    have hkept := hq.kept (by rw [h]; rfl)
    rw [h] at hkept
    refine ⟨fun _ => ?_, hq.first, hq.posted, hq.stop⟩
    calc s.processed ++ s.queue ++ [] = s.processed ++ [] ++ s.queue := by simp
      _ = s.sent := hkept
  | processed m ms rx h hc => exact hq.process h rfl rfl rfl rfl fun _ => rfl
  | threw m ms h => exact hq.process h rfl rfl rfl rfl fun _ => rfl
  | closed m ms h hc => exact hq.process h rfl rfl rfl rfl fun hover => by cases hover
  | unwoundBatch m ms h => exact hq.process h rfl rfl rfl rfl fun hover => by cases hover
  | batchDone h =>
    have hkept := hq.kept (by rw [h]; rfl)
    rw [h] at hkept
    exact ⟨fun _ => hkept, hq.first, hq.posted, hq.stop⟩
  | progress h => exact ⟨hq.kept, hq.first, hq.posted, hq.stop⟩
  | rxProgress h => exact ⟨hq.kept, hq.first, hq.posted, hq.stop⟩
  | _ => exact ⟨fun hover => (by cases hover), hq.first, hq.posted, hq.stop⟩

/-! ## Events -/

/-- The events of a run: progress, and at most one terminal event, the last. -/
inductive Ends : List Event → Prop
  | open (n : ℕ) : Ends (List.replicate n .progress)
  | complete (n : ℕ) : Ends (List.replicate n .progress ++ [.complete])
  | error (n : ℕ) : Ends (List.replicate n .progress ++ [.error])

/-- Progress comes from `Execute` and from threads that it joins. A complete event is queued only
after a close, and once it was delivered no message is accepted. -/
structure Events (s : State) : Prop where
  bound : s.delivered ≤ s.events.length
  rx : s.rx = true → s.worker.executing = true
  finish : ∀ e, s.worker = .finish e → e.terminal = true ∧ (e = .complete → s.Closed)
  progress : s.worker.over = false ∨ (∃ e, s.worker = .finish e) →
    ∃ n, s.events = List.replicate n .progress
  ends : Ends s.events
  complete : .complete ∈ s.events → s.Closed
  delivered : .complete ∈ s.events.take s.delivered → s.accepting = false

/-- A step that leaves the events and the worker alone. -/
theorem Events.congr {s s' : State} (he : Events s) (hrx : s'.rx = s.rx)
    (hworker : s'.worker = s.worker) (hevents : s'.events = s.events)
    (hdelivered : s'.delivered = s.delivered) (hclosed : s.Closed → s'.Closed)
    (haccepting : s.accepting = false → s'.accepting = false) : Events s' := by
  constructor
  · rw [hdelivered, hevents]
    exact he.bound
  · rw [hrx, hworker]
    exact he.rx
  · rw [hworker]
    exact fun e h => ⟨(he.finish e h).1, fun hc => hclosed ((he.finish e h).2 hc)⟩
  · rw [hworker, hevents]
    exact he.progress
  · rw [hevents]
    exact he.ends
  · rw [hevents]
    exact fun h => hclosed (he.complete h)
  · rw [hevents, hdelivered]
    exact fun h => haccepting (he.delivered h)

theorem Closed.wrote {s : State} (h : s.Closed) (m : Message) : (s.wrote m).Closed := by
  rcases h with h | ⟨m', hm', hc⟩
  · exact .inl h
  · exact .inr ⟨m', List.mem_append_left _ hm', hc⟩

theorem Events.node_step {s s' : State} (he : Events s) (hf : Flags s) (h : NodeStep s s') :
    Events s' := by
  cases h with
  | launched c h =>
    have hworker := (hf.launching c h).1
    have hprogress := he.progress (.inl (by rw [hworker]; rfl))
    exact ⟨he.bound, fun _ => rfl, fun e h => (by cases h), fun _ => hprogress, he.ends,
      he.complete, he.delivered⟩
  | deliver h hd =>
    refine ⟨hd, he.rx, he.finish, he.progress, he.ends, he.complete, fun hmem => ?_⟩
    -- The Node thread is idle, so a close was withdrawn.
    refine (hf.closed (he.complete (List.mem_of_mem_take hmem))).resolve_right ?_
    simp [h, NodePc.withdrawing]
  | written c h hc => exact he.congr rfl rfl rfl rfl (fun h => Closed.wrote h _) id
  | writtenClose c h hc => exact he.congr rfl rfl rfl rfl (fun h => Closed.wrote h _) id
  | stopWritten h => exact he.congr rfl rfl rfl rfl (fun _ => .inl rfl) id
  | threadFailed c h => exact he.congr rfl rfl rfl rfl id fun _ => rfl
  | withdrawn c h => exact he.congr rfl rfl rfl rfl id fun _ => rfl
  | exchanged h ha => exact he.congr rfl rfl rfl rfl id fun _ => rfl
  | _ => exact he.congr rfl rfl rfl rfl id id

/-- A message of the batch that closes was sent, so a close was written. -/
theorem Queue.closed {s : State} (hq : Queue s) {m : Message} {ms : List Message}
    (h : s.worker = .batch (m :: ms)) (hc : m.closes = true) : s.Closed := by
  have hkept := hq.kept (by rw [h]; rfl)
  have hmem : m ∈ s.sent := by
    rw [← hkept, h]
    simp [WorkerPc.pending]
  rcases List.mem_append.mp hmem with hmem | hmem
  · exact .inr ⟨m, hmem, hc⟩
  · by_cases hstop : s.stopClose = true
    · exact .inl hstop
    · simp [hstop] at hmem

theorem WorkerPc.not_over {w : WorkerPc} (h : w.executing = true) : w.over = false := by
  cases w <;> first | rfl | cases h

theorem Ends.emit {es : List Event} {e : Event} (h : ∃ n, es = List.replicate n Event.progress) :
    Ends (es ++ [e]) := by
  obtain ⟨n, rfl⟩ := h
  cases e with
  | progress => rw [← List.replicate_succ']; exact .open (n + 1)
  | complete => exact .complete n
  | error => exact .error n

/-- Progress is queued while `Execute` runs. -/
theorem Events.emit_progress {s : State} (he : Events s) (h : s.worker.executing = true) :
    Events (s.emit .progress) := by
  have hprogress := he.progress (.inl (WorkerPc.not_over h))
  constructor
  · exact he.bound.trans (by simp [State.emit])
  · exact he.rx
  · exact he.finish
  · obtain ⟨n, hn⟩ := hprogress
    exact fun _ => ⟨n + 1, by rw [State.emit, hn, List.replicate_succ']⟩
  · exact Ends.emit hprogress
  · exact fun hmem => he.complete (by simpa [State.emit] using hmem)
  · intro hmem
    rw [State.emit, List.take_append_of_le_length he.bound] at hmem
    exact he.delivered hmem

/-- `Execute` goes on. -/
theorem Events.goes_on {s : State} {w : WorkerPc} {queue processed : List Message} {rx : Bool}
    (he : Events s) (h : s.worker.executing = true) (hw : w.executing = true) :
    Events { s with worker := w, rx := rx, queue := queue, processed := processed } := by
  have hprogress := he.progress (.inl (WorkerPc.not_over h))
  refine ⟨he.bound, fun _ => hw, ?_, fun _ => hprogress, he.ends, he.complete, he.delivered⟩
  rintro e rfl
  cases hw

/-- `Execute` ends, after it has joined its threads. -/
theorem Events.finishes {s : State} {e : Event} {processed : List Message} (he : Events s)
    (h : s.worker.executing = true) (hterminal : e.terminal = true)
    (hclosed : e = .complete → s.Closed) :
    Events { s with worker := .finish e, processed := processed, rx := false } := by
  have hprogress := he.progress (.inl (WorkerPc.not_over h))
  refine ⟨he.bound, fun h => (by cases h), ?_, fun _ => hprogress, he.ends, he.complete,
    he.delivered⟩
  rintro e' heq
  cases heq
  exact ⟨hterminal, hclosed⟩

theorem Events.quiet {s : State} (he : Events s) (h : s.worker.executing = false) :
    s.rx = false := by
  by_contra hrx
  rw [he.rx (by simpa using hrx)] at h
  cases h

/-- `run` goes on after `Execute`. -/
theorem Events.runs {s : State} {w : WorkerPc} {accepting stopped : Bool} (he : Events s)
    (h : s.worker.executing = false) (hw : w.over = true) (hfinish : ∀ e, w ≠ .finish e)
    (haccepting : s.accepting = false → accepting = false) :
    Events { s with worker := w, accepting := accepting, stopped := stopped } := by
  refine ⟨he.bound, fun hrx => ?_, fun e heq => absurd heq (hfinish e), ?_, he.ends, he.complete,
    fun hmem => haccepting (he.delivered hmem)⟩
  · exact absurd ((he.quiet h).symm.trans hrx) (by decide)
  · rintro (hover | ⟨e, heq⟩)
    · exact absurd (hw.symm.trans hover) (by decide)
    · exact absurd heq (hfinish e)

theorem Events.worker_step {s s' : State} (he : Events s) (hq : Queue s) (h : WorkerStep s s') :
    Events s' := by
  cases h with
  | drain h => exact he.goes_on (by rw [h]; rfl) rfl
  | progress h => exact he.emit_progress h
  | rxProgress h => exact he.emit_progress (he.rx h)
  | processed m ms rx h hc => exact he.goes_on (by rw [h]; rfl) rfl
  | threw m ms h => exact (he.goes_on (by rw [h]; rfl) rfl).emit_progress rfl
  | batchDone h => exact he.goes_on (by rw [h]; rfl) rfl
  | closed m ms h hc => exact he.finishes (by rw [h]; rfl) rfl fun _ => hq.closed h hc
  | unwoundBatch m ms h => exact he.finishes (by rw [h]; rfl) rfl fun hc => (by cases hc)
  | unwound h => exact he.finishes (by rw [h]; rfl) rfl fun hc => (by cases hc)
  | queued e h =>
    have hrx : s.rx = false := he.quiet (by rw [h]; rfl)
    refine ⟨he.bound.trans (by simp [State.emit]), fun h => ?_, fun e h => (by cases h), ?_,
      Ends.emit (he.progress (.inr ⟨e, h⟩)), ?_, ?_⟩
    · exact absurd (hrx.symm.trans h) (by decide)
    · rintro (hover | ⟨e, he⟩)
      · cases hover
      · cases he
    · intro hmem
      rcases List.mem_append.mp hmem with hmem | hmem
      · exact he.complete hmem
      · exact (he.finish e h).2 (List.mem_singleton.mp hmem).symm
    · intro hmem
      rw [State.emit, List.take_append_of_le_length he.bound] at hmem
      exact he.delivered hmem
  | notQueued e h => exact he.runs (by rw [h]; rfl) rfl (fun e h => (by cases h)) id
  | withdrawn h => exact he.runs (by rw [h]; rfl) rfl (fun e h => (by cases h)) fun _ => rfl
  | marked h => exact he.runs (by rw [h]; rfl) rfl (fun e h => (by cases h)) id
  | released h => exact he.runs (by rw [h]; rfl) rfl (fun e h => (by cases h)) id

/-! ## The calls -/

def Post.closes (p : Post) : Bool :=
  p.call.message.closes

/-- The call that has passed the first look at `m_accepting`. -/
def NodePc.passed : NodePc → Option Call
  | .start c => some c
  | .launch c => some c
  | .second c => some c
  | .write c => some c
  | .withdraw c => some c
  | _ => none

/-- The message that was written by the current call. -/
def NodePc.returning : NodePc → List Message
  | .withdraw c => [c.message]
  | _ => []

/-- The messages of the calls that returned. -/
def State.returned (s : State) : List Message :=
  (s.posts.filter Post.returned).map fun p => p.call.message

/-- The messages of the calls that returned are the posted ones, but for a close whose call is about
to return. A late call is refused, unless its window was open; then the terminal event was an
error. -/
structure Calls (s : State) : Prop where
  posted : s.posted = s.returned ++ s.node.returning
  refused : s.posts.Pairwise fun p q => p.returned = true → p.closes = true → q.returned = false
  first : ∀ c, s.node = .first c → c.late = true →
    (s.events.take s.delivered).any Event.terminal = true ∧
      (c.window = false → s.accepting = false)
  passed : ∀ c, s.node.passed = some c → c.late = true → c.window = true ∧ .error ∈ s.events
  late : ∀ p ∈ s.posts, p.returned = true → p.call.late = true →
    p.call.window = true ∧ .error ∈ s.events

/-- A call ends by throwing. -/
theorem Calls.refuse {s s' : State} {c : Call} (hc : Calls s) (hnode : s.node.returning = [])
    (hnode' : s'.node = .idle) (hposted : s'.posted = s.posted)
    (hposts : s'.posts = s.posts ++ [⟨c, false⟩]) (hevents : s'.events = s.events) : Calls s' := by
  constructor
  · have hreturned : s'.returned = s.returned := by simp [State.returned, hposts]
    have hidle : NodePc.idle.returning = [] := rfl
    rw [hposted, hc.posted, hnode, hreturned, hnode', hidle]
  · rw [hposts, List.pairwise_append]
    refine ⟨hc.refused, List.pairwise_singleton _ _, fun p _ q hq => ?_⟩
    rw [List.mem_singleton.mp hq]
    exact fun _ _ => rfl
  · intro c h
    rw [hnode'] at h
    cases h
  · intro c h
    rw [hnode'] at h
    cases h
  · rw [hposts, hevents]
    intro p hp hreturned
    rcases List.mem_append.mp hp with hp | hp
    · exact hc.late p hp hreturned
    · rw [List.mem_singleton.mp hp] at hreturned
      cases hreturned

/-- A call ends by returning. No close was written before its own message. -/
theorem Calls.finish {s s' : State} {c : Call} (hc : Calls s) (hnode : s.node.passed = some c)
    (hnode' : s'.node = .idle) (hposts : s'.posts = s.posts ++ [⟨c, true⟩])
    (hposted : s'.posted = s.returned ++ [c.message]) (hevents : s'.events = s.events)
    (hopen : ∀ m ∈ s.returned, m.closes = false) : Calls s' := by
  constructor
  · have hreturned : s'.returned = s.returned ++ [c.message] := by simp [State.returned, hposts]
    have hidle : NodePc.idle.returning = [] := rfl
    rw [hposted, hreturned, hnode', hidle, List.append_nil]
  · rw [hposts, List.pairwise_append]
    refine ⟨hc.refused, List.pairwise_singleton _ _, fun p hp q _ hreturned hcloses => ?_⟩
    have hmem : p.call.message ∈ s.returned :=
      List.mem_map_of_mem (List.mem_filter.mpr ⟨hp, hreturned⟩)
    exact absurd (hopen _ hmem) (by rw [show p.call.message.closes = true from hcloses]; decide)
  · intro c h
    rw [hnode'] at h
    cases h
  · intro c h
    rw [hnode'] at h
    cases h
  · rw [hposts, hevents]
    intro p hp hreturned
    rcases List.mem_append.mp hp with hp | hp
    · exact hc.late p hp hreturned
    · rw [List.mem_singleton.mp hp]
      exact hc.passed c hnode

/-- The Node thread goes on in the same call, or in none. -/
theorem Calls.proceed {s s' : State} (hc : Calls s) (hposted : s'.posted = s.posted)
    (hposts : s'.posts = s.posts) (hevents : s'.events = s.events)
    (hreturning : s'.node.returning = s.node.returning)
    (hpassed : ∀ c, s'.node.passed = some c → s.node.passed = some c)
    (hfirst : ∀ c, s'.node ≠ .first c) : Calls s' := by
  refine ⟨?_, hposts ▸ hc.refused, fun c h => absurd h (hfirst c), ?_, ?_⟩
  · rw [hposted, hreturning, State.returned, hposts]
    exact hc.posted
  · rw [hevents]
    exact fun c h => hc.passed c (hpassed c h)
  · rw [hposts, hevents]
    exact hc.late

/-- The worker has queued events, or has stored `m_accepting`. -/
theorem Calls.worker {s s' : State} (hc : Calls s) (he : Events s) (hposted : s'.posted = s.posted)
    (hposts : s'.posts = s.posts) (hnode : s'.node = s.node)
    (hdelivered : s'.delivered = s.delivered) (es : List Event)
    (hevents : s'.events = s.events ++ es)
    (haccepting : s.accepting = false → s'.accepting = false) : Calls s' := by
  have hmem : .error ∈ s.events → .error ∈ s'.events := by
    rw [hevents]
    exact List.mem_append_left _
  refine ⟨?_, hposts ▸ hc.refused, ?_, ?_, ?_⟩
  · rw [hposted, hnode, State.returned, hposts]
    exact hc.posted
  · rw [hnode, hevents, hdelivered, List.take_append_of_le_length he.bound]
    exact fun c h hlate => (hc.first c h hlate).imp_right (haccepting ∘ ·)
  · rw [hnode]
    exact fun c h hlate => (hc.passed c h hlate).imp_right hmem
  · rw [hposts]
    exact fun p hp hreturned hlate => (hc.late p hp hreturned hlate).imp_right hmem

/-- A terminal event that was delivered while messages are accepted is an error. -/
theorem Events.error_of_accepting {s : State} (he : Events s) (ha : s.accepting = true)
    (h : (s.events.take s.delivered).any Event.terminal = true) : .error ∈ s.events := by
  obtain ⟨e, hmem, hterminal⟩ := List.any_eq_true.mp h
  cases e with
  | progress => cases hterminal
  | complete => exact absurd (ha.symm.trans (he.delivered hmem)) (by decide)
  | error => exact List.mem_of_mem_take hmem

/-- When a terminal event was delivered, `run` has queued it. -/
theorem Events.withdrawn_of_delivered {s : State} (he : Events s)
    (h : s.terminalDelivered = true) : s.worker = .withdraw ∨ s.worker.withdrawn = true := by
  by_contra hnot
  rw [not_or] at hnot
  have hprogress : ∃ n, s.events = List.replicate n .progress := by
    refine he.progress ?_
    revert hnot
    cases s.worker <;> simp [WorkerPc.over, WorkerPc.withdrawn]
  obtain ⟨n, hn⟩ := hprogress
  obtain ⟨e, hmem, hterminal⟩ := List.any_eq_true.mp h
  have hmem := List.mem_of_mem_take hmem
  rw [hn] at hmem
  rw [List.eq_of_mem_replicate hmem] at hterminal
  cases hterminal

/-- What was returned so far holds no close, unless a close was written. -/
theorem Calls.open {s : State} (hc : Calls s) (h : ¬ s.Closed) :
    ∀ m ∈ s.returned, m.closes = false := by
  intro m hm
  by_contra hcloses
  refine h (.inr ⟨m, ?_, by simpa using hcloses⟩)
  rw [hc.posted]
  exact List.mem_append_left _ hm

theorem Calls.node_step {s s' : State} (hc : Calls s) (hf : Flags s) (hq : Queue s) (he : Events s)
    (h : NodeStep s s') : Calls s' := by
  cases h with
  | begin m h =>
    refine ⟨?_, hc.refused, ?_, fun c h => (by cases h), hc.late⟩
    · have hposted := hc.posted
      rw [h] at hposted
      exact hposted
    · rintro c heq hlate
      cases heq
      refine ⟨hlate, fun hwindow => ?_⟩
      rcases he.withdrawn_of_delivered hlate with hw | hw
      · have hopen : (s.call m).window = true := by
          rw [State.call, hw, show s.terminalDelivered = true from hlate]
          rfl
        exact absurd (hopen.symm.trans hwindow) (by decide)
      · exact hf.withdrawn hw
  | firstRefused c h ha => exact hc.refuse (by rw [h]; rfl) rfl rfl rfl rfl
  | firstPassed c h ha =>
    refine ⟨?_, hc.refused, fun c h => (by cases h), ?_, hc.late⟩
    · have hposted := hc.posted
      rw [h] at hposted
      exact hposted
    · rintro c' heq hlate
      cases heq
      obtain ⟨hdelivered, hwindow⟩ := hc.first c h hlate
      refine ⟨?_, he.error_of_accepting ha hdelivered⟩
      by_contra hclosed
      exact absurd (ha.symm.trans (hwindow (by simpa using hclosed))) (by decide)
  | alreadyStarted c h hs =>
    exact hc.proceed rfl rfl rfl (by rw [h]; rfl) (by rw [h]; exact fun _ h => h) (by simp)
  | starting c h hs =>
    exact hc.proceed rfl rfl rfl (by rw [h]; rfl) (by rw [h]; exact fun _ h => h) (by simp)
  | launched c h =>
    exact hc.proceed rfl rfl rfl (by rw [h]; rfl) (by rw [h]; exact fun _ h => h) (by simp)
  | functionFailed c h => exact hc.refuse (by rw [h]; rfl) rfl rfl rfl rfl
  | threadFailed c h => exact hc.refuse (by rw [h]; rfl) rfl rfl rfl rfl
  | secondRefused c h ha => exact hc.refuse (by rw [h]; rfl) rfl rfl rfl rfl
  | secondPassed c h ha =>
    exact hc.proceed rfl rfl rfl (by rw [h]; rfl) (by rw [h]; exact fun _ h => h) (by simp)
  | written c h hcloses =>
    have hopen : ¬ s.Closed := hf.calling (by rw [h]; rfl)
    have hposted := hc.posted
    rw [h] at hposted
    refine hc.finish (by rw [h]; rfl) rfl rfl ?_ rfl (hc.open hopen)
    calc s.posted ++ [c.message] = (s.returned ++ []) ++ [c.message] := by rw [hposted]; rfl
      _ = s.returned ++ [c.message] := by rw [List.append_nil]
  | writtenClose c h hcloses =>
    have hposted := hc.posted
    rw [h] at hposted
    refine ⟨?_, hc.refused, fun c h => (by cases h), ?_, hc.late⟩
    · calc s.posted ++ [c.message] = (s.returned ++ []) ++ [c.message] := by rw [hposted]; rfl
        _ = s.returned ++ [c.message] := by rw [List.append_nil]
    · rintro c' heq
      cases heq
      exact hc.passed c (by rw [h]; rfl)
  | withdrawn c h =>
    have hposted := hc.posted
    rw [h] at hposted
    exact hc.finish (by rw [h]; rfl) rfl rfl hposted rfl (hq.posted _ _ hposted)
  | deliver h hd =>
    refine ⟨hc.posted, hc.refused, fun c hc => ?_, hc.passed, hc.late⟩
    cases h.symm.trans hc
  | stop h => exact hc.proceed rfl rfl rfl (by rw [h]; rfl) (fun _ h => (by cases h)) (by simp)
  | stopUnstarted h hs =>
    exact hc.proceed rfl rfl rfl (by rw [h]; rfl) (fun _ h => (by cases h)) (by simp)
  | stopHasStarted h hs =>
    exact hc.proceed rfl rfl rfl (by rw [h]; rfl) (fun _ h => (by cases h)) (by simp)
  | stopIsStopped h hs =>
    exact hc.proceed rfl rfl rfl (by rw [h]; rfl) (fun _ h => (by cases h)) (by simp)
  | stopNotStopped h hs =>
    exact hc.proceed rfl rfl rfl (by rw [h]; rfl) (fun _ h => (by cases h)) (by simp)
  | exchanged h ha =>
    exact hc.proceed rfl rfl rfl (by rw [h]; rfl) (fun _ h => (by cases h)) (by simp)
  | notAccepting h ha =>
    exact hc.proceed rfl rfl rfl (by rw [h]; rfl) (fun _ h => (by cases h)) (by simp)
  | stopWritten h =>
    exact hc.proceed rfl rfl rfl (by rw [h]; rfl) (fun _ h => (by cases h)) (by simp)
  | joined h hw =>
    exact hc.proceed rfl rfl rfl (by rw [h]; rfl) (fun _ h => (by cases h)) (by simp)

theorem Calls.worker_step {s s' : State} (hc : Calls s) (he : Events s) (h : WorkerStep s s') :
    Calls s' := by
  cases h with
  | progress h => exact hc.worker he rfl rfl rfl rfl [.progress] rfl id
  | rxProgress h => exact hc.worker he rfl rfl rfl rfl [.progress] rfl id
  | threw m ms h => exact hc.worker he rfl rfl rfl rfl [.progress] rfl id
  | queued e h => exact hc.worker he rfl rfl rfl rfl [e] rfl id
  | withdrawn h =>
    exact hc.worker he rfl rfl rfl rfl [] (List.append_nil _).symm fun _ => rfl
  | _ => exact hc.worker he rfl rfl rfl rfl [] (List.append_nil _).symm id

/-! ## Runs -/

structure Inv (s : State) : Prop where
  flags : Flags s
  queue : Queue s
  events : Events s
  calls : Calls s

theorem inv_initial : Inv State.initial := by
  refine ⟨flags_initial, ⟨fun _ => rfl, List.prefix_rfl, ?_, fun h => (by cases h)⟩, ?_, ?_⟩
  · intro ms m heq
    simp [State.initial] at heq
  · exact ⟨le_rfl, fun h => (by cases h), fun e h => (by cases h), fun _ => ⟨0, rfl⟩, .open 0,
      fun h => absurd h List.not_mem_nil, fun h => absurd h List.not_mem_nil⟩
  · exact ⟨rfl, List.Pairwise.nil, fun c h => (by cases h), fun c h => (by cases h),
      fun p h => absurd h List.not_mem_nil⟩

theorem Inv.step {s s' : State} (hi : Inv s) (h : Step s s') : Inv s' := by
  rcases h with h | h
  · exact ⟨hi.flags.node_step h, hi.queue.node_step hi.flags h, hi.events.node_step hi.flags h,
      hi.calls.node_step hi.flags hi.queue hi.events h⟩
  · exact ⟨hi.flags.worker_step h, hi.queue.worker_step h, hi.events.worker_step hi.queue h,
      hi.calls.worker_step hi.events h⟩

theorem inv_of_reachable {s : State} (h : Reachable s) : Inv s := by
  induction h with
  | refl => exact inv_initial
  | tail _ hstep ih => exact ih.step hstep

/-- A close is the last message that is sent. -/
theorem Queue.sent_closes {s : State} (hq : Queue s) {ms : List Message} {m : Message}
    (h : s.sent = ms ++ [m]) : ∀ m' ∈ ms, m'.closes = false := by
  by_cases hstop : s.stopClose = true
  · rw [State.sent, if_pos hstop] at h
    obtain ⟨rfl, -⟩ := List.append_inj' h rfl
    exact hq.stop hstop
  · rw [State.sent, if_neg hstop, List.append_nil] at h
    exact hq.posted ms m h

/-- **No command is lost, duplicated or reordered.** What is sent are the messages of the calls that
returned, in their order, and at the end a close of `stop`. While `Execute` runs each of them is
processed, drained or queued, once and in order; later the processed ones are an initial segment. A
close is the last message, and every call after it throws. At most one terminal event is queued, as
the last event. The thread is joined only after a close or after `Execute`. A call after the
delivery of a terminal event throws, unless `run` had not stored `m_accepting` when it began; and
the event was an error if it returned. -/
theorem no_command_lost {s : State} (h : Reachable s) :
    s.sent = s.returned ++ s.node.returning ++ (if s.stopClose then [closeMessage] else []) ∧
    (s.worker.over = false → s.processed ++ s.worker.pending ++ s.queue = s.sent) ∧
    s.processed <+: s.sent ∧
    (∀ ms m, s.sent = ms ++ [m] → ∀ m' ∈ ms, m'.closes = false) ∧
    (s.posts.Pairwise fun p q => p.returned = true → p.closes = true → q.returned = false) ∧
    Ends s.events ∧
    (s.node = .join → s.Closed ∨ s.worker.executing = false) ∧
    (∀ p ∈ s.posts, p.call.late = true → p.call.window = false → p.returned = false) ∧
    (∀ p ∈ s.posts, p.call.late = true → p.returned = true → .error ∈ s.events) := by
  obtain ⟨hf, hq, he, hc⟩ := inv_of_reachable h
  refine ⟨?_, hq.kept, hq.first, fun ms m => hq.sent_closes, hc.refused, he.ends, hf.joining, ?_,
    fun p hp hlate hreturned => (hc.late p hp hreturned hlate).2⟩
  · rw [State.sent, hc.posted]
  · intro p hp hlate hwindow
    by_contra hreturned
    have hopen := (hc.late p hp (by simpa using hreturned) hlate).1
    exact absurd (hopen.symm.trans hwindow) (by decide)

/-! ## A late message -/

def job : Message :=
  ⟨"job", []⟩

/-- Processing a job throws something else than a text, and `run` has queued the error. -/
theorem reachable_error : ∃ s, Reachable s ∧ s.node = .idle ∧ s.accepting = true ∧
    s.started = true ∧ s.worker = .withdraw ∧ s.processed = [job] ∧ s.events = [.error] ∧
    s.delivered = 1 := by
  refine ⟨_, Relation.ReflTransGen.head (.inl (.begin _ job rfl)) <|
    .head (.inl (.firstPassed _ _ rfl rfl)) <| .head (.inl (.starting _ _ rfl rfl)) <|
    .head (.inl (.launched _ _ rfl)) <| .head (.inl (.secondPassed _ _ rfl rfl)) <|
    .head (.inl (.written _ _ rfl rfl)) <| .head (.inr (.drain _ rfl)) <|
    .head (.inr (.unwoundBatch _ _ _ rfl)) <| .head (.inr (.queued _ _ rfl)) <|
    .head (.inl (.deliver _ rfl (by decide))) .refl, rfl, rfl, rfl, rfl, rfl, rfl, rfl⟩

theorem no_command_lost_error : ∃ s : State, s.processed = [job] ∧ s.processed <+: s.sent := by
  obtain ⟨s, hs, -, -, -, -, hprocessed, -⟩ := reachable_error
  exact ⟨s, hprocessed, (no_command_lost hs).2.2.1⟩

/-- The next job is posted after the error was delivered, and its call returns. -/
theorem late_post_returns : ∃ s, Reachable s ∧
    ∃ p ∈ s.posts, p.call.late = true ∧ p.returned = true := by
  obtain ⟨s, hs, hnode, haccepting, hstarted, -, -, hevents, hdelivered⟩ := reachable_error
  refine ⟨_, hs.trans <| .head (.inl (.begin s job hnode)) <|
    .head (.inl (.firstPassed _ _ rfl haccepting)) <|
    .head (.inl (.alreadyStarted _ _ rfl hstarted)) <|
    .head (.inl (.secondPassed _ _ rfl haccepting)) <|
    .head (.inl (.written _ _ rfl rfl)) .refl, ⟨s.call job, true⟩, ?_, ?_, rfl⟩
  · simp [State.ended]
  · simp [State.call, State.terminalDelivered, hevents, hdelivered, Event.terminal]

end MoMiner.Native.AsyncWorker
