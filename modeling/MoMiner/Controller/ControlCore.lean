import Mathlib.Data.List.Basic

/-!
# Errors of the control core

The master's control core: the requests that `onceCoreResponse` of `mom.js` sends with listeners
for their response and for an error, the `write_msr` commands that `set_algo_msr` and
`closeComputeCore` send without any, the native core that handles its commands in order, and the
emitter of `create_core` that the native messages reach in order. A run is any sequence of sends,
of commands handled with any outcome and of deliveries.

Commands carry their place in the order of sending. Responses and errors carry the place of the
command they come from, which the code does not know.

Main result: `errors_attributed`.
-/

namespace MoMiner.Controller.ControlCore

/-- A command that is sent through `onceCoreResponse`; its response has the same name. -/
inductive Request
  | algoParams
  | readMsr
deriving DecidableEq

inductive CommandName
  | request (r : Request)
  | writeMsr
  | close
deriving DecidableEq

structure Command where
  name : CommandName
  id : ℕ
deriving DecidableEq

/-- The two listeners of a call of `onceCoreResponse`; `cleanup` removes them together. -/
structure Listener where
  name : Request
  id : ℕ
deriving DecidableEq

/-- What the core sends. An error that ends the worker outside of a command has no origin. -/
inductive Message
  | response (name : Request) (id : ℕ)
  | error (origin : Option ℕ)
  | closed
deriving DecidableEq

/-- A call of an `on_error` callback. -/
structure OnError where
  listener : ℕ
  origin : Option ℕ
deriving DecidableEq

structure State where
  listeners : List Listener
  /-- The commands that the core did not handle yet. -/
  commands : List Command
  running : Bool
  /-- The messages that the emitter did not emit yet. -/
  messages : List Message
  sent : ℕ
  /-- `is_exiting` -/
  exiting : Bool
  /-- The errors that were emitted without a listener. -/
  unhandled : List (Option ℕ)
  ran : List OnError
deriving DecidableEq

def State.initial : State where
  listeners := []
  commands := []
  running := true
  messages := []
  sent := 0
  exiting := false
  unhandled := []
  ran := []

/-! ## Steps -/

/-- A command for a core that has ended is not handled any more. -/
def State.emitTo (s : State) (name : CommandName) : State :=
  { s with commands := s.commands ++ [⟨name, s.sent⟩], sent := s.sent + 1 }

/-- `onceCoreResponse`, then `emit_to`. -/
def State.onceCoreResponse (s : State) (name : Request) : State :=
  let listener : Listener := ⟨name, s.sent⟩
  { s with listeners := s.listeners ++ [listener] }.emitTo (.request name)

/-- `exit`: `closeComputeCore` restores the default MSR values, when there are any, and closes. -/
def State.closeComputeCore (s : State) (restore : Bool) : State :=
  let s := { s with exiting := true }
  (if restore then s.emitTo .writeMsr else s).emitTo .close

/-- How `process_message` ends: normally, with a text that is sent as an error, or with another
exception, which ends the worker. -/
inductive Outcome
  | ok
  | failed
  | ended
deriving DecidableEq

/-- What the core sends when it handled the command normally. -/
def CommandName.response (id : ℕ) : CommandName → List Message
  | .request name => [.response name id]
  | .writeMsr => []
  | .close => [.closed]

/-- The core handles its next command. -/
def State.process (s : State) (outcome : Outcome) : State :=
  match s.running, s.commands with
  | true, c :: commands =>
    match outcome with
    | .ok => { s with
        commands := commands
        running := c.name != .close
        messages := s.messages ++ c.name.response c.id }
    | .failed => { s with
        commands := commands, messages := s.messages ++ [.error (some c.id)] }
    | .ended => { s with
        commands := commands
        running := false
        messages := s.messages ++ [.error (some c.id)] }
  | _, _ => s

/-- `emit("error", …)`: every listener runs and cleans up, none means that it throws. -/
def State.emitError (s : State) (origin : Option ℕ) : State :=
  if s.listeners = [] then { s with unhandled := s.unhandled ++ [origin] }
  else { s with
    listeners := []
    ran := s.ran ++ if s.exiting then [] else s.listeners.map fun l => ⟨l.id, origin⟩ }

/-- The emitter emits the next message. -/
def State.deliver (s : State) : State :=
  match s.messages with
  | [] => s
  | m :: messages =>
    let s := { s with messages := messages }
    match m with
    | .response name _ => { s with listeners := s.listeners.filter (·.name != name) }
    | .error origin => s.emitError origin
    | .closed => s

inductive Event
  | request (name : Request)
  | writeMsr
  | exit (restore : Bool)
  | process (outcome : Outcome)
  /-- The worker ends with an exception outside of a command. -/
  | crash
  | deliver
deriving DecidableEq

/-- After `exit` the master sends nothing to this core. -/
def step (s : State) : Event → State
  | .request name => if s.exiting then s else s.onceCoreResponse name
  | .writeMsr => if s.exiting then s else s.emitTo .writeMsr
  | .exit restore => if s.exiting then s else s.closeComputeCore restore
  | .process outcome => s.process outcome
  | .crash =>
    if s.running then { s with running := false, messages := s.messages ++ [.error none] } else s
  | .deliver => s.deliver

def run (events : List Event) : State :=
  events.foldl step State.initial

/-! ## Attribution -/

def CommandName.isRequest : CommandName → Bool
  | .request _ => true
  | _ => false

def Message.isAnswer : Message → Bool
  | .closed => false
  | _ => true

/-- The requests that the core will still handle. -/
def State.requests (s : State) : List Command :=
  if s.running then s.commands.filter (·.name.isRequest) else []

/-- The responses and errors that are still to be emitted. -/
def State.answers (s : State) : List Message :=
  s.messages.filter Message.isAnswer

/-- A request is sent while no other is pending, `write_msr` and `close` do not fail, and the
worker does not end outside of a command. -/
def careful (s : State) : Event → Bool
  | .request _ => s.listeners = []
  | .process outcome =>
    outcome == .ok || !s.running || s.commands.head?.all (·.name.isRequest)
  | .crash => !s.running
  | _ => true

def carefulRun : State → List Event → Bool
  | _, [] => true
  | s, e :: events => careful s e && carefulRun (step s e) events

def Message.Answers (m : Message) (l : Listener) : Prop :=
  m = .response l.name l.id ∨ m = .error (some l.id)

/-- What is under way: nothing that will be answered, or the request of the only listener, or the
answer to it. -/
inductive Pending (s : State) : Prop
  | none (hrequests : s.requests = []) (hanswers : s.answers = [])
  | request (l : Listener) (hlisteners : s.listeners = [l])
      (hrequests : s.requests = [⟨.request l.name, l.id⟩]) (hanswers : s.answers = [])
  | answer (l : Listener) (m : Message) (hlisteners : s.listeners = [l])
      (hrequests : s.requests = []) (hanswers : s.answers = [m]) (hm : m.Answers l)

/-- Every error found a listener, and the callbacks that ran were those of the failed request. -/
structure Attributed (s : State) : Prop where
  handled : s.unhandled = []
  own : ∀ r ∈ s.ran, r.origin = some r.listener

/-- Steps that send nothing new to be answered. -/
theorem Pending.congr {s s' : State} (h : Pending s) (hlisteners : s'.listeners = s.listeners)
    (hrequests : s'.requests = s.requests) (hanswers : s'.answers = s.answers) : Pending s' := by
  cases h with
  | none hr ha => exact .none (hrequests.trans hr) (hanswers.trans ha)
  | request l hl hr ha =>
    exact .request l (hlisteners.trans hl) (hrequests.trans hr) (hanswers.trans ha)
  | answer l m hl hr ha hm =>
    exact .answer l m (hlisteners.trans hl) (hrequests.trans hr) (hanswers.trans ha) hm

theorem requests_emitTo (s : State) {name : CommandName} (h : name.isRequest = false) :
    (s.emitTo name).requests = s.requests := by
  simp [State.requests, State.emitTo, h]

theorem Pending.emitTo {s : State} (h : Pending s) {name : CommandName}
    (hname : name.isRequest = false) : Pending (s.emitTo name) :=
  h.congr rfl (requests_emitTo s hname) rfl

theorem Pending.onceCoreResponse {s : State} (h : Pending s) (name : Request)
    (hidle : s.listeners = []) : Pending (s.onceCoreResponse name) := by
  have hnone : s.requests = [] ∧ s.answers = [] := by
    cases h with
    | none hr ha => exact ⟨hr, ha⟩
    | request l hl => rw [hidle] at hl; cases hl
    | answer l m hl => rw [hidle] at hl; cases hl
  have hlisteners : (s.onceCoreResponse name).listeners = [⟨name, s.sent⟩] := by
    simp [State.onceCoreResponse, State.emitTo, hidle]
  cases hrun : s.running with
  | true =>
    refine .request ⟨name, s.sent⟩ hlisteners ?_ hnone.2
    have hrequests : s.commands.filter (·.name.isRequest) = [] := by
      simpa [State.requests, hrun] using hnone.1
    simp only [State.requests, State.onceCoreResponse, State.emitTo, hrun, if_true,
      List.filter_append, hrequests]
    rfl
  | false =>
    have hrequests : (s.onceCoreResponse name).requests = [] := by
      simp [State.requests, State.onceCoreResponse, State.emitTo, hrun]
    exact .none hrequests hnone.2

theorem Pending.closeComputeCore {s : State} (h : Pending s) (restore : Bool) :
    Pending (s.closeComputeCore restore) := by
  have hexiting : Pending { s with exiting := true } := h.congr rfl rfl rfl
  unfold State.closeComputeCore
  cases restore with
  | true => exact (hexiting.emitTo rfl).emitTo rfl
  | false => exact hexiting.emitTo rfl

/-- The core takes a command: a request is answered, another command is not. -/
theorem Pending.take {s s' : State} (h : Pending s) {c : Command} {commands : List Command}
    (hrun : s.running = true) (hcommands : s.commands = c :: commands)
    (hrest : s'.commands = commands) (hlisteners : s'.listeners = s.listeners)
    (hanswer : c.name.isRequest = true → ∃ m : Message, s'.messages = s.messages ++ [m] ∧
      m.isAnswer = true ∧ ∀ name, c.name = .request name → m.Answers ⟨name, c.id⟩)
    (hquiet : c.name.isRequest = false → s'.answers = s.answers) : Pending s' := by
  have hrequests : s.requests = (c :: commands).filter (·.name.isRequest) := by
    rw [State.requests, hrun, if_pos rfl, hcommands]
  have hrequests' : s'.requests = [] ∨ s'.requests = commands.filter (·.name.isRequest) := by
    unfold State.requests
    split
    · exact .inr (by rw [hrest])
    · exact .inl rfl
  cases hc : c.name.isRequest with
  | true =>
    rw [List.filter_cons_of_pos (by simpa using hc)] at hrequests
    obtain ⟨m, hmessages, hisAnswer, hm⟩ := hanswer hc
    cases h with
    | none hr => rw [hrequests] at hr; cases hr
    | request l hl hr ha =>
      obtain ⟨hhead, htail⟩ := List.cons.inj (hrequests.symm.trans hr)
      have hnone : s'.requests = [] := by
        rcases hrequests' with h | h
        · exact h
        · exact h.trans htail
      refine .answer l m (hlisteners.trans hl) hnone ?_ ?_
      · have ha : s.messages.filter Message.isAnswer = [] := ha
        rw [State.answers, hmessages, List.filter_append, ha]
        simp [hisAnswer]
      · have hanswers := hm l.name (by rw [hhead])
        rw [hhead] at hanswers
        exact hanswers
    | answer l m hl hr => rw [hrequests] at hr; cases hr
  | false =>
    rw [List.filter_cons_of_neg (by simpa using hc)] at hrequests
    have hanswers := hquiet hc
    rcases hrequests' with hnone | hsame
    · cases h with
      | none hr ha => exact .none hnone (hanswers.trans ha)
      | request l hl hr ha => exact .none hnone (hanswers.trans ha)
      | answer l m hl hr ha hm =>
        exact .answer l m (hlisteners.trans hl) hnone (hanswers.trans ha) hm
    · exact h.congr hlisteners (hsame.trans hrequests.symm) hanswers

theorem Pending.process {s : State} (h : Pending s) (outcome : Outcome)
    (hcareful : careful s (.process outcome) = true) : Pending (s.process outcome) := by
  unfold State.process
  split
  · rename_i c commands hrun hcommands
    have hother : c.name.isRequest = false → outcome = .ok := by
      intro hc
      simpa [careful, hrun, hcommands, hc] using hcareful
    cases outcome with
    | ok =>
      refine h.take hrun hcommands rfl rfl (fun hc => ?_) fun hc => ?_
      · cases hname : c.name with
        | request name =>
          refine ⟨.response name c.id, rfl, rfl, fun name' hname' => ?_⟩
          cases hname'
          exact .inl rfl
        | writeMsr => rw [hname] at hc; cases hc
        | close => rw [hname] at hc; cases hc
      · cases hname : c.name with
        | request name => rw [hname] at hc; cases hc
        | writeMsr => simp [State.answers, CommandName.response]
        | close => simp [State.answers, CommandName.response, Message.isAnswer]
    | failed =>
      exact h.take hrun hcommands rfl rfl (fun _ => ⟨_, rfl, rfl, fun _ _ => .inr rfl⟩)
        fun hc => nomatch hother hc
    | ended =>
      exact h.take hrun hcommands rfl rfl (fun _ => ⟨_, rfl, rfl, fun _ _ => .inr rfl⟩)
        fun hc => nomatch hother hc
  · exact h

/-- Delivery resolves the request that the message answers. -/
theorem Pending.deliver {s : State} (h : Pending s) (ha : Attributed s) :
    Pending s.deliver ∧ Attributed s.deliver := by
  unfold State.deliver
  cases hmessages : s.messages with
  | nil => exact ⟨h, ha⟩
  | cons m messages =>
    cases hm : m.isAnswer with
    | false =>
      cases m with
      | closed =>
        refine ⟨h.congr rfl rfl ?_, ha.handled, ha.own⟩
        rw [State.answers, State.answers, hmessages, List.filter_cons_of_neg (by simp [hm])]
      | response name id => cases hm
      | error origin => cases hm
    | true =>
      have hanswers : s.answers = m :: messages.filter Message.isAnswer := by
        rw [State.answers, hmessages, List.filter_cons_of_pos hm]
      cases h with
      | none _ hnone => rw [hnone] at hanswers; cases hanswers
      | request _ _ _ hnone => rw [hnone] at hanswers; cases hanswers
      | answer l m' hl hr hone hm' =>
        obtain ⟨rfl, hrest⟩ := List.cons.inj (hone.symm.trans hanswers)
        rcases hm' with rfl | rfl
        · exact ⟨.none hr hrest.symm, ha.handled, ha.own⟩
        · simp only [State.emitError, hl, List.cons_ne_nil, if_false]
          refine ⟨.none hr hrest.symm, ha.handled, fun r hmem => ?_⟩
          rcases List.mem_append.mp hmem with hmem | hmem
          · exact ha.own r hmem
          · split at hmem
            · cases hmem
            · obtain rfl := List.mem_singleton.mp hmem
              rfl

theorem Pending.step {s : State} (h : Pending s) (ha : Attributed s) {e : Event}
    (hcareful : careful s e = true) : Pending (step s e) ∧ Attributed (step s e) := by
  cases e with
  | request name =>
    simp only [ControlCore.step]
    split
    · exact ⟨h, ha⟩
    · exact ⟨h.onceCoreResponse name (by simpa [careful] using hcareful), ha.handled, ha.own⟩
  | writeMsr =>
    simp only [ControlCore.step]
    split
    · exact ⟨h, ha⟩
    · exact ⟨h.emitTo rfl, ha.handled, ha.own⟩
  | exit restore =>
    simp only [ControlCore.step]
    split
    · exact ⟨h, ha⟩
    · exact ⟨h.closeComputeCore restore, by cases restore <;> exact ha.handled,
        by cases restore <;> exact ha.own⟩
  | process outcome =>
    refine ⟨h.process outcome hcareful, ?_⟩
    simp only [ControlCore.step, State.process]
    split
    · cases outcome <;> exact ⟨ha.handled, ha.own⟩
    · exact ha
  | crash =>
    have hended : s.running = false := by simpa [careful] using hcareful
    simp only [ControlCore.step, hended]
    exact ⟨h, ha⟩
  | deliver => exact h.deliver ha

/-- **In every run in which no request is sent while another is pending, no `write_msr` fails and
the worker does not end outside of a command, every error of the core finds a listener, and an
`on_error` callback runs only for an error of its own request.** -/
theorem errors_attributed (events : List Event)
    (hcareful : carefulRun .initial events = true) :
    (run events).unhandled = [] ∧ ∀ r ∈ (run events).ran, r.origin = some r.listener := by
  have hrun : ∀ (s : State) (events : List Event), Pending s → Attributed s →
      carefulRun s events = true → Attributed (events.foldl step s) := by
    intro s events
    induction events generalizing s with
    | nil => exact fun _ ha _ => ha
    | cons e events ih =>
      intro h ha hcareful
      rw [carefulRun, Bool.and_eq_true] at hcareful
      obtain ⟨h', ha'⟩ := h.step ha hcareful.1
      exact ih _ h' ha' hcareful.2
  obtain ⟨handled, own⟩ := hrun .initial events (.none rfl rfl)
    ⟨rfl, fun r hr => nomatch hr⟩ hcareful
  exact ⟨handled, own⟩

/-- Mining whose MSR values cannot be read. -/
theorem errors_attributed_mine :
    (run [.request .algoParams, .process .ok, .deliver, .request .readMsr, .process .failed,
      .deliver, .exit false, .process .ok, .deliver]).ran = [⟨1, some 1⟩] ∧
    (run [.request .algoParams, .process .ok, .deliver, .request .readMsr, .process .failed,
      .deliver, .exit false, .process .ok, .deliver]).unhandled = [] :=
  ⟨by decide, (errors_attributed _ (by decide)).1⟩

/-- Mining whose MSR values can be read and not written. -/
theorem write_msr_unhandled :
    ¬ ∀ events : List Event, (run events).unhandled = [] := fun h =>
  absurd (h [.request .algoParams, .process .ok, .deliver, .request .readMsr, .process .ok,
    .deliver, .writeMsr, .process .failed, .deliver]) (by decide)

end MoMiner.Controller.ControlCore
