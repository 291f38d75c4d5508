import MoMiner.Lib.Run
import MoMiner.Pool.Connection

/-!
# Connections do not leak

Once a connection is cleared, the session of its pool is that of a freshly configured pool. What
the next connection shows (the messages it writes, how it classifies responses, the jobs it
builds) then depends on the configuration and on its own events alone: the share counters, the
connect time and the donation deadline are the only traces of the past, and no handler reads them.

Main result: `cleared_connection_leaves_no_trace`.
-/

namespace MoMiner.Pool

open MoMiner.Js

/-- A pool as the options layer configures it. -/
def freshPool (config : PoolConfig) : MoMiner.Pool := { config }

/-- What one event of a connection shows. -/
structure Observation where
  /-- The messages written to the pool. -/
  sent : List Json := []
  /-- A share response, as it was classified. -/
  share : Option Bool := none
  /-- The job that was built. -/
  job : Option PoolJob := none

def Reply.observation (r : Reply) : Observation := { sent := r.sent, share := r.share, job := r.job }

namespace Connection

/-- What an event shows; a message that ends the connection shows nothing. -/
def observe (host : Host) (c : Connection) : ConnectionEvent → Option Observation
  | .connected => some (handlePoolConnect host c.pool.config c.pool.session).observation
  | .write json => some (poolWrite host c.pool.config c.pool.session json).observation
  | .cortexShare params => some <| match c.cortexRequestId with
    | none => {}
    | some id => (poolWrite host c.pool.config (c.issue id).pool.session
        (cortexRequest params id)).observation
  | .cortexElsewhere => some {}
  | .receive message random =>
    match receivedReply host c.pool.config random c.pool.session message with
    | .error _ => none
    | .ok r => some r.observation

/-- What a sequence of events shows, up to the end of the connection. -/
def observations (host : Host) (c : Connection) : List ConnectionEvent → List (Option Observation)
  | [] => []
  | e :: es => c.observe host e :: match c.step host e with
    | none => []
    | some c' => c'.observations host es

/-- Two connections agree on all that their handlers read. -/
structure Agree (c d : Connection) : Prop where
  config : c.pool.config = d.pool.config
  session : c.pool.session = d.pool.session
  cortexSubmitId : c.cortexSubmitId = d.cortexSubmitId

variable {host : Host} {c d c' d' : Connection} {e : ConnectionEvent}

theorem Agree.cortexRequestId (h : c.Agree d) : c.cortexRequestId = d.cortexRequestId := by
  rw [Connection.cortexRequestId, Connection.cortexRequestId, h.session, h.cortexSubmitId]

theorem Agree.withSession (h : c.Agree d) {s : Session} : (c.withSession s).Agree (d.withSession s) :=
  ⟨h.config, rfl, h.cortexSubmitId⟩

theorem Agree.write (h : c.Agree d) (json : Json) : (c.write host json).Agree (d.write host json) := by
  refine ⟨h.config, ?_, h.cortexSubmitId⟩
  simp only [Connection.write, Connection.withSession, h.config, h.session]

theorem Agree.issue (h : c.Agree d) (id : ℕ) : (c.issue id).Agree (d.issue id) :=
  ⟨h.config, by simp only [Connection.issue, Connection.withSession, h.session], rfl⟩

theorem Agree.replied (h : c.Agree d) (message : Json) (r : Reply) :
    (c.replied host message r).Agree (d.replied host message r) := by
  refine ⟨?_, ?_, h.cortexSubmitId⟩
  · simp only [Connection.replied, countShare_config, h.config]
  · simp only [Connection.replied, countShare_session]

theorem Agree.observe (h : c.Agree d) : c.observe host e = d.observe host e := by
  cases e with
  | connected => simp only [Connection.observe, h.config, h.session]
  | write json => simp only [Connection.observe, h.config, h.session]
  | cortexShare params =>
    have hid := h.cortexRequestId
    simp only [Connection.observe, hid, h.config, (h.issue _).session]
  | cortexElsewhere => rfl
  | receive message random => simp only [Connection.observe, h.config, h.session]

/-- Agreement is kept by every event: either both connections end or both go on. -/
theorem Agree.step (h : c.Agree d) :
    (c.step host e = none ∧ d.step host e = none) ∨
    ∃ c' d', c.step host e = some c' ∧ d.step host e = some d' ∧ c'.Agree d' := by
  cases e with
  | connected =>
    refine .inr ⟨_, _, rfl, rfl, ?_⟩
    rw [← h.config, ← h.session]
    exact h.withSession
  | write json => exact .inr ⟨_, _, rfl, rfl, h.write json⟩
  | cortexShare params =>
    refine .inr ⟨_, _, rfl, rfl, ?_⟩
    simp only [Connection.cortexShare, h.cortexRequestId]
    split
    · exact h
    · exact (h.issue _).write _
  | cortexElsewhere =>
    refine .inr ⟨_, _, rfl, rfl, h.config, h.session, ?_⟩
    simp only [h.cortexSubmitId]
  | receive message random =>
    simp only [Connection.step, Connection.receive, h.config, h.session]
    split
    · exact .inl ⟨rfl, rfl⟩
    · exact .inr ⟨_, _, rfl, rfl, h.replied message _⟩

theorem Agree.observations (h : c.Agree d) (es : List ConnectionEvent) :
    c.observations host es = d.observations host es := by
  induction es generalizing c d with
  | nil => rfl
  | cons e es ih =>
    simp only [Connection.observations, h.observe]
    have hstep : (c.step host e = none ∧ d.step host e = none) ∨ _ := h.step
    rcases hstep with ⟨hc, hd⟩ | ⟨c', d', hc, hd, h'⟩
    · rw [hc, hd]
    · rw [hc, hd]
      simp only [ih h']

/-- No event changes the configuration. -/
theorem step_config (h : c.step host e = some c') : c'.pool.config = c.pool.config := by
  cases e with
  | connected | write | cortexElsewhere =>
    cases h
    rfl
  | cortexShare params =>
    cases h
    unfold cortexShare
    split <;> rfl
  | receive message random =>
    simp only [step, receive] at h
    split at h
    · cases h
    · cases h
      simp [replied]

/-- **A cleared connection leaves no trace.** Whatever happened on a connection of a pool, and
whatever session `s` its last message left, also when it failed halfway: after
`clear_pool_connection` the session is that of a freshly configured pool, and the next connection
shows what the same events show on a fresh pool. The events include the submissions, which the
process's Cortex counter `k'` numbers. -/
theorem cleared_connection_leaves_no_trace {host : Host} {pool : MoMiner.Pool} {c : Connection}
    {socket k : ℕ} {es : List ConnectionEvent}
    (h : Run (fun c e c' => c.step host e = some c') (Connection.open pool socket k) es c)
    (s : Session) :
    { c.pool with session := s }.clearConnection.session = (freshPool pool.config).session ∧
    ∀ (socket' k' : ℕ) (later : List ConnectionEvent),
      (onPool { c.pool with session := s }.clearConnection socket' k').observations host later =
        (onPool (freshPool pool.config) socket' k').observations host later := by
  have hconfig : c.pool.config = pool.config :=
    Run.invariant (I := fun c => c.pool.config = pool.config) h rfl
      fun _ _ _ hc hstep => (step_config hstep).trans hc
  refine ⟨rfl, fun socket' k' later => ?_⟩
  have hagree : (onPool { c.pool with session := s }.clearConnection socket' k').Agree
      (onPool (freshPool pool.config) socket' k') := ⟨hconfig, rfl, rfl⟩
  exact hagree.observations later

/-- A connection that has got a job is cleared. -/
theorem cleared_connection_leaves_no_trace_login :
    (exampleAfter [.connected, .receive exampleLogin ""]).pool.session.lastJob.isSome ∧
    (exampleAfter [.connected, .receive exampleLogin ""]).pool.clearConnection.session =
      (freshPool examplePool.config).session := by
  have h : ([ConnectionEvent.connected, .receive exampleLogin ""].foldlM
        (Connection.step exampleHost) (Connection.open examplePool 0 72)).isSome ∧
      (exampleAfter [.connected, .receive exampleLogin ""]).pool.session.lastJob.isSome := by
    decide +kernel
  have hrun : Run (fun c e c' => c.step exampleHost e = some c')
      (Connection.open examplePool 0 72) [.connected, .receive exampleLogin ""]
      (exampleAfter [.connected, .receive exampleLogin ""]) := Run.of_isSome h.1 _
  exact ⟨h.2, (cleared_connection_leaves_no_trace hrun _).1⟩

end Connection

end MoMiner.Pool
