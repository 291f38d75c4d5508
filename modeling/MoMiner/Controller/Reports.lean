import MoMiner.Controller.Workers

/-!
# Reports of the workers

What the message handler receives over a run of the worker controller, and what the timers kill.

Main result: `workers_run`.
-/

namespace MoMiner.Controller

/-! ## What the handler receives -/

theorem Book.live_of_mem_targets {t : Transport} {s : State} (hb : Book t s) {w : ℕ}
    (hw : w ∈ s.targets t) : s.live w = true := by
  cases t with
  | subprocess =>
    obtain ⟨i, -, hproc⟩ := List.mem_filterMap.mp hw
    exact ((hb.procs rfl i w).mp hproc).1
  | cluster =>
    have hw : w ∈ s.ids := hw
    rw [hb.ids] at hw
    obtain ⟨v, hv, rfl⟩ := List.mem_map.mp hw
    exact (List.mem_filter.mp hv).2

/-- The calls of the handler, and the kills. A close that was asked for is on record. -/
structure Log (s : State) : Prop where
  asked : ∀ w, (s.workers w).asked = true → (s.workers w).expectedClose.isSome = true
  received : ∀ r ∈ s.received, r.generation = r.current ∧ (r.cause = .exit → r.asked = false)
  timers : ∀ timer ∈ s.timers, ∀ w ∈ timer.targets,
    w < s.created ∧ (s.workers w).generation ≤ timer.armed
  kills : ∀ k ∈ s.kills, k.generation ≤ k.armed

theorem log_initial : Log State.initial := by
  constructor <;> simp [State.initial, Worker.new]

theorem Log.update {s : State} (h : Log s) (w : ℕ) (f : Worker → Worker)
    (hgen : (f (s.workers w)).generation = (s.workers w).generation)
    (hasked : (f (s.workers w)).asked = true → (f (s.workers w)).expectedClose.isSome = true) :
    Log (s.update w f) where
  asked v := by
    by_cases hv : v = w
    · rw [hv, update_workers_self]
      exact hasked
    · rw [update_workers_of_ne s f hv]
      exact h.asked v
  received := h.received
  timers timer htimer v hv := by
    refine ⟨(h.timers timer htimer v hv).1, ?_⟩
    by_cases hvw : v = w
    · rw [hvw, update_workers_self, hgen, ← hvw]
      exact (h.timers timer htimer v hv).2
    · rw [update_workers_of_ne s f hvw]
      exact (h.timers timer htimer v hv).2
  kills := h.kills

@[simp]
theorem handle_workers (s : State) (w : ℕ) (cause : Cause) :
    (s.handle w cause).workers = s.workers := by
  unfold State.handle
  split <;> rfl

theorem Log.handle {s : State} (h : Log s) (w : ℕ) (cause : Cause)
    (hexit : cause = .exit → (s.workers w).asked = false) : Log (s.handle w cause) := by
  unfold State.handle
  split
  · rename_i hgen
    refine ⟨h.asked, fun r hr => ?_, h.timers, h.kills⟩
    rcases List.mem_append.mp hr with hr | hr
    · exact h.received r hr
    · obtain rfl := List.mem_singleton.mp hr
      exact ⟨hgen, hexit⟩
  · exact h

theorem Log.failWorker {s : State} (h : Log s) (w : ℕ) (sent : Bool) :
    Log (s.failWorker w sent) := by
  unfold State.failWorker
  split
  · exact h
  · have hupdate := h.update w
      (fun worker => { worker with failureReported := true, expectedClose := some .reported })
      rfl fun _ => rfl
    refine (hupdate.handle w .failure fun hc => by cases hc).update w _ rfl fun _ => ?_
    rw [handle_workers, update_workers_self]
    rfl

theorem Log.message {s : State} (h : Log s) (t : Transport) (w : ℕ) : Log (s.message t w) := by
  cases t <;> simp only [State.message] <;> split
  all_goals first | exact h | exact h.handle w .message fun hc => by cases hc

theorem Log.invalid {s : State} (h : Log s) (t : Transport) (w : ℕ) (sent : Bool) :
    Log (s.invalid t w sent) := by
  cases t with
  | subprocess => exact h.failWorker w sent
  | cluster =>
    simp only [State.invalid]
    split
    · exact h
    · exact (h.update w (fun worker => { worker with expectedClose := some .reported }) rfl
        fun _ => rfl).handle w .failure fun hc => by cases hc

theorem Log.error {s : State} (h : Log s) (t : Transport) (w : ℕ) (sent : Bool) :
    Log (s.error t w sent) := by
  cases t with
  | subprocess => exact h.failWorker w sent
  | cluster =>
    simp only [State.error]
    split
    · exact h
    · refine (h.handle w .failure fun hc => by cases hc).update w _ rfl ?_
      rw [handle_workers]
      exact h.asked w

/-- An exit is reported only when no close is on record. -/
theorem Log.exited {s : State} (h : Log s) (s' : State) (w : ℕ) (clean : Bool)
    (hworkers : s'.workers = s.workers) (hreceived : s'.received = s.received)
    (htimers : s'.timers = s.timers) (hcreated : s'.created = s.created)
    (hkills : s'.kills = s.kills) :
    Log (s'.update w (·.exit clean)) ∧ ((s.workers w).expectedClose.isSome = false →
      Log (((s'.update w (·.exit clean)).handle w .exit).update w
        fun worker => { worker with lost := true })) := by
  have hs' : Log s' := by
    refine ⟨?_, hreceived ▸ h.received, ?_, hkills ▸ h.kills⟩
    · rw [hworkers]; exact h.asked
    · rw [hworkers, htimers, hcreated]; exact h.timers
  have hexit : Log (s'.update w (·.exit clean)) := by
    refine hs'.update w _ rfl fun hasked => ?_
    have hsome := hs'.asked w hasked
    simp only [Worker.exit]
    split
    · rfl
    · exact hsome
  refine ⟨hexit, fun hnone => ?_⟩
  have hasked : (s.workers w).asked = false := by
    by_contra hne
    exact Bool.false_ne_true (hnone.symm.trans (h.asked w (by simpa using hne)))
  have hhandle := hexit.handle w .exit fun _ => by
    rw [update_workers_self, hworkers]
    exact hasked
  exact hhandle.update w _ rfl (hhandle.asked w)

theorem Log.exit {s : State} (h : Log s) (t : Transport) (w : ℕ) (clean : Bool) :
    Log (s.exit t w clean) := by
  cases t with
  | subprocess =>
    have hexited := h.exited (if s.procs (s.workers w).thread == some w then { s with
        procs := Function.update s.procs (s.workers w).thread none
        ids := s.ids.filter (· != (s.workers w).thread) } else s) w clean
      (by split <;> rfl) (by split <;> rfl) (by split <;> rfl) (by split <;> rfl)
      (by split <;> rfl)
    simp only [State.exit]
    split
    · exact hexited.1
    · exact hexited.2 (by grind)
  | cluster =>
    have hexited := h.exited { s with ids := s.ids.filter (· != w) } w clean
      rfl rfl rfl rfl rfl
    simp only [State.exit]
    split
    · exact hexited.1
    · exact hexited.2 (by grind)

/-- Only workers that existed when the timer was set are its targets. -/
theorem Log.closeWorkers {t : Transport} {s : State} (h : Log s) (armed : ℕ) (timed : Bool)
    (htargets : ∀ w ∈ s.targets t, w < s.created ∧ (s.workers w).generation ≤ armed) :
    Log (s.closeWorkers t armed timed) where
  asked w := by
    simp only [State.closeWorkers]
    split
    · grind
    · exact h.asked w
  received := h.received
  timers timer htimer w hw := by
    rw [(keeps_closeWorkers t s armed timed).workerGeneration,
      (keeps_closeWorkers t s armed timed).created]
    simp only [State.closeWorkers] at htimer
    split at htimer
    · rcases List.mem_append.mp htimer with htimer | htimer
      · exact h.timers timer htimer w hw
      · obtain rfl := List.mem_singleton.mp htimer
        exact htargets w hw
    · exact h.timers timer htimer w hw
  kills := h.kills

theorem Log.createThread {s : State} (h : Log s) (t : Transport) (i : ℕ) :
    Log (s.createThread t i) := by
  have hworkers : (s.createThread t i).workers =
      Function.update s.workers s.created (.new s.generation i) := by cases t <;> rfl
  have hreceived : (s.createThread t i).received = s.received := by cases t <;> rfl
  have htimers : (s.createThread t i).timers = s.timers := by cases t <;> rfl
  have hkills : (s.createThread t i).kills = s.kills := by cases t <;> rfl
  refine ⟨fun w => ?_, hreceived ▸ h.received, fun timer htimer w hw => ?_, hkills ▸ h.kills⟩
  · rw [hworkers]
    by_cases hw : w = s.created
    · rw [hw, Function.update_self]
      exact fun hasked => by cases hasked
    · rw [Function.update_of_ne hw]
      exact h.asked w
  · have hold := h.timers timer (htimers ▸ htimer) w hw
    rw [createThread_created, createThread_workers_of_lt t s i hold.1]
    exact ⟨Nat.lt_succ_of_lt hold.1, hold.2⟩

theorem Log.recreateThreads {t : Transport} {s : State} (h : Log s) (hb : Book t s) (count : ℕ) :
    Log (s.recreateThreads t count) := by
  have hnext : Log { s with generation := s.generation + 1 } :=
    ⟨h.asked, h.received, h.timers, h.kills⟩
  have hclosed := hnext.closeWorkers s.generation true (t := t) fun w hw => by
    have hlive := hb.live_of_mem_targets (w := w) hw
    have hw : w < s.created := by grind
    exact ⟨hw, hb.old w hw⟩
  unfold State.recreateThreads
  induction count with
  | zero => exact ⟨hclosed.asked, hclosed.received, hclosed.timers, hclosed.kills⟩
  | succ n ih =>
    simp only [List.range_succ, List.foldl_append]
    exact ih.createThread t n

theorem Log.forceCloseWorker {s : State} (h : Log s) (t : Transport) {armed : ℕ}
    (sent : ℕ → Bool) {w : ℕ} (hw : (s.workers w).generation ≤ armed) :
    Log (s.forceCloseWorker t armed sent w) := by
  unfold State.forceCloseWorker
  split
  · exact h
  · have hforce := h.update w (·.force (sent w)) rfl fun _ => rfl
    refine ⟨hforce.asked, hforce.received, hforce.timers, fun k hk => ?_⟩
    rcases List.mem_append.mp hk with hk | hk
    · exact h.kills k hk
    · obtain rfl := List.mem_singleton.mp hk
      exact hw

theorem Log.forceClose {s : State} (h : Log s) (t : Transport) {armed : ℕ} (sent : ℕ → Bool)
    {targets : List ℕ} (htargets : ∀ w ∈ targets, (s.workers w).generation ≤ armed) :
    Log (targets.foldl (State.forceCloseWorker t armed sent) s) := by
  induction targets generalizing s with
  | nil => exact h
  | cons w targets ih =>
    refine ih (h.forceCloseWorker t sent (htargets w (List.mem_cons_self ..))) fun v hv => ?_
    rw [(keeps_forceCloseWorker t armed sent s w).workerGeneration]
    exact htargets v (List.mem_cons_of_mem _ hv)

theorem Log.fire {s : State} (h : Log s) (t : Transport) (k : ℕ) (sent : ℕ → Bool) :
    Log (s.fire t k sent) := by
  unfold State.fire
  split
  · exact h
  · rename_i timer htimer
    have hmem := List.mem_of_getElem? htimer
    have herased : Log { s with timers := s.timers.eraseIdx k } :=
      ⟨h.asked, h.received, fun other hother => h.timers other (List.mem_of_mem_eraseIdx hother),
        h.kills⟩
    exact herased.forceClose t sent fun w hw => (h.timers timer hmem w hw).2

theorem Log.step {t : Transport} {s : State} (h : Log s) (hb : Book t s) (e : Event) :
    Log (step t s e) := by
  cases e with
  | recreateThreads count => exact h.recreateThreads hb count
  | closeWorkers timed =>
    refine h.closeWorkers s.generation timed fun w hw => ?_
    have hlive := hb.live_of_mem_targets hw
    have hw : w < s.created := by grind
    exact ⟨hw, hb.old w hw⟩
  | fire k sent => exact h.fire t k sent
  | message w => simp only [Controller.step]; split <;> [exact h.message t w; exact h]
  | invalid w sent => simp only [Controller.step]; split <;> [exact h.invalid t w sent; exact h]
  | error w sent => simp only [Controller.step]; split <;> [exact h.error t w sent; exact h]
  | exit w clean => simp only [Controller.step]; split <;> [exact h.exit t w clean; exact h]

/-! ## Fatal reports -/

def State.fatals (s : State) (w : ℕ) : ℕ :=
  s.received.countP fun r => r.worker == w && r.cause != .message

/-- The worker whose failure the event is. -/
def Event.failing : Event → Option ℕ
  | .invalid w _ => some w
  | .error w _ => some w
  | .exit w _ => some w
  | _ => none

/-- The handler of the event looks at what is on record for the worker and reports nothing. -/
@[grind] def State.ignores (t : Transport) (s : State) : Event → Bool
  | .invalid w _ => match t with
    | .subprocess => (s.workers w).failureReported || (s.workers w).expectedClose.isSome
    | .cluster => (s.workers w).expectedClose == some .reported
  | .error w _ => match t with
    | .subprocess => (s.workers w).failureReported || (s.workers w).expectedClose.isSome
    | .cluster => (s.workers w).expectedClose.isSome
  | .exit w _ => (s.workers w).expectedClose.isSome
  | _ => true

/-- No failure arrives that is reported for a worker of the current generation after its report
was left out of `expectedWorkerCloses`, or was overwritten there. -/
def careful (t : Transport) (s : State) (e : Event) : Bool :=
  e.failing.all fun w =>
    (s.workers w).generation != s.generation || !(s.workers w).lost || s.ignores t e

def carefulRun (t : Transport) : State → List Event → Bool
  | _, [] => true
  | s, e :: events => careful t s e && carefulRun t (step t s e) events

theorem ignores_of_careful {t : Transport} {s : State} {e : Event} {w : ℕ}
    (h : careful t s e = true) (hw : e.failing = some w)
    (hgen : (s.workers w).generation = s.generation) (hlost : (s.workers w).lost = true) :
    s.ignores t e = true := by
  simpa [careful, hw, hgen, hlost] using h

/-- A fatal error of the worker is on record, or its record is lost. -/
@[grind] def Worker.settled (worker : Worker) : Bool :=
  worker.lost || worker.expectedClose == some .reported

/-- At most one fatal error of each worker was reported, and then the worker is settled. -/
def Once (s : State) : Prop :=
  ∀ w, s.fatals w = 0 ∨ s.fatals w = 1 ∧ w < s.created ∧ (s.workers w).settled = true

theorem once_initial : Once State.initial := fun _ => .inl rfl

theorem Once.settle {s s' : State} (h : Once s) (hreceived : s'.received = s.received)
    (hcreated : s.created ≤ s'.created)
    (hsettled : ∀ w < s.created, (s.workers w).settled = true → (s'.workers w).settled = true) :
    Once s' := by
  intro w
  rw [State.fatals, hreceived]
  rcases h w with h0 | ⟨h1, hw, hset⟩
  · exact .inl h0
  · exact .inr ⟨h1, Nat.lt_of_lt_of_le hw hcreated, hsettled w hw hset⟩

theorem fatals_handle (s : State) (w v : ℕ) (cause : Cause) :
    (s.handle w cause).fatals v = s.fatals v +
      if (s.workers w).generation = s.generation ∧ w = v ∧ cause ≠ .message then 1 else 0 := by
  unfold State.handle State.fatals
  split
  · rename_i hgen
    rw [List.countP_append, List.countP_singleton]
    by_cases hw : w = v
    · subst hw
      cases cause <;> simp [hgen]
    · simp [hw]
  · rename_i hgen
    simp [hgen]

/-- A report about a worker of the current generation that was not reported settles it. -/
theorem Once.report {s s' : State} (h : Once s) {w : ℕ} (cause : Cause) (hw : w < s.created)
    (hreceived : s'.received = (s.handle w cause).received) (hcreated : s'.created = s.created)
    (hother : ∀ v, v ≠ w → s'.workers v = s.workers v) (hself : (s'.workers w).settled = true)
    (hfirst : (s.workers w).generation = s.generation → (s.workers w).settled = false) :
    Once s' := by
  intro v
  have hfatals : s'.fatals v = (s.handle w cause).fatals v := by
    rw [State.fatals, State.fatals, hreceived]
  rw [hfatals, fatals_handle, hcreated]
  by_cases hv : v = w
  · subst hv
    split
    · rename_i hnew
      have h0 : s.fatals v = 0 := by
        rcases h v with h0 | ⟨-, -, hset⟩
        · exact h0
        · exact absurd ((hfirst hnew.1).symm.trans hset) Bool.false_ne_true
      exact .inr ⟨by rw [h0], hw, hself⟩
    · rcases h v with h0 | ⟨h1, -, -⟩
      · exact .inl h0
      · exact .inr ⟨h1, hw, hself⟩
  · rw [if_neg fun h => hv h.2.1.symm, hother v hv]
    exact h v

theorem handle_created (s : State) (w : ℕ) (cause : Cause) :
    (s.handle w cause).created = s.created := by
  unfold State.handle
  split <;> rfl

theorem Once.message {s : State} (h : Once s) (t : Transport) (w : ℕ) : Once (s.message t w) := by
  have hhandle : Once (s.handle w .message) := by
    intro v
    rw [fatals_handle, handle_created, handle_workers]
    simpa using h v
  cases t <;> simp only [State.message] <;> split
  all_goals first | exact h | exact hhandle

theorem Once.failWorker {s : State} (h : Once s) {w : ℕ} (sent : Bool) (hw : w < s.created)
    (hcareful : (s.workers w).generation = s.generation → (s.workers w).lost = true →
      ((s.workers w).failureReported || (s.workers w).expectedClose.isSome) = true) :
    Once (s.failWorker w sent) := by
  unfold State.failWorker
  split
  · exact h
  · rename_i hopen
    refine h.report .failure hw ?_ ?_ ?_ ?_ ?_
    · simp [State.handle, State.update]
      split <;> rfl
    · simp [State.update, handle_created]
    · intro v hv
      rw [update_workers_of_ne _ _ hv, handle_workers, update_workers_of_ne _ _ hv]
    · rw [update_workers_self, handle_workers, update_workers_self]
      simp [Worker.settled]
    · intro hgen
      grind

theorem Once.invalid {t : Transport} {s : State} (h : Once s) {w : ℕ} (sent : Bool)
    (hw : w < s.created) (hcareful : careful t s (.invalid w sent) = true) :
    Once (s.invalid t w sent) := by
  have hignores := ignores_of_careful (w := w) hcareful rfl
  cases t with
  | subprocess => exact h.failWorker sent hw hignores
  | cluster =>
    simp only [State.invalid]
    split
    · exact h
    · refine h.report .failure hw ?_ ?_ ?_ ?_ ?_
      · simp [State.handle, State.update]
        split <;> rfl
      · simp [State.update, handle_created]
      · intro v hv
        rw [handle_workers, update_workers_of_ne _ _ hv]
      · rw [handle_workers, update_workers_self]
        simp [Worker.settled]
      · intro hgen
        grind

theorem Once.error {t : Transport} {s : State} (h : Once s) {w : ℕ} (sent : Bool)
    (hw : w < s.created) (hcareful : careful t s (.error w sent) = true) :
    Once (s.error t w sent) := by
  have hignores := ignores_of_careful (w := w) hcareful rfl
  cases t with
  | subprocess => exact h.failWorker sent hw hignores
  | cluster =>
    simp only [State.error]
    split
    · exact h
    · refine h.report .failure hw rfl ?_ ?_ ?_ ?_
      · simp [State.update, handle_created]
      · intro v hv
        rw [update_workers_of_ne _ _ hv, handle_workers]
      · rw [update_workers_self]
        simp [Worker.settled]
      · intro hgen
        grind

/-- What `exit` does once the books are changed. -/
theorem Once.exited {s : State} (h : Once s) (s' : State) {w : ℕ} (clean : Bool)
    (hw : w < s.created)
    (hworkers : s'.workers = s.workers) (hreceived : s'.received = s.received)
    (hcreated : s'.created = s.created) (hgeneration : s'.generation = s.generation) :
    Once (s'.update w (·.exit clean)) ∧
      (((s.workers w).generation = s.generation → (s.workers w).settled = false) →
        Once (((s'.update w (·.exit clean)).handle w .exit).update w
          fun worker => { worker with lost := true })) := by
  have hset (v : ℕ) (hv : (s.workers v).settled = true) :
      ((s'.update w (·.exit clean)).workers v).settled = true := by
    by_cases hvw : v = w
    · rw [hvw, update_workers_self, hworkers, ← hvw]
      grind
    · rw [update_workers_of_ne _ _ hvw, hworkers]
      exact hv
  refine ⟨h.settle hreceived (Nat.le_of_eq hcreated.symm) fun v _ => hset v, fun hfirst => ?_⟩
  refine h.report .exit hw ?_ ?_ ?_ ?_ hfirst
  · simp [State.handle, State.update, hworkers, hreceived, hgeneration, Worker.exit]
    split <;> simp_all
  · simp [State.update, handle_created, hcreated]
  · intro v hv
    rw [update_workers_of_ne _ _ hv, handle_workers, update_workers_of_ne _ _ hv, hworkers]
  · rw [update_workers_self]
    simp [Worker.settled]

theorem Once.exit {t : Transport} {s : State} (h : Once s) {w : ℕ} (clean : Bool)
    (hw : w < s.created) (hcareful : careful t s (.exit w clean) = true) :
    Once (s.exit t w clean) := by
  have hignores := ignores_of_careful (w := w) hcareful rfl
  have hfirst : (s.workers w).expectedClose.isSome = false →
      (s.workers w).generation = s.generation → (s.workers w).settled = false := by
    intro hnone hgen
    have := hignores hgen
    grind
  cases t with
  | subprocess =>
    have hexited := h.exited (if s.procs (s.workers w).thread == some w then { s with
        procs := Function.update s.procs (s.workers w).thread none
        ids := s.ids.filter (· != (s.workers w).thread) } else s) clean hw
      (by split <;> rfl) (by split <;> rfl) (by split <;> rfl) (by split <;> rfl)
    simp only [State.exit]
    split
    · exact hexited.1
    · exact hexited.2 (hfirst (by grind))
  | cluster =>
    have hexited := h.exited { s with ids := s.ids.filter (· != w) } clean hw rfl rfl rfl rfl
    simp only [State.exit]
    split
    · exact hexited.1
    · exact hexited.2 (hfirst (by grind))

theorem Once.closeWorkers {s : State} (h : Once s) (t : Transport) (armed : ℕ) (timed : Bool) :
    Once (s.closeWorkers t armed timed) := by
  refine h.settle rfl (Nat.le_refl _) fun w _ hset => ?_
  simp only [State.closeWorkers]
  split
  · grind
  · exact hset

theorem Once.recreateThreads {s : State} (h : Once s) (t : Transport) (count : ℕ) :
    Once (s.recreateThreads t count) := by
  have hnext : Once { s with generation := s.generation + 1 } := h
  have hclosed := hnext.closeWorkers t s.generation true
  unfold State.recreateThreads
  induction count with
  | zero => exact hclosed
  | succ n ih =>
    simp only [List.range_succ, List.foldl_append]
    refine ih.settle (by cases t <;> rfl) ?_ fun w hw hset => ?_
    · simp
    · simpa only [List.foldl_cons, List.foldl_nil, createThread_workers_of_lt t _ n hw] using hset

theorem Once.forceCloseWorker {s : State} (h : Once s) (t : Transport) (armed : ℕ)
    (sent : ℕ → Bool) (w : ℕ) : Once (s.forceCloseWorker t armed sent w) := by
  unfold State.forceCloseWorker
  split
  · exact h
  · refine h.settle rfl (Nat.le_refl _) fun v _ hset => ?_
    by_cases hv : v = w
    · simp only [hv, update_workers_self]
      rw [hv] at hset
      grind
    · simp only [update_workers_of_ne s _ hv]
      exact hset

theorem Once.forceClose {s : State} (h : Once s) (t : Transport) (armed : ℕ) (sent : ℕ → Bool)
    (targets : List ℕ) : Once (targets.foldl (State.forceCloseWorker t armed sent) s) := by
  induction targets generalizing s with
  | nil => exact h
  | cons w targets ih => exact ih (h.forceCloseWorker t armed sent w)

theorem Once.fire {s : State} (h : Once s) (t : Transport) (k : ℕ) (sent : ℕ → Bool) :
    Once (s.fire t k sent) := by
  unfold State.fire
  split
  · exact h
  · have herased : Once { s with timers := s.timers.eraseIdx k } := h
    exact herased.forceClose t _ sent _

theorem Once.step {t : Transport} {s : State} (h : Once s) {e : Event}
    (hcareful : careful t s e = true) :
    Once (step t s e) := by
  cases e with
  | recreateThreads count => exact h.recreateThreads t count
  | closeWorkers timed => exact h.closeWorkers t s.generation timed
  | fire k sent => exact h.fire t k sent
  | message w => simp only [Controller.step]; split <;> [exact h.message t w; exact h]
  | invalid w sent =>
    simp only [Controller.step]
    split
    · rename_i hw; exact h.invalid sent hw hcareful
    · exact h
  | error w sent =>
    simp only [Controller.step]
    split
    · rename_i hw; exact h.error sent hw hcareful
    · exact h
  | exit w clean =>
    simp only [Controller.step]
    split
    · rename_i hw; exact h.exit clean hw.1 hcareful
    · exact h

/-! ## Runs -/

theorem book_foldl {t : Transport} {s : State} (hb : Book t s) (hl : Log s) (events : List Event) :
    Book t (events.foldl (step t) s) ∧ Log (events.foldl (step t) s) := by
  induction events generalizing s with
  | nil => exact ⟨hb, hl⟩
  | cons e events ih => exact ih (hb.step e) (hl.step hb e)

theorem once_foldl {t : Transport} {s : State} (h : Once s) {events : List Event}
    (hcareful : carefulRun t s events = true) : Once (events.foldl (step t) s) := by
  induction events generalizing s with
  | nil => exact h
  | cons e events ih =>
    rw [carefulRun, Bool.and_eq_true] at hcareful
    exact ih (h.step hcareful.1) hcareful.2

/-- **In every run the handler hears only of workers of the current generation, an exit after a
close that was asked for is not reported, `worker_ids` is about the live workers of the current
generation, and a timer kills no newer worker. In a careful run each worker has at most one fatal
report.** -/
theorem workers_run (t : Transport) (events : List Event) :
    (∀ r ∈ (run t events).received, r.generation = r.current) ∧
      (∀ r ∈ (run t events).received, r.cause = .exit → r.asked = false) ∧
      (run t events).ids =
        ((List.range (run t events).created).filter (run t events).live).map
          ((run t events).idOf t) ∧
      (∀ k ∈ (run t events).kills, k.generation ≤ k.armed) ∧
      (carefulRun t .initial events = true → ∀ w, (run t events).fatals w ≤ 1) := by
  obtain ⟨hbook, hlog⟩ := book_foldl (book_initial t) log_initial events
  refine ⟨fun r hr => (hlog.received r hr).1, fun r hr => (hlog.received r hr).2, hbook.ids,
    hlog.kills, fun hcareful w => ?_⟩
  rcases once_foldl once_initial hcareful w with h0 | ⟨h1, -, -⟩
  · exact Nat.le_trans (Nat.le_of_eq h0) (Nat.zero_le 1)
  · exact Nat.le_of_eq h1

/-- Two workers, the first of which sends invalid output; they are replaced and the old ones are
killed. -/
theorem workers_run_replaced :
    (run .cluster [.recreateThreads 2, .invalid 0 true, .exit 0 false, .recreateThreads 1,
      .message 2, .message 1, .fire 0 fun _ => true, .exit 1 false]).fatals 0 ≤ 1 :=
  (workers_run .cluster _).2.2.2.2 (by decide) 0

/-- A subprocess that exits is reported, and its input that fails afterwards is reported again. -/
theorem exit_then_error :
    ¬ ∀ (t : Transport) (events : List Event) (w : ℕ), (run t events).fatals w ≤ 1 := fun h =>
  absurd (h .subprocess [.recreateThreads 1, .exit 0 false, .closeWorkers true, .error 0 false] 0)
    (by decide)

end MoMiner.Controller
