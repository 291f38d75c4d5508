import Mathlib.Data.List.Basic
import Mathlib.Logic.Function.Basic

/-!
# Worker generations

The worker part of `helper.js`: `recreate_threads`, `closeWorkers`, the timers that force a close,
and the handlers of the worker objects, over either transport. A run is any sequence of calls and
events. A worker object is named by its place in the order of creation; a cluster worker's `id` is
that place.

Main result: `Book.step`, the books name the live workers.
-/

namespace MoMiner.Controller

/-! ## State -/

inductive Transport
  | subprocess
  | cluster
deriving DecidableEq

/-- The values of `expectedWorkerCloses`. -/
inductive CloseReason
  | requested
  | forced
  | reported
deriving DecidableEq

/-- A worker object. `thread` is the `i` of its handlers and `generation` the one that
`forWorkerGeneration` compares. -/
structure Worker where
  generation : ℕ
  thread : ℕ
  expectedClose : Option CloseReason
  failureReported : Bool
  exited : Bool
  killed : Bool
  /-- A close was requested or forced. -/
  asked : Bool
  /-- A fatal error was reported and `expectedWorkerCloses` does not say so, or no longer. -/
  lost : Bool
deriving DecidableEq

def Worker.new (generation thread : ℕ) : Worker where
  generation := generation
  thread := thread
  expectedClose := none
  failureReported := false
  exited := false
  killed := false
  asked := false
  lost := false

/-- What a call of the message handler is about: an event of the worker, or a fatal error that
`workerError` reports for a failure or for an exit. -/
inductive Cause
  | message
  | failure
  | exit
deriving DecidableEq

/-- A call of the message handler, made while `current` was the generation. -/
structure Received where
  worker : ℕ
  generation : ℕ
  current : ℕ
  cause : Cause
  asked : Bool
deriving DecidableEq

/-- A pending `setTimeout` of `closeWorkers`; `armed` is the newest generation of workers when it
was set. -/
structure Timer where
  armed : ℕ
  targets : List ℕ
deriving DecidableEq

/-- A kill by such a timer. -/
structure Kill where
  armed : ℕ
  generation : ℕ
deriving DecidableEq

structure State where
  /-- `worker_generation` -/
  generation : ℕ
  workers : ℕ → Worker
  created : ℕ
  /-- `worker_ids` -/
  ids : List ℕ
  /-- `worker_procs` -/
  procs : ℕ → Option ℕ
  timers : List Timer
  received : List Received
  kills : List Kill

def State.initial : State where
  generation := 0
  workers := fun _ => .new 0 0
  created := 0
  ids := []
  procs := fun _ => none
  timers := []
  received := []
  kills := []

/-! ## Calls and events -/

def State.update (s : State) (w : ℕ) (f : Worker → Worker) : State :=
  { s with workers := Function.update s.workers w (f (s.workers w)) }

/-- The message handler behind `forWorkerGeneration`. -/
def State.handle (s : State) (w : ℕ) (cause : Cause) : State :=
  if (s.workers w).generation = s.generation then
    { s with received := s.received ++
        [⟨w, (s.workers w).generation, s.generation, cause, (s.workers w).asked⟩] }
  else s

@[grind] def Worker.markExpectedClose (worker : Worker) : Worker :=
  { worker with
    expectedClose := if worker.expectedClose.isSome then worker.expectedClose else some .requested
    asked := true }

/-- The workers that `messageWorkers` sends to. `cluster.workers` has a worker at least until its
exit is observed. -/
@[grind] def State.targets (t : Transport) (s : State) : List ℕ :=
  match t with
  | .subprocess => s.ids.filterMap s.procs
  | .cluster => s.ids

/-- `closeWorkers`, without or with `forceAfterMs`. -/
@[grind] def State.closeWorkers (t : Transport) (s : State) (armed : ℕ) (timed : Bool) : State :=
  { s with
    workers := fun w =>
      if w ∈ s.targets t then (s.workers w).markExpectedClose else s.workers w
    timers := if timed then s.timers ++ [⟨armed, s.targets t⟩] else s.timers }

/-- `createSubprocessThread` and `createClusterThread`. -/
def State.createThread (t : Transport) (s : State) (i : ℕ) : State :=
  let s' := { s with
    workers := Function.update s.workers s.created (.new s.generation i)
    created := s.created + 1 }
  match t with
  | .subprocess => { s' with
      ids := s.ids ++ [i], procs := Function.update s.procs i (some s.created) }
  | .cluster => { s' with ids := s.ids ++ [s.created] }

/-- `recreate_threads` once the environments of the `count` workers are computed. A spawn that
throws leaves the workers before it, as a smaller `count` does. -/
def State.recreateThreads (t : Transport) (s : State) (count : ℕ) : State :=
  let closed := { s with generation := s.generation + 1 }.closeWorkers t s.generation true
  (List.range count).foldl (State.createThread t) { closed with ids := [], procs := fun _ => none }

/-- A valid event of a worker. -/
@[grind] def State.message (t : Transport) (s : State) (w : ℕ) : State :=
  match t with
  | .subprocess => if (s.workers w).failureReported then s else s.handle w .message
  | .cluster =>
    if (s.workers w).expectedClose = some .reported then s else s.handle w .message

/-- `failWorker`. The kill sets `killed` when the signal could be sent. -/
@[grind] def State.failWorker (s : State) (w : ℕ) (sent : Bool) : State :=
  if (s.workers w).failureReported || (s.workers w).expectedClose.isSome then s
  else ((s.update w fun worker => { worker with
      failureReported := true, expectedClose := some .reported }).handle w .failure).update w
    fun worker => { worker with killed := worker.killed || sent }

/-- Malformed, invalid or oversized output of a worker. -/
@[grind] def State.invalid (t : Transport) (s : State) (w : ℕ) (sent : Bool) : State :=
  match t with
  | .subprocess => s.failWorker w sent
  | .cluster =>
    if (s.workers w).expectedClose = some .reported then s
    else (s.update w fun worker => { worker with
      expectedClose := some .reported }).handle w .failure

/-- An `error` event: a subprocess that does not start or whose input fails, a cluster worker
whose channel or whose send fails. -/
@[grind] def State.error (t : Transport) (s : State) (w : ℕ) (sent : Bool) : State :=
  match t with
  | .subprocess => s.failWorker w sent
  | .cluster =>
    if (s.workers w).expectedClose.isSome then s
    else (s.handle w .failure).update w fun worker => { worker with lost := true }

/-- What `handleExpectedWorkerExit` records. -/
@[grind] def Worker.exit (worker : Worker) (clean : Bool) : Worker :=
  { worker with
    exited := true
    expectedClose :=
      if worker.expectedClose = some .requested && !clean then some .reported
      else worker.expectedClose }

/-- The `exit` event; `clean` when the code is zero and there is no signal. -/
@[grind] def State.exit (t : Transport) (s : State) (w : ℕ) (clean : Bool) : State :=
  let worker := s.workers w
  match t with
  | .subprocess =>
    let current := s.procs worker.thread == some w
    let s' := if current then { s with
        procs := Function.update s.procs worker.thread none
        ids := s.ids.filter (· != worker.thread) } else s
    let s' := s'.update w (·.exit clean)
    if worker.expectedClose.isSome || !current then s'
    else (s'.handle w .exit).update w fun worker => { worker with lost := true }
  | .cluster =>
    let s' := { s with ids := s.ids.filter (· != w) }.update w (·.exit clean)
    if worker.expectedClose.isSome then s'
    else (s'.handle w .exit).update w fun worker => { worker with lost := true }

@[grind] def Worker.force (worker : Worker) (sent : Bool) : Worker :=
  { worker with
    expectedClose := some .forced
    asked := true
    lost := worker.lost || worker.expectedClose == some .reported
    killed := worker.killed || sent }

/-- `forceCloseWorker`. A subprocess that was sent a signal counts as closed. -/
@[grind] def State.forceCloseWorker (t : Transport) (armed : ℕ) (sent : ℕ → Bool) (s : State)
    (w : ℕ) : State :=
  if (s.workers w).exited || (t = .subprocess && (s.workers w).killed) then s
  else
    { s.update w (·.force (sent w)) with
      kills := s.kills ++ [⟨armed, (s.workers w).generation⟩] }

/-- The `k`-th pending timer fires. -/
def State.fire (t : Transport) (s : State) (k : ℕ) (sent : ℕ → Bool) : State :=
  match s.timers[k]? with
  | none => s
  | some timer => timer.targets.foldl (State.forceCloseWorker t timer.armed sent)
      { s with timers := s.timers.eraseIdx k }

inductive Event
  | recreateThreads (count : ℕ)
  | closeWorkers (timed : Bool)
  | message (w : ℕ)
  | invalid (w : ℕ) (sent : Bool)
  | error (w : ℕ) (sent : Bool)
  | exit (w : ℕ) (clean : Bool)
  | fire (k : ℕ) (sent : ℕ → Bool)

/-- Events of workers that were not created, and a second exit, do not happen. -/
def step (t : Transport) (s : State) : Event → State
  | .recreateThreads count => s.recreateThreads t count
  | .closeWorkers timed => s.closeWorkers t s.generation timed
  | .message w => if w < s.created then s.message t w else s
  | .invalid w sent => if w < s.created then s.invalid t w sent else s
  | .error w sent => if w < s.created then s.error t w sent else s
  | .exit w clean => if w < s.created ∧ (s.workers w).exited = false then s.exit t w clean else s
  | .fire k sent => s.fire t k sent

def run (t : Transport) (events : List Event) : State :=
  events.foldl (step t) State.initial

/-! ## Bookkeeping -/

/-- A worker of the current generation whose exit was not observed. -/
@[grind] def State.live (s : State) (w : ℕ) : Bool :=
  w < s.created && (s.workers w).generation == s.generation && !(s.workers w).exited

/-- The entry of `worker_ids` for a worker. -/
@[grind] def State.idOf (t : Transport) (s : State) (w : ℕ) : ℕ :=
  match t with
  | .subprocess => (s.workers w).thread
  | .cluster => w

/-- `worker_ids` and `worker_procs` are about the live workers, whose threads are distinct. -/
structure Book (t : Transport) (s : State) : Prop where
  old : ∀ w < s.created, (s.workers w).generation ≤ s.generation
  threads : ∀ w < s.created, ∀ w' < s.created,
    (s.workers w).generation = (s.workers w').generation →
    (s.workers w).thread = (s.workers w').thread → w = w'
  ids : s.ids = ((List.range s.created).filter s.live).map (s.idOf t)
  procs : t = .subprocess →
    ∀ i w, s.procs i = some w ↔ s.live w = true ∧ (s.workers w).thread = i

theorem book_initial (t : Transport) : Book t State.initial := by
  constructor <;> simp [State.initial, State.live]

@[simp, grind =]
theorem update_workers_self (s : State) (w : ℕ) (f : Worker → Worker) :
    (s.update w f).workers w = f (s.workers w) :=
  Function.update_self ..

theorem update_workers_of_ne (s : State) {w v : ℕ} (f : Worker → Worker) (h : v ≠ w) :
    (s.update w f).workers v = s.workers v :=
  Function.update_of_ne h ..

/-- A step that keeps the counters, the books and who the workers are. -/
structure Keeps (s s' : State) : Prop where
  generation : s'.generation = s.generation
  created : s'.created = s.created
  ids : s'.ids = s.ids
  procs : s'.procs = s.procs
  workerGeneration : ∀ w, (s'.workers w).generation = (s.workers w).generation
  thread : ∀ w, (s'.workers w).thread = (s.workers w).thread
  exited : ∀ w, (s'.workers w).exited = (s.workers w).exited

theorem Keeps.refl (s : State) : Keeps s s :=
  ⟨rfl, rfl, rfl, rfl, fun _ => rfl, fun _ => rfl, fun _ => rfl⟩

theorem Keeps.trans {s s' s'' : State} (h : Keeps s s') (h' : Keeps s' s'') : Keeps s s'' where
  generation := h'.generation.trans h.generation
  created := h'.created.trans h.created
  ids := h'.ids.trans h.ids
  procs := h'.procs.trans h.procs
  workerGeneration w := (h'.workerGeneration w).trans (h.workerGeneration w)
  thread w := (h'.thread w).trans (h.thread w)
  exited w := (h'.exited w).trans (h.exited w)

theorem Keeps.live {s s' : State} (h : Keeps s s') : s'.live = s.live := by
  funext w
  simp only [State.live, h.generation, h.created, h.workerGeneration, h.exited]

theorem Keeps.idOf {s s' : State} (h : Keeps s s') (t : Transport) : s'.idOf t = s.idOf t := by
  funext w
  cases t with
  | subprocess => exact h.thread w
  | cluster => rfl

theorem Book.keeps {t : Transport} {s s' : State} (hb : Book t s) (h : Keeps s s') : Book t s' where
  old w hw := by
    rw [h.workerGeneration, h.generation]
    exact hb.old w (h.created ▸ hw)
  threads w hw w' hw' hgen hthread := by
    rw [h.workerGeneration, h.workerGeneration] at hgen
    rw [h.thread, h.thread] at hthread
    exact hb.threads w (h.created ▸ hw) w' (h.created ▸ hw') hgen hthread
  ids := by rw [h.ids, hb.ids, h.created, h.live, h.idOf]
  procs ht i w := by rw [h.procs, h.live, h.thread]; exact hb.procs ht i w

theorem keeps_update (s : State) (w : ℕ) (f : Worker → Worker)
    (hgen : (f (s.workers w)).generation = (s.workers w).generation)
    (hthread : (f (s.workers w)).thread = (s.workers w).thread)
    (hexited : (f (s.workers w)).exited = (s.workers w).exited) : Keeps s (s.update w f) where
  generation := rfl
  created := rfl
  ids := rfl
  procs := rfl
  workerGeneration v := by
    by_cases hv : v = w
    · rw [hv, update_workers_self, hgen]
    · rw [update_workers_of_ne s f hv]
  thread v := by
    by_cases hv : v = w
    · rw [hv, update_workers_self, hthread]
    · rw [update_workers_of_ne s f hv]
  exited v := by
    by_cases hv : v = w
    · rw [hv, update_workers_self, hexited]
    · rw [update_workers_of_ne s f hv]

theorem keeps_handle (s : State) (w : ℕ) (cause : Cause) : Keeps s (s.handle w cause) := by
  unfold State.handle
  split <;> exact ⟨rfl, rfl, rfl, rfl, fun _ => rfl, fun _ => rfl, fun _ => rfl⟩

theorem keeps_closeWorkers (t : Transport) (s : State) (armed : ℕ) (timed : Bool) :
    Keeps s (s.closeWorkers t armed timed) := by
  refine ⟨rfl, rfl, rfl, rfl, fun w => ?_, fun w => ?_, fun w => ?_⟩ <;>
    simp only [State.closeWorkers] <;> split <;> rfl

theorem keeps_message (t : Transport) (s : State) (w : ℕ) : Keeps s (s.message t w) := by
  cases t <;> simp only [State.message] <;> split
  all_goals first | exact .refl s | exact keeps_handle s w _

theorem keeps_failWorker (s : State) (w : ℕ) (sent : Bool) : Keeps s (s.failWorker w sent) := by
  unfold State.failWorker
  split
  · exact .refl s
  · exact ((keeps_update _ _ _ rfl rfl rfl).trans (keeps_handle _ _ _)).trans
      (keeps_update _ _ _ rfl rfl rfl)

theorem keeps_invalid (t : Transport) (s : State) (w : ℕ) (sent : Bool) :
    Keeps s (s.invalid t w sent) := by
  cases t with
  | subprocess => exact keeps_failWorker s w sent
  | cluster =>
    simp only [State.invalid]
    split
    · exact .refl s
    · exact (keeps_update _ _ _ rfl rfl rfl).trans (keeps_handle _ _ _)

theorem keeps_error (t : Transport) (s : State) (w : ℕ) (sent : Bool) :
    Keeps s (s.error t w sent) := by
  cases t with
  | subprocess => exact keeps_failWorker s w sent
  | cluster =>
    simp only [State.error]
    split
    · exact .refl s
    · exact (keeps_handle _ _ _).trans (keeps_update _ _ _ rfl rfl rfl)

theorem keeps_forceCloseWorker (t : Transport) (armed : ℕ) (sent : ℕ → Bool) (s : State) (w : ℕ) :
    Keeps s (s.forceCloseWorker t armed sent w) := by
  unfold State.forceCloseWorker
  split
  · exact .refl s
  · exact (keeps_update s w (·.force (sent w)) rfl rfl rfl).trans
      ⟨rfl, rfl, rfl, rfl, fun _ => rfl, fun _ => rfl, fun _ => rfl⟩

theorem keeps_forceClose (t : Transport) (armed : ℕ) (sent : ℕ → Bool) (targets : List ℕ)
    (s : State) : Keeps s (targets.foldl (State.forceCloseWorker t armed sent) s) := by
  induction targets generalizing s with
  | nil => exact .refl s
  | cons w targets ih => exact (keeps_forceCloseWorker t armed sent s w).trans (ih _)

theorem keeps_fire (t : Transport) (s : State) (k : ℕ) (sent : ℕ → Bool) :
    Keeps s (s.fire t k sent) := by
  unfold State.fire
  split
  · exact .refl s
  · refine Keeps.trans ?_ (keeps_forceClose t _ sent _ _)
    exact ⟨rfl, rfl, rfl, rfl, fun _ => rfl, fun _ => rfl, fun _ => rfl⟩

theorem Book.idOf_inj {t : Transport} {s : State} (hb : Book t s) {w w' : ℕ}
    (hw : s.live w = true) (hw' : s.live w' = true) (h : s.idOf t w = s.idOf t w') : w = w' := by
  cases t with
  | subprocess =>
    refine hb.threads w ?_ w' ?_ ?_ h <;> grind
  | cluster => exact h

/-- Without the entry of `w`, `worker_ids` is about the other live workers. -/
theorem Book.ids_filter {t : Transport} {s : State} (hb : Book t s) {w : ℕ}
    (hw : s.live w = true) :
    s.ids.filter (· != s.idOf t w) =
      ((List.range s.created).filter fun w' => s.live w' && w' != w).map (s.idOf t) := by
  rw [hb.ids, List.filter_map, List.filter_filter]
  congr 1
  refine List.filter_congr fun w' _ => ?_
  by_cases hw' : s.live w' = true
  · have hiff : s.idOf t w' = s.idOf t w ↔ w' = w :=
      ⟨hb.idOf_inj hw' hw, fun h => h ▸ rfl⟩
    simp [hw', hiff, bne, beq_eq_decide]
  · simp [hw']

theorem Book.ids_filter_of_not_live {s : State} (hb : Book .cluster s) {w : ℕ}
    (hw : s.live w = false) : s.ids.filter (· != w) = s.ids := by
  rw [List.filter_eq_self]
  intro w' hw'
  rw [hb.ids] at hw'
  obtain ⟨v, hv, rfl⟩ := List.mem_map.mp hw'
  have hlive := (List.mem_filter.mp hv).2
  simp only [State.idOf, bne_iff_ne, ne_eq]
  rintro rfl
  exact Bool.false_ne_true (hw.symm.trans hlive)

/-- What an exit does to the books. -/
structure Exits (t : Transport) (s s' : State) (w : ℕ) : Prop where
  generation : s'.generation = s.generation
  created : s'.created = s.created
  ids : s'.ids = if s.live w then s.ids.filter (· != s.idOf t w) else s.ids
  procs : t = .subprocess →
    s'.procs = if s.live w then Function.update s.procs (s.workers w).thread none else s.procs
  workerGeneration : ∀ v, (s'.workers v).generation = (s.workers v).generation
  thread : ∀ v, (s'.workers v).thread = (s.workers v).thread
  exited : ∀ v, (s'.workers v).exited = ((s.workers v).exited || v == w)

theorem Exits.live {t : Transport} {s s' : State} {w : ℕ} (h : Exits t s s' w) (v : ℕ) :
    s'.live v = (s.live v && v != w) := by
  simp only [State.live, h.generation, h.created, h.workerGeneration, h.exited, Bool.not_or, bne,
    Bool.and_assoc]

theorem Book.exits {t : Transport} {s s' : State} {w : ℕ} (hb : Book t s) (h : Exits t s s' w) :
    Book t s' where
  old v hv := by
    rw [h.workerGeneration, h.generation]
    exact hb.old v (h.created ▸ hv)
  threads v hv v' hv' hgen hthread := by
    rw [h.workerGeneration, h.workerGeneration] at hgen
    rw [h.thread, h.thread] at hthread
    exact hb.threads v (h.created ▸ hv) v' (h.created ▸ hv') hgen hthread
  ids := by
    have hid : s'.idOf t = s.idOf t := by
      funext v
      cases t with
      | subprocess => exact h.thread v
      | cluster => rfl
    have hlive : s'.live = fun v => s.live v && v != w := funext h.live
    rw [h.ids, h.created, hid, hlive]
    cases hw : s.live w with
    | true => rw [if_pos rfl, hb.ids_filter hw]
    | false =>
      rw [if_neg Bool.false_ne_true, hb.ids]
      congr 1
      refine List.filter_congr fun v _ => ?_
      by_cases hv : v = w
      · simp [hv, hw]
      · simp [hv]
  procs ht i v := by
    rw [h.procs ht, h.live, h.thread, Bool.and_eq_true, bne_iff_ne]
    cases hw : s.live w with
    | true =>
      rw [if_pos rfl]
      by_cases hi : i = (s.workers w).thread
      · rw [hi, Function.update_self]
        constructor
        · intro h
          cases h
        · rintro ⟨⟨hv, hne⟩, hthread⟩
          refine absurd (hb.idOf_inj hv hw ?_) hne
          rw [ht]
          exact hthread
      · rw [Function.update_of_ne hi, hb.procs ht]
        refine ⟨fun ⟨hv, hthread⟩ => ⟨⟨hv, ?_⟩, hthread⟩, fun ⟨⟨hv, _⟩, hthread⟩ => ⟨hv, hthread⟩⟩
        rintro rfl
        exact hi hthread.symm
    | false =>
      rw [if_neg Bool.false_ne_true, hb.procs ht]
      refine ⟨fun ⟨hv, hthread⟩ => ⟨⟨hv, ?_⟩, hthread⟩, fun ⟨⟨hv, _⟩, hthread⟩ => ⟨hv, hthread⟩⟩
      rintro rfl
      exact Bool.false_ne_true (hw.symm.trans hv)

theorem Exits.keeps {t : Transport} {s s' s'' : State} {w : ℕ} (h : Exits t s s' w)
    (h' : Keeps s' s'') : Exits t s s'' w where
  generation := h'.generation.trans h.generation
  created := h'.created.trans h.created
  ids := h'.ids.trans h.ids
  procs ht := h'.procs.trans (h.procs ht)
  workerGeneration v := (h'.workerGeneration v).trans (h.workerGeneration v)
  thread v := (h'.thread v).trans (h.thread v)
  exited v := (h'.exited v).trans (h.exited v)

/-- `worker_procs` has the object exactly when it is a live worker. -/
theorem Book.current_iff {s : State} (hb : Book .subprocess s) (w : ℕ) :
    (s.procs (s.workers w).thread == some w) = s.live w := by
  rw [Bool.eq_iff_iff, beq_iff_eq, hb.procs rfl]
  exact ⟨fun h => h.1, fun h => ⟨h, rfl⟩⟩

theorem exits_update (t : Transport) (s s' : State) (w : ℕ) (clean : Bool)
    (hgen : s'.generation = s.generation) (hcreated : s'.created = s.created)
    (hworkers : s'.workers = s.workers)
    (hids : s'.ids = if s.live w then s.ids.filter (· != s.idOf t w) else s.ids)
    (hprocs : t = .subprocess →
      s'.procs = if s.live w then Function.update s.procs (s.workers w).thread none else s.procs) :
    Exits t s (s'.update w (·.exit clean)) w where
  generation := hgen
  created := hcreated
  ids := hids
  procs := hprocs
  workerGeneration v := by
    by_cases hv : v = w
    · rw [hv, update_workers_self, hworkers]; rfl
    · rw [update_workers_of_ne _ _ hv, hworkers]
  thread v := by
    by_cases hv : v = w
    · rw [hv, update_workers_self, hworkers]; rfl
    · rw [update_workers_of_ne _ _ hv, hworkers]
  exited v := by
    by_cases hv : v = w
    · rw [hv, update_workers_self]; simp [Worker.exit]
    · rw [update_workers_of_ne _ _ hv, hworkers]; simp [hv]

theorem Book.exit_exits {t : Transport} {s : State} (hb : Book t s) (w : ℕ) (clean : Bool) :
    Exits t s (s.exit t w clean) w := by
  have hlost (s' : State) (h : Exits t s s' w) :
      Exits t s ((s'.handle w .exit).update w fun worker => { worker with lost := true }) w :=
    h.keeps ((keeps_handle _ _ _).trans (keeps_update _ _ _ rfl rfl rfl))
  cases t with
  | subprocess =>
    have hbase := exits_update .subprocess s
      (if s.procs (s.workers w).thread == some w then { s with
        procs := Function.update s.procs (s.workers w).thread none
        ids := s.ids.filter (· != (s.workers w).thread) } else s) w clean
      (by split <;> rfl) (by split <;> rfl) (by split <;> rfl)
      (by rw [hb.current_iff]; split <;> rfl) (fun _ => by rw [hb.current_iff]; split <;> rfl)
    simp only [State.exit]
    by_cases hquiet : (s.workers w).expectedClose.isSome ||
        !(s.procs (s.workers w).thread == some w)
    · rw [if_pos hquiet]; exact hbase
    · rw [if_neg hquiet]; exact hlost _ hbase
  | cluster =>
    have hbase := exits_update .cluster s { s with ids := s.ids.filter (· != w) } w clean
      rfl rfl rfl (by
        cases hw : s.live w with
        | true => rfl
        | false => exact hb.ids_filter_of_not_live hw) (fun h => by cases h)
    simp only [State.exit]
    split
    · exact hbase
    · exact hlost _ hbase

/-! ## Replacement -/

/-- While the workers are created, those of the current generation have the threads below `n`. -/
structure Creating (t : Transport) (s : State) (n : ℕ) : Prop extends Book t s where
  below : ∀ w < s.created, (s.workers w).generation = s.generation → (s.workers w).thread < n

@[simp]
theorem createThread_generation (t : Transport) (s : State) (i : ℕ) :
    (s.createThread t i).generation = s.generation := by
  cases t <;> rfl

@[simp]
theorem createThread_created (t : Transport) (s : State) (i : ℕ) :
    (s.createThread t i).created = s.created + 1 := by
  cases t <;> rfl

theorem createThread_workers_self (t : Transport) (s : State) (i : ℕ) :
    (s.createThread t i).workers s.created = .new s.generation i := by
  cases t <;> exact Function.update_self ..

theorem createThread_workers_of_lt (t : Transport) (s : State) (i : ℕ) {w : ℕ}
    (hw : w < s.created) : (s.createThread t i).workers w = s.workers w := by
  cases t <;> exact Function.update_of_ne (Nat.ne_of_lt hw) ..

theorem createThread_live_self (t : Transport) (s : State) (i : ℕ) :
    (s.createThread t i).live s.created = true := by
  simp [State.live, createThread_workers_self, Worker.new]

theorem createThread_live_of_lt (t : Transport) (s : State) (i : ℕ) {w : ℕ}
    (hw : w < s.created) : (s.createThread t i).live w = s.live w := by
  have h : w < s.created + 1 := by omega
  simp [State.live, createThread_workers_of_lt t s i hw, hw, h]

theorem createThread_live_iff (t : Transport) (s : State) (i w : ℕ) :
    (s.createThread t i).live w = true ↔ s.live w = true ∨ w = s.created := by
  rcases Nat.lt_trichotomy w s.created with hw | rfl | hw
  · rw [createThread_live_of_lt t s i hw]
    exact ⟨.inl, fun h => h.resolve_right (Nat.ne_of_lt hw)⟩
  · simp [createThread_live_self]
  · simp [State.live]
    omega

/-- The next thread is created. -/
theorem Creating.createThread {t : Transport} {s : State} {n : ℕ} (h : Creating t s n) :
    Creating t (s.createThread t n) (n + 1) where
  old w hw := by
    rw [createThread_created] at hw
    rw [createThread_generation]
    rcases Nat.lt_succ_iff_lt_or_eq.mp hw with hw | rfl
    · rw [createThread_workers_of_lt t s n hw]
      exact h.old w hw
    · rw [createThread_workers_self]
      exact Nat.le_refl _
  threads w hw w' hw' := by
    rw [createThread_created] at hw hw'
    rcases Nat.lt_succ_iff_lt_or_eq.mp hw with hw | rfl <;>
      rcases Nat.lt_succ_iff_lt_or_eq.mp hw' with hw' | rfl
    · rw [createThread_workers_of_lt t s n hw, createThread_workers_of_lt t s n hw']
      exact h.threads w hw w' hw'
    · rw [createThread_workers_of_lt t s n hw, createThread_workers_self]
      intro hgen hthread
      exact absurd hthread (Nat.ne_of_lt (h.below w hw hgen))
    · rw [createThread_workers_of_lt t s n hw', createThread_workers_self]
      intro hgen hthread
      exact absurd hthread.symm (Nat.ne_of_lt (h.below w' hw' hgen.symm))
    · intro _ _; rfl
  ids := by
    have hold : (List.range s.created).filter (s.createThread t n).live =
        (List.range s.created).filter s.live :=
      List.filter_congr fun w hw => createThread_live_of_lt t s n (List.mem_range.mp hw)
    have hid (w : ℕ) (hw : w ∈ (List.range s.created).filter s.live) :
        (s.createThread t n).idOf t w = s.idOf t w := by
      have hlt := List.mem_range.mp (List.mem_filter.mp hw).1
      cases t with
      | subprocess => simp only [State.idOf, createThread_workers_of_lt _ s n hlt]
      | cluster => rfl
    rw [createThread_created, List.range_succ, List.filter_append, List.map_append, hold,
      List.map_congr_left hid, ← h.ids]
    have hself := createThread_live_self t s n
    simp only [List.filter_cons, hself, List.filter_nil, if_true, List.map_cons, List.map_nil]
    cases t with
    | subprocess =>
      simp only [State.idOf, createThread_workers_self]
      rfl
    | cluster => rfl
  procs ht i w := by
    subst ht
    rw [createThread_live_iff]
    show Function.update s.procs n (some s.created) i = some w ↔ _
    by_cases hi : i = n
    · rw [hi, Function.update_self, Option.some_inj]
      constructor
      · rintro rfl
        exact ⟨.inr rfl, by rw [createThread_workers_self]; rfl⟩
      · rintro ⟨hw | rfl, hthread⟩
        · have hlt : w < s.created := by grind
          rw [createThread_workers_of_lt _ s n hlt] at hthread
          exact absurd hthread (Nat.ne_of_lt (h.below w hlt (by grind)))
        · rfl
    · rw [Function.update_of_ne hi, h.procs rfl]
      constructor
      · rintro ⟨hw, hthread⟩
        have hlt : w < s.created := by grind
        exact ⟨.inl hw, by rw [createThread_workers_of_lt _ s n hlt]; exact hthread⟩
      · rintro ⟨hw | rfl, hthread⟩
        · have hlt : w < s.created := by grind
          rw [createThread_workers_of_lt _ s n hlt] at hthread
          exact ⟨hw, hthread⟩
        · rw [createThread_workers_self] at hthread
          exact absurd hthread.symm hi
  below w hw := by
    rw [createThread_created] at hw
    rw [createThread_generation]
    rcases Nat.lt_succ_iff_lt_or_eq.mp hw with hw | rfl
    · rw [createThread_workers_of_lt t s n hw]
      intro hgen
      exact Nat.lt_succ_of_lt (h.below w hw hgen)
    · rw [createThread_workers_self]
      intro _
      exact Nat.lt_succ_self n

theorem Creating.createThreads {t : Transport} {s : State} (h : Creating t s 0) (count : ℕ) :
    Creating t ((List.range count).foldl (State.createThread t) s) count := by
  induction count with
  | zero => exact h
  | succ n ih =>
    rw [List.range_succ, List.foldl_append]
    exact ih.createThread

theorem Book.recreateThreads {t : Transport} {s : State} (hb : Book t s) (count : ℕ) :
    Book t (s.recreateThreads t count) := by
  refine (Creating.createThreads ?_ count).toBook
  have hkeeps := keeps_closeWorkers t { s with generation := s.generation + 1 } s.generation true
  set closed := ({ s with generation := s.generation + 1 } : State).closeWorkers t s.generation true
  have hold (w : ℕ) (hw : w < closed.created) :
      (closed.workers w).generation < closed.generation := by
    rw [hkeeps.workerGeneration, hkeeps.generation]
    exact Nat.lt_succ_of_le (hb.old w (hkeeps.created ▸ hw))
  have hdead (w : ℕ) :
      ({ closed with ids := [], procs := fun _ => none } : State).live w = false := by
    by_contra hlive
    have hw : w < closed.created ∧ (closed.workers w).generation = closed.generation := by grind
    exact Nat.ne_of_lt (hold w hw.1) hw.2
  constructor
  · constructor
    · exact fun w hw => Nat.le_of_lt (hold w hw)
    · intro w hw w' hw' hgen hthread
      rw [hkeeps.workerGeneration, hkeeps.workerGeneration] at hgen
      rw [hkeeps.thread, hkeeps.thread] at hthread
      exact hb.threads w (hkeeps.created ▸ hw) w' (hkeeps.created ▸ hw') hgen hthread
    · rw [List.filter_eq_nil_iff.mpr fun w _ => by simp [hdead w]]
      rfl
    · intro _ i w
      simp [hdead w]
  · exact fun w hw hgen => absurd hgen (Nat.ne_of_lt (hold w hw))

theorem Book.step {t : Transport} {s : State} (hb : Book t s) (e : Event) :
    Book t (step t s e) := by
  cases e with
  | recreateThreads count => exact hb.recreateThreads count
  | closeWorkers timed => exact hb.keeps (keeps_closeWorkers t s _ timed)
  | fire k sent => exact hb.keeps (keeps_fire t s k sent)
  | message w =>
    simp only [Controller.step]
    split
    · exact hb.keeps (keeps_message t s w)
    · exact hb
  | invalid w sent =>
    simp only [Controller.step]
    split
    · exact hb.keeps (keeps_invalid t s w sent)
    · exact hb
  | error w sent =>
    simp only [Controller.step]
    split
    · exact hb.keeps (keeps_error t s w sent)
    · exact hb
  | exit w clean =>
    simp only [Controller.step]
    split
    · exact hb.exits (hb.exit_exits w clean)
    · exact hb

end MoMiner.Controller
