import Mathlib.Data.Multiset.Filter
import Mathlib.Logic.Function.Basic
import MoMiner.C29.Graph
import MoMiner.Lib.Run

/-!
# Asynchronous results

Each call activates its job, pops a queued proof of it, and otherwise starts a search or polls.
A search runs detached: it queues what it has found if its job is still the active one, and then
gives its running count back. Every one of these steps takes the result mutex, so the calls and
the searches interleave at these steps and nowhere else.

The pop and the running count are read in two critical sections. A search that queues its proofs
and finishes between them makes the poll report that the job is drained although a proof is queued.

Main results: `results_kept` and `drained_with_queued_proof`.
-/

namespace MoMiner.C29

/-! ## The critical sections -/

/-- `C29QueuedSolution`. -/
structure QueuedSolution where
  edges : List Edge
  seed : Vector UInt64 4
  jobRef : UInt32
  nonce : UInt64
deriving DecidableEq

/-- `C29ResultState`. -/
structure ResultState where
  solutions : List QueuedSolution
  runningSearches : UInt32 → Option ℕ
  activeJobRef : UInt32

namespace ResultState

variable (s : ResultState) (jobRef : UInt32)

/-- Publish the active job and discard stale queued proofs. -/
def activateJob : ResultState :=
  if s.activeJobRef = jobRef then s
  else { s with
    activeJobRef := jobRef
    solutions := s.solutions.filter fun solution => solution.jobRef = jobRef }

/-- The first queued proof of the job. -/
def firstSolution : Option QueuedSolution :=
  s.solutions.find? fun solution => solution.jobRef = jobRef

/-- Take that proof from the queue. -/
def popSolution : ResultState :=
  { s with solutions := s.solutions.eraseP fun solution => solution.jobRef = jobRef }

/-- Count a search before it is launched. -/
def countSearch : ResultState :=
  { s with runningSearches :=
      Function.update s.runningSearches jobRef (some ((s.runningSearches jobRef).getD 0 + 1)) }

/-- Give the running count of a search back. -/
def releaseSearch : ResultState :=
  match s.runningSearches jobRef with
  | none => s
  | some count =>
    if count > 1 then
      { s with runningSearches := Function.update s.runningSearches jobRef (some (count - 1)) }
    else { s with runningSearches := Function.update s.runningSearches jobRef none }

/-- The result of a poll: `-1` once no search of the job is counted. -/
def poll : ℤ :=
  if s.runningSearches jobRef = none ∨ s.runningSearches jobRef = some 0 then -1 else 0

end ResultState

/-! ## Calls and searches -/

/-- The arguments of a call on one device that matter here. -/
structure Call where
  jobRef : UInt32
  input : List UInt8
  nonce : UInt64

/-- A detached cycle search. -/
structure Search where
  jobRef : UInt32
  seed : Vector UInt64 4
  nonce : UInt64

def Search.solution (search : Search) (edges : List Edge) : QueuedSolution :=
  ⟨edges, search.seed, search.jobRef, search.nonce⟩

/-- The proofs that a search queues: those it found, if its job is still active. -/
def Search.kept (search : Search) (s : ResultState) (found : List (List Edge)) :
    List QueuedSolution :=
  if s.activeJobRef = search.jobRef then found.map search.solution else []

/-- What a call does next. -/
inductive Phase
  | activate
  | pop
  | recover (solution : QueuedSolution)
  | start
  | poll

/-- What a search does next. -/
inductive SearchPhase
  | queue
  | release
deriving DecidableEq

/-- After the pop: recover the proof, or start a search if there is an input, or poll. -/
def Call.afterPop (call : Call) : Option QueuedSolution → Phase
  | some solution => .recover solution
  | none => if call.input.length ≠ 0 then .start else .poll

structure System where
  results : ResultState
  calls : Multiset (Call × Phase)
  searches : Multiset (Search × SearchPhase)

def System.init : System :=
  ⟨⟨[], fun _ => none, 0⟩, 0, 0⟩

/-- How a call ends: with a proof, with a search started, with the result of a poll, or with an
exception of the device. -/
inductive Outcome
  | solution (solution : QueuedSolution)
  | started
  | polled (result : ℤ)
  | thrown

inductive Event
  | entered (call : Call)
  | activated (call : Call)
  | popped (call : Call)
  | returned (call : Call) (outcome : Outcome)
  | queued (search : Search) (solutions : List QueuedSolution)
  | released (search : Search)

section

variable (blake2b : List UInt8 → Vector UInt64 4)

/-- The search that a call starts. -/
def Call.search (call : Call) : Search :=
  ⟨call.jobRef, blake2b call.input, call.nonce⟩

/-- One step of a call or of a search. -/
inductive Step : System → Event → System → Prop
  | enter {s calls searches} (call : Call) :
    Step ⟨s, calls, searches⟩ (.entered call) ⟨s, (call, .activate) ::ₘ calls, searches⟩
  | activate {s calls searches} (call : Call) :
    Step ⟨s, (call, .activate) ::ₘ calls, searches⟩ (.activated call)
      ⟨s.activateJob call.jobRef, (call, .pop) ::ₘ calls, searches⟩
  | pop {s calls searches} (call : Call) :
    Step ⟨s, (call, .pop) ::ₘ calls, searches⟩ (.popped call)
      ⟨s.popSolution call.jobRef, (call, call.afterPop (s.firstSolution call.jobRef)) ::ₘ calls,
        searches⟩
  | recover {s calls searches} (call : Call) (solution : QueuedSolution) :
    Step ⟨s, (call, .recover solution) ::ₘ calls, searches⟩ (.returned call (.solution solution))
      ⟨s, calls, searches⟩
  -- An edge nonce stays unresolved, or the device fails.
  | recoverThrows {s calls searches} (call : Call) (solution : QueuedSolution) :
    Step ⟨s, (call, .recover solution) ::ₘ calls, searches⟩ (.returned call .thrown)
      ⟨s, calls, searches⟩
  | start {s calls searches} (call : Call) :
    Step ⟨s, (call, .start) ::ₘ calls, searches⟩ (.returned call .started)
      ⟨s.countSearch call.jobRef, calls, (call.search blake2b, .queue) ::ₘ searches⟩
  -- Seeding or trimming fails before the search is counted.
  | startThrows {s calls searches} (call : Call) :
    Step ⟨s, (call, .start) ::ₘ calls, searches⟩ (.returned call .thrown) ⟨s, calls, searches⟩
  | poll {s calls searches} (call : Call) :
    Step ⟨s, (call, .poll) ::ₘ calls, searches⟩ (.returned call (.polled (s.poll call.jobRef)))
      ⟨s, calls, searches⟩
  -- A search that fails, or whose thread does not start, has found nothing.
  | queue {s calls searches} (search : Search) (found : List (List Edge)) :
    Step ⟨s, calls, (search, .queue) ::ₘ searches⟩ (.queued search (search.kept s found))
      ⟨{ s with solutions := s.solutions ++ search.kept s found }, calls,
        (search, .release) ::ₘ searches⟩
  | release {s calls searches} (search : Search) :
    Step ⟨s, calls, (search, .release) ::ₘ searches⟩ (.released search)
      ⟨s.releaseSearch search.jobRef, calls, searches⟩

end

/-! ## The running counts -/

/-- The searches of a job that were started and have not finished. -/
def System.unfinished (st : System) (jobRef : UInt32) : ℕ :=
  st.searches.countP fun p => p.1.jobRef = jobRef

/-- Every running count is the number of unfinished searches. -/
def System.Counted (st : System) : Prop :=
  ∀ jobRef, (st.results.runningSearches jobRef).getD 0 = st.unfinished jobRef ∧
    st.results.runningSearches jobRef ≠ some 0

theorem runningSearches_activateJob (s : ResultState) (jobRef : UInt32) :
    (s.activateJob jobRef).runningSearches = s.runningSearches := by
  unfold ResultState.activateJob
  split_ifs <;> rfl

theorem counted_countSearch {s : ResultState} {calls calls' : Multiset (Call × Phase)}
    {searches : Multiset (Search × SearchPhase)} (h : System.Counted ⟨s, calls, searches⟩)
    (search : Search) : System.Counted
      ⟨s.countSearch search.jobRef, calls', (search, .queue) ::ₘ searches⟩ := by
  intro jobRef
  obtain ⟨hcount, hne⟩ := h jobRef
  simp only [System.unfinished, ResultState.countSearch, Multiset.countP_cons] at hcount ⊢
  by_cases hjob : search.jobRef = jobRef
  · subst hjob
    simp [hcount]
  · rw [Function.update_of_ne (Ne.symm hjob), if_neg hjob]
    exact ⟨hcount, hne⟩

theorem counted_releaseSearch {s : ResultState} {calls : Multiset (Call × Phase)}
    {searches : Multiset (Search × SearchPhase)} {search : Search} {phase : SearchPhase}
    (h : System.Counted ⟨s, calls, (search, phase) ::ₘ searches⟩) :
    System.Counted ⟨s.releaseSearch search.jobRef, calls, searches⟩ := by
  intro jobRef
  obtain ⟨hcount, hne⟩ := h jobRef
  simp only [System.unfinished, Multiset.countP_cons] at hcount ⊢
  by_cases hjob : search.jobRef = jobRef
  · subst hjob
    rw [if_pos rfl] at hcount
    simp only [ResultState.releaseSearch]
    cases hrunning : s.runningSearches search.jobRef with
    | none => simp [hrunning] at hcount
    | some count =>
      rw [hrunning, Option.getD_some] at hcount
      by_cases hlast : count > 1
      · simp only [hlast, if_true, Function.update_self, Option.getD_some, ne_eq,
          Option.some.injEq]
        omega
      · simp only [hlast, if_false, Function.update_self, Option.getD_none]
        exact ⟨by omega, (Option.some_ne_none 0).symm⟩
  · rw [if_neg hjob, add_zero] at hcount
    have hframe : (s.releaseSearch search.jobRef).runningSearches jobRef =
        s.runningSearches jobRef := by
      unfold ResultState.releaseSearch
      split
      · rfl
      · split_ifs <;> exact Function.update_of_ne (Ne.symm hjob) _ _
    rw [hframe]
    exact ⟨hcount, hne⟩

section

variable {blake2b : List UInt8 → Vector UInt64 4} {st st' : System} {e : Event} {es : List Event}

theorem Step.counted (h : Step blake2b st e st') (hst : st.Counted) : st'.Counted := by
  cases h with
  | enter | recover | recoverThrows | startThrows | poll | pop => exact hst
  | activate call =>
    intro jobRef
    rw [runningSearches_activateJob]
    exact hst jobRef
  | start call => exact counted_countSearch hst (call.search blake2b)
  | queue search found =>
    intro jobRef
    have hcount := hst jobRef
    simp only [System.unfinished, Multiset.countP_cons] at hcount ⊢
    exact hcount
  | release search => exact counted_releaseSearch hst

theorem counted_init : System.init.Counted :=
  fun _ => ⟨rfl, (Option.some_ne_none 0).symm⟩

theorem counted_run (h : Run (Step blake2b) System.init es st) : st.Counted :=
  h.invariant counted_init fun _ _ _ hst hstep => hstep.counted hst

/-! ## Where a proof comes from -/

variable (blake2b) in
/-- A call started a search, which found the proof for its job, seed and nonce and queued it. -/
def Origin (es : List Event) (solution : QueuedSolution) : Prop :=
  ∃ starter, .returned starter .started ∈ es ∧
    ∃ solutions, .queued (starter.search blake2b) solutions ∈ es ∧ solution ∈ solutions ∧
      ∃ edges, solution = (starter.search blake2b).solution edges

theorem Origin.mono {solution : QueuedSolution} (h : Origin blake2b es solution) (e : Event) :
    Origin blake2b (es ++ [e]) solution := by
  obtain ⟨starter, hstarted, solutions, hqueued, hrest⟩ := h
  exact ⟨starter, List.mem_append_left _ hstarted, solutions, List.mem_append_left _ hqueued, hrest⟩

variable (blake2b) in
/-- Every proof in the queue or in the hands of a call has its origin in the run. -/
structure Provenance (es : List Event) (st : System) : Prop where
  searches : ∀ p ∈ st.searches,
    ∃ starter, .returned starter .started ∈ es ∧ p.1 = Call.search blake2b starter
  solutions : ∀ solution ∈ st.results.solutions, Origin blake2b es solution
  recovering : ∀ call solution, (call, .recover solution) ∈ st.calls →
    solution.jobRef = call.jobRef ∧ Origin blake2b es solution

theorem Provenance.mono (h : Provenance blake2b es st) (e : Event) :
    Provenance blake2b (es ++ [e]) st := by
  refine ⟨?_, fun solution hmem => (h.solutions solution hmem).mono e, ?_⟩
  · intro p hp
    obtain ⟨starter, hstarted, heq⟩ := h.searches p hp
    exact ⟨starter, List.mem_append_left _ hstarted, heq⟩
  · intro call solution hmem
    obtain ⟨hjob, horigin⟩ := h.recovering call solution hmem
    exact ⟨hjob, horigin.mono e⟩

theorem mem_activateJob {s : ResultState} {jobRef : UInt32} {solution : QueuedSolution}
    (h : solution ∈ (s.activateJob jobRef).solutions) : solution ∈ s.solutions := by
  unfold ResultState.activateJob at h
  split_ifs at h
  · exact h
  · exact List.mem_of_mem_filter h

theorem afterPop_eq_recover {call : Call} {popped : Option QueuedSolution}
    {solution : QueuedSolution} (h : call.afterPop popped = .recover solution) :
    popped = some solution := by
  cases popped with
  | none =>
    unfold Call.afterPop at h
    split_ifs at h
  | some other =>
    cases h
    rfl

theorem solutions_releaseSearch (s : ResultState) (jobRef : UInt32) :
    (s.releaseSearch jobRef).solutions = s.solutions := by
  unfold ResultState.releaseSearch
  split
  · rfl
  · split_ifs <;> rfl

theorem Step.provenance (h : Step blake2b st e st') (hst : Provenance blake2b es st) :
    Provenance blake2b (es ++ [e]) st' := by
  have hmono := hst.mono e
  cases h with
  | enter call =>
    refine ⟨hmono.searches, hmono.solutions, ?_⟩
    intro other solution hmem
    rcases Multiset.mem_cons.mp hmem with heq | hmem
    · cases heq
    · exact hmono.recovering other solution hmem
  | activate call =>
    refine ⟨hmono.searches, fun solution hmem => hmono.solutions _ (mem_activateJob hmem), ?_⟩
    intro other solution hmem
    rcases Multiset.mem_cons.mp hmem with heq | hmem
    · cases heq
    · exact hmono.recovering other solution (Multiset.mem_cons_of_mem hmem)
  | @pop s calls searches call =>
    refine ⟨hmono.searches, fun solution hmem => hmono.solutions _ (List.mem_of_mem_eraseP hmem), ?_⟩
    intro other solution hmem
    rcases Multiset.mem_cons.mp hmem with heq | hmem
    · -- The popped proof was queued, and it was popped for its job.
      rw [Prod.mk.injEq] at heq
      obtain ⟨rfl, hphase⟩ := heq
      have hfirst := afterPop_eq_recover hphase.symm
      have hjob := List.find?_some hfirst
      exact ⟨of_decide_eq_true hjob, hmono.solutions _ (List.mem_of_find?_eq_some hfirst)⟩
    · exact hmono.recovering other solution (Multiset.mem_cons_of_mem hmem)
  | recover call | recoverThrows call | startThrows call | poll call =>
    exact ⟨hmono.searches, hmono.solutions,
      fun other solution hmem => hmono.recovering other solution (Multiset.mem_cons_of_mem hmem)⟩
  | start call =>
    refine ⟨?_, hmono.solutions,
      fun other solution hmem => hmono.recovering other solution (Multiset.mem_cons_of_mem hmem)⟩
    intro p hp
    rcases Multiset.mem_cons.mp hp with rfl | hp
    · exact ⟨call, List.mem_append_right _ (List.mem_singleton_self _), rfl⟩
    · exact hmono.searches p hp
  | @queue s calls searches search found =>
    obtain ⟨starter, hstarted, rfl⟩ := hmono.searches _ (Multiset.mem_cons_self _ _)
    refine ⟨?_, ?_, hmono.recovering⟩
    · intro p hp
      rcases Multiset.mem_cons.mp hp with rfl | hp
      · exact ⟨starter, hstarted, rfl⟩
      · exact hmono.searches p (Multiset.mem_cons_of_mem hp)
    · intro solution hmem
      rcases List.mem_append.mp hmem with hmem | hmem
      · exact hmono.solutions solution hmem
      · have hfound : ∃ edges, solution = (starter.search blake2b).solution edges := by
          simp only [Search.kept] at hmem
          split_ifs at hmem
          · obtain ⟨edges, -, rfl⟩ := List.mem_map.mp hmem
            exact ⟨edges, rfl⟩
          · exact absurd hmem List.not_mem_nil
        exact ⟨starter, hstarted, _, List.mem_append_right _ (List.mem_singleton_self _), hmem,
          hfound⟩
  | release search =>
    refine ⟨fun p hp => hmono.searches p (Multiset.mem_cons_of_mem hp), ?_, hmono.recovering⟩
    rw [solutions_releaseSearch]
    exact hmono.solutions

theorem provenance_run (h : Run (Step blake2b) System.init es st) : Provenance blake2b es st := by
  refine h.history ⟨?_, ?_, ?_⟩ fun _ _ _ _ hst hstep => hstep.provenance hst
  · exact fun p hp => absurd hp (Multiset.notMem_zero p)
  · exact fun solution hmem => absurd hmem List.not_mem_nil
  · exact fun call solution hmem => absurd hmem (Multiset.notMem_zero _)

/-! ## No proof is returned twice -/

/-- The proof that a call returned in an event. -/
def Event.returnedSolution : Event → List QueuedSolution
  | .returned _ (.solution solution) => [solution]
  | _ => []

/-- The proofs that a search queued in an event. -/
def Event.queuedSolutions : Event → List QueuedSolution
  | .queued _ solutions => solutions
  | _ => []

/-- The proof in the hands of a call. -/
def Phase.solution : Phase → Multiset QueuedSolution
  | .recover solution => {solution}
  | _ => 0

/-- The proofs that are queued or in the hands of calls. -/
def System.outstanding (st : System) : Multiset QueuedSolution :=
  (st.calls.map fun p => p.2.solution).sum + st.results.solutions

/-- A step adds to the returned and the outstanding proofs at most what it queues. -/
theorem Step.outstanding_le (h : Step blake2b st e st') :
    (e.returnedSolution : Multiset QueuedSolution) + st'.outstanding ≤
      st.outstanding + e.queuedSolutions := by
  cases h with
  | enter call => simp [System.outstanding, Event.returnedSolution, Event.queuedSolutions,
      Phase.solution]
  | @activate s calls searches call =>
    have hle : ((s.activateJob call.jobRef).solutions : Multiset QueuedSolution) ≤ s.solutions := by
      unfold ResultState.activateJob
      split_ifs
      · exact le_rfl
      · exact Multiset.coe_le.mpr List.filter_sublist.subperm
    simpa [System.outstanding, Event.returnedSolution, Event.queuedSolutions, Phase.solution] using
      hle
  | @pop s calls searches call =>
    have hle : (call.afterPop (s.firstSolution call.jobRef)).solution +
        ((s.popSolution call.jobRef).solutions : Multiset QueuedSolution) ≤ s.solutions := by
      cases hfirst : s.firstSolution call.jobRef with
      | none =>
        have hphase : (call.afterPop none).solution = 0 := by
          unfold Call.afterPop
          split_ifs <;> rfl
        rw [hphase, zero_add]
        exact Multiset.coe_le.mpr List.eraseP_sublist.subperm
      | some solution =>
        obtain ⟨hjob, front, back, hlist, hfront⟩ := List.find?_eq_some_iff_append.mp hfirst
        have hpop : (s.popSolution call.jobRef).solutions = front ++ back := by
          rw [ResultState.popSolution, hlist, List.eraseP_append_right _ (by simpa using hfront)]
          simp only [List.eraseP_cons, hjob, cond_true]
        rw [hpop, hlist]
        apply le_of_eq
        simp only [Call.afterPop, Phase.solution]
        rw [Multiset.singleton_add, Multiset.cons_coe]
        exact (Multiset.coe_eq_coe.mpr List.perm_middle).symm
    have hadd := add_le_add_right hle (calls.map fun p => p.2.solution).sum
    simpa [System.outstanding, Event.returnedSolution, Event.queuedSolutions, Phase.solution,
      add_assoc, add_left_comm] using hadd
  | recover call | start call | startThrows call | poll call =>
    simp [System.outstanding, Event.returnedSolution, Event.queuedSolutions, Phase.solution,
      ResultState.countSearch]
  | recoverThrows call =>
    simp only [System.outstanding, Event.returnedSolution, Event.queuedSolutions, Phase.solution,
      Multiset.map_cons, Multiset.sum_cons, Multiset.coe_nil, zero_add, add_zero, add_assoc]
    exact Multiset.le_add_left _ _
  | queue search found =>
    simp [System.outstanding, Event.returnedSolution, Event.queuedSolutions, ← Multiset.coe_add,
      add_assoc]
  | release search =>
    simp [System.outstanding, Event.returnedSolution, Event.queuedSolutions,
      solutions_releaseSearch]

theorem outstanding_run (h : Run (Step blake2b) System.init es st) :
    (es.flatMap Event.returnedSolution : Multiset QueuedSolution) + st.outstanding ≤
      es.flatMap Event.queuedSolutions := by
  refine h.history (I := fun es st =>
    (es.flatMap Event.returnedSolution : Multiset QueuedSolution) + st.outstanding ≤
      es.flatMap Event.queuedSolutions) (by simp [System.outstanding, System.init]) ?_
  intro es t e u ht hstep
  rw [List.flatMap_append, List.flatMap_append, List.flatMap_singleton, List.flatMap_singleton,
    ← Multiset.coe_add, ← Multiset.coe_add]
  calc (es.flatMap Event.returnedSolution : Multiset QueuedSolution) + e.returnedSolution +
        u.outstanding
      = es.flatMap Event.returnedSolution + (e.returnedSolution + u.outstanding) := add_assoc _ _ _
    _ ≤ es.flatMap Event.returnedSolution + (t.outstanding + e.queuedSolutions) :=
      add_le_add_right hstep.outstanding_le _
    _ = es.flatMap Event.returnedSolution + t.outstanding + e.queuedSolutions :=
      (add_assoc _ _ _).symm
    _ ≤ es.flatMap Event.queuedSolutions + e.queuedSolutions := add_le_add_left ht _

/-! ## Drained jobs -/

/-- The step does not give back the last running count of a job while a proof of it is queued and
a call of it has popped in vain and not yet polled. -/
def Quiet (st : System) (e : Event) : Prop :=
  ∀ search, e = .released search → st.unfinished search.jobRef = 1 →
    (∃ solution ∈ st.results.solutions, solution.jobRef = search.jobRef) →
    ∀ call, (call, Phase.poll) ∈ st.calls → call.jobRef ≠ search.jobRef

/-- A call that is about to poll a job without searches leaves no proof of it behind. -/
def System.Drained (st : System) : Prop :=
  ∀ call, (call, Phase.poll) ∈ st.calls → st.unfinished call.jobRef = 0 →
    ∀ solution ∈ st.results.solutions, solution.jobRef ≠ call.jobRef

theorem Step.drained (h : Step blake2b st e st') (hquiet : Quiet st e) (hst : st.Drained) :
    st'.Drained := by
  intro other hcall hnone
  cases h with
  | enter call =>
    rcases Multiset.mem_cons.mp hcall with heq | hcall
    · cases heq
    · exact hst other hcall hnone
  | activate call =>
    rcases Multiset.mem_cons.mp hcall with heq | hcall
    · cases heq
    · intro solution hmem
      exact hst other (Multiset.mem_cons_of_mem hcall) hnone solution (mem_activateJob hmem)
  | @pop s calls searches call =>
    rcases Multiset.mem_cons.mp hcall with heq | hcall
    · -- The call has found no proof of its job.
      rw [Prod.mk.injEq] at heq
      obtain ⟨rfl, hphase⟩ := heq
      have hfirst : s.firstSolution other.jobRef = none := by
        cases hpopped : s.firstSolution other.jobRef with
        | none => rfl
        | some solution =>
          rw [hpopped] at hphase
          cases hphase
      intro solution hmem hjob
      have hnot := List.find?_eq_none.mp hfirst solution (List.mem_of_mem_eraseP hmem)
      exact hnot (decide_eq_true hjob)
    · intro solution hmem
      exact hst other (Multiset.mem_cons_of_mem hcall) hnone solution
        (List.mem_of_mem_eraseP hmem)
  | recover call | recoverThrows call | startThrows call | poll call =>
    exact hst other (Multiset.mem_cons_of_mem hcall) hnone
  | start call =>
    rw [System.unfinished, Multiset.countP_cons] at hnone
    exact hst other (Multiset.mem_cons_of_mem hcall) (Nat.eq_zero_of_add_eq_zero_right hnone)
  | @queue s calls searches search found =>
    -- A search that queues is still counted, so only other jobs can be without searches.
    simp only [System.unfinished, Multiset.countP_cons] at hnone
    have hjob : search.jobRef ≠ other.jobRef := by
      intro heq
      rw [if_pos heq] at hnone
      omega
    intro solution hmem
    rcases List.mem_append.mp hmem with hmem | hmem
    · refine hst other hcall ?_ solution hmem
      simp only [System.unfinished, Multiset.countP_cons]
      exact hnone
    · simp only [Search.kept] at hmem
      split_ifs at hmem
      · obtain ⟨edges, -, rfl⟩ := List.mem_map.mp hmem
        exact hjob
      · exact absurd hmem List.not_mem_nil
  | @release s calls searches search =>
    rw [solutions_releaseSearch]
    by_cases hjob : search.jobRef = other.jobRef
    · intro solution hmem hsolution
      refine hquiet search rfl ?_ ⟨solution, hmem, hsolution.trans hjob.symm⟩ other hcall hjob.symm
      simp only [System.unfinished, Multiset.countP_cons] at hnone ⊢
      rw [if_pos trivial, hjob, hnone]
    · refine hst other hcall ?_
      simp only [System.unfinished, Multiset.countP_cons] at hnone ⊢
      rw [if_neg hjob, hnone]

theorem drained_run
    (h : Run (fun st e st' => Step blake2b st e st' ∧ Quiet st e) System.init es st) :
    st.Drained :=
  h.invariant (fun _ hcall => absurd hcall (Multiset.notMem_zero _))
    fun _ _ _ hst hstep => hstep.1.drained hstep.2 hst

/-! ## The main results -/

theorem unfinished_of_poll (hst : st.Counted) {jobRef : UInt32}
    (h : st.results.poll jobRef = -1) : st.unfinished jobRef = 0 := by
  rw [← (hst jobRef).1]
  unfold ResultState.poll at h
  split_ifs at h with hzero
  rcases hzero with hzero | hzero <;> rw [hzero] <;> rfl

/-- **Results are kept apart.** In every run, every running count is the number of unfinished
searches of its job, at most as many copies of a proof are returned as were queued, and a call that
returns a proof returns one of its own job, which a search for the reported seed and nonce has
found. A poll reports a drained job only when no search of it is running and, in every run of quiet
steps, no proof of it is queued. -/
theorem results_kept (h : Run (Step blake2b) System.init es st) :
    (∀ jobRef, (st.results.runningSearches jobRef).getD 0 = st.unfinished jobRef) ∧
      (∀ solution, (es.flatMap Event.returnedSolution).count solution ≤
        (es.flatMap Event.queuedSolutions).count solution) ∧
      (∀ call solution st', Step blake2b st (.returned call (.solution solution)) st' →
        solution.jobRef = call.jobRef ∧ Origin blake2b es solution) ∧
      ∀ call st', Step blake2b st (.returned call (.polled (-1))) st' →
        st.unfinished call.jobRef = 0 ∧
        (Run (fun st e st' => Step blake2b st e st' ∧ Quiet st e) System.init es st →
          ∀ solution ∈ st.results.solutions, solution.jobRef ≠ call.jobRef) := by
  have hcounted := counted_run h
  refine ⟨fun jobRef => (hcounted jobRef).1, ?_, ?_, ?_⟩
  · intro solution
    have hle := le_trans (Multiset.le_add_right _ _) (outstanding_run h)
    have hcount := Multiset.count_le_of_le solution hle
    rwa [Multiset.coe_count, Multiset.coe_count] at hcount
  · intro call solution st' hstep
    cases hstep
    exact (provenance_run h).recovering call solution (Multiset.mem_cons_self _ _)
  · intro call st' hstep
    generalize hresult : (-1 : ℤ) = result at hstep
    cases hstep with
    | poll =>
      have hnone := unfinished_of_poll hcounted hresult.symm
      exact ⟨hnone, fun hquiet => drained_run hquiet call (Multiset.mem_cons_self _ _) hnone⟩

end

/-! ## Runs on two calls -/

/-- A call that starts a search for job 1. -/
def startingCall : Call :=
  ⟨1, [0], 7⟩

/-- A call that polls job 1. -/
def pollingCall : Call :=
  ⟨1, [], 0⟩

def zeroSeed (_ : List UInt8) : Vector UInt64 4 :=
  Vector.replicate 4 0

theorem results_kept_two_calls :
    (∃ es st st' solution, Run (Step zeroSeed) System.init es st ∧
      Step zeroSeed st (.returned pollingCall (.solution solution)) st' ∧
      solution.jobRef = pollingCall.jobRef) ∧
    ∃ es st st', Run (fun st e st' => Step zeroSeed st e st' ∧ Quiet st e) System.init es st ∧
      Step zeroSeed st (.returned pollingCall (.polled (-1))) st' ∧
      ∀ solution ∈ st.results.solutions, solution.jobRef ≠ pollingCall.jobRef := by
  constructor
  · have h₁ : Run (Step zeroSeed) System.init _ _ := .next .start (.enter startingCall)
    have h₂ := h₁.next (.activate startingCall)
    have h₃ := h₂.next (.pop startingCall)
    have h₄ := h₃.next (.start startingCall)
    have h₅ := h₄.next (.queue (startingCall.search zeroSeed) [[]])
    have h₆ := h₅.next (.release (startingCall.search zeroSeed))
    have h₇ := h₆.next (.enter pollingCall)
    have h₈ := h₇.next (.activate pollingCall)
    have h₉ := h₈.next (.pop pollingCall)
    obtain ⟨-, -, hreturned, -⟩ := results_kept h₉
    exact ⟨_, _, _, _, h₉, .recover pollingCall ((startingCall.search zeroSeed).solution []),
      (hreturned pollingCall _ _ (.recover pollingCall _)).1⟩
  · -- No search is released, so the steps are quiet.
    have hquiet : ∀ {st e}, (∀ search, e ≠ .released search) → Quiet st e :=
      fun hne search heq => absurd heq (hne search)
    have h₁ : Run (fun st e st' => Step zeroSeed st e st' ∧ Quiet st e) System.init _ _ :=
      .next .start ⟨.enter pollingCall, hquiet fun _ => Event.noConfusion⟩
    have h₂ := h₁.next ⟨.activate pollingCall, hquiet fun _ => Event.noConfusion⟩
    have h₃ := h₂.next ⟨.pop pollingCall, hquiet fun _ => Event.noConfusion⟩
    obtain ⟨-, -, -, hpolled⟩ := results_kept (h₃.mono fun _ _ _ h => h.1)
    exact ⟨_, _, _, h₃, .poll pollingCall, (hpolled pollingCall _ (.poll pollingCall)).2 h₃⟩

/-- The search queues its proof and gives its count back between the pop and the poll: the poll
reports that the job is drained, and the proof stays queued. -/
theorem drained_with_queued_proof : ∃ es st st' call, Run (Step zeroSeed) System.init es st ∧
    Step zeroSeed st (.returned call (.polled (-1))) st' ∧
    ∃ solution ∈ st.results.solutions, solution.jobRef = call.jobRef := by
  have h₁ : Run (Step zeroSeed) System.init _ _ := .next .start (.enter startingCall)
  have h₂ := h₁.next (.activate startingCall)
  have h₃ := h₂.next (.pop startingCall)
  have h₄ := h₃.next (.start startingCall)
  have h₅ := h₄.next (.enter pollingCall)
  have h₆ := h₅.next (.activate pollingCall)
  have h₇ := h₆.next (.pop pollingCall)
  have h₈ := h₇.next (.queue (startingCall.search zeroSeed) [[]])
  have h₉ := h₈.next (.release (startingCall.search zeroSeed))
  exact ⟨_, _, _, pollingCall, h₉, .poll pollingCall, _, List.mem_singleton_self _, rfl⟩

end MoMiner.C29
