import Mathlib.Data.List.Count
import MoMiner.Lib.Run

/-!
# The lifecycle of a solver session

The controller of a device session reports each stage of an attempt to a small state machine, with
the counts that the device returned. Losing a record to a bounded buffer is to make the attempt fail.

The machine guards most calls on its status and its stage. Three are less guarded:

- `roots` fails the attempt also where none is running;
- `finish` does not ask for the last stage;
- `flatOutput` outside the stages of the rounds ignores its count.

Main result: `reported_iff`, over all sequences of calls.
-/

namespace MoMiner.Equihash

/-! ## The machine -/

inductive SessionStatus
  | idle | running | solved | noSolution | capacityOverflow | deviceError
  deriving DecidableEq

/-- An attempt that has ended. -/
def SessionStatus.Terminal : SessionStatus → Prop
  | .idle | .running => False
  | .solved | .noSolution | .capacityOverflow | .deviceError => True

structure ZHashSessionLifecycle where
  capacity : ℕ
  status : SessionStatus
  stage : ℕ
  flatCount : UInt32
  overflowCount : UInt32
  rootCount : UInt32
  zeroRootCount : UInt32
  deriving DecidableEq

namespace ZHashSessionLifecycle

def init (capacity : ℕ) : ZHashSessionLifecycle := ⟨capacity, .idle, 0, 0, 0, 0, 0⟩

variable (s : ZHashSessionLifecycle)

def reset : ZHashSessionLifecycle := init s.capacity

def running : Bool := s.status = .running

def begin : Bool × ZHashSessionLifecycle :=
  if s.running then (false, s) else (true, { s.reset with status := .running })

def failCapacity (count : UInt32) : Bool × ZHashSessionLifecycle :=
  (false, { s with overflowCount := s.overflowCount + count, status := .capacityOverflow })

def generated (overflowCount : UInt32) : Bool × ZHashSessionLifecycle :=
  if s.running = false ∨ s.stage ≠ 0 then (false, s)
  else if overflowCount ≠ 0 then s.failCapacity overflowCount
  else (true, { s with stage := 1 })

def flatOutput (count : UInt32) : Bool × ZHashSessionLifecycle :=
  if s.running = false ∨ s.stage = 0 ∨ 5 < s.stage then (false, s)
  else
    let s := { s with flatCount := count }
    if s.capacity < count.toNat then s.failCapacity (count - UInt32.ofNat s.capacity) else (true, s)

def scattered (overflowCount : UInt32) : Bool × ZHashSessionLifecycle :=
  if s.running = false ∨ s.stage = 0 ∨ 5 ≤ s.stage then (false, s)
  else if overflowCount ≠ 0 then s.failCapacity overflowCount
  else (true, { s with stage := s.stage + 1 })

/-- What a refused number of roots adds to the overflow count. -/
def rootExcess (rootCount : UInt32) : UInt32 :=
  if s.capacity < rootCount.toNat then rootCount - UInt32.ofNat s.capacity else 1

def roots (rootCount zeroRootCount : UInt32) : Bool × ZHashSessionLifecycle :=
  if s.running = false ∨ s.stage ≠ 5 ∨ s.capacity < rootCount.toNat ∨ rootCount < zeroRootCount then
    s.failCapacity (s.rootExcess rootCount)
  else (true, { s with rootCount := rootCount, zeroRootCount := zeroRootCount, stage := 6 })

def finish (solved : Bool) : ZHashSessionLifecycle :=
  if s.running then { s with status := if solved then .solved else .noSolution } else s

def deviceError : ZHashSessionLifecycle :=
  if s.running then { s with status := .deviceError } else s

end ZHashSessionLifecycle

inductive LifecycleCall
  | reset
  | begin
  | generated (overflowCount : UInt32)
  | flatOutput (count : UInt32)
  | scattered (overflowCount : UInt32)
  | roots (rootCount zeroRootCount : UInt32)
  | finish (solved : Bool)
  | deviceError
  deriving DecidableEq

/-- What a call returns, and the session after it. -/
def ZHashSessionLifecycle.call (s : ZHashSessionLifecycle) :
    LifecycleCall → Bool × ZHashSessionLifecycle
  | .reset => (true, s.reset)
  | .begin => s.begin
  | .generated n => s.generated n
  | .flatOutput n => s.flatOutput n
  | .scattered n => s.scattered n
  | .roots n z => s.roots n z
  | .finish solved => (true, s.finish solved)
  | .deviceError => (true, s.deviceError)

/-! ## Attempts -/

/-- A session with the calls that were made while its last attempt was running, and what they
returned. -/
structure Attempt where
  session : ZHashSessionLifecycle
  calls : List (LifecycleCall × Bool)

namespace Attempt

def init (capacity : ℕ) : Attempt := ⟨.init capacity, []⟩

def step (a : Attempt) (c : LifecycleCall) : Attempt where
  session := (a.session.call c).2
  calls :=
    if a.session.running then a.calls ++ [(c, (a.session.call c).1)]
    else if c = .begin then []
    else a.calls

/-- Nothing was lost in an attempt. -/
structure Complete (a : Attempt) : Prop where
  generated : a.calls.count (.generated 0, true) = 1
  scattered : a.calls.count (.scattered 0, true) = 4
  fits : ∀ n ok, (.flatOutput n, ok) ∈ a.calls → n.toNat ≤ a.session.capacity
  roots : ∃ n z, (.roots n z, true) ∈ a.calls

/-- What is to hold of every call. -/
structure Reported (a : Attempt) (c : LifecycleCall) : Prop where
  terminal : a.session.status.Terminal →
    (a.step c).session.status ≠ a.session.status → c = .begin ∨ c = .reset
  complete : (a.step c).session.status = .solved ∨ (a.step c).session.status = .noSolution →
    (a.step c).Complete
  truncated : (a.step c).session.status = .capacityOverflow →
    (a.step c).session.overflowCount ≠ 0
  refused : c = .begin → (a.session.call c).1 = false → a.session.status = .running

/-- A call that does not meet a missing guard. -/
def Proper (a : Attempt) : LifecycleCall → Prop
  | .roots n _ =>
    a.session.status = .idle ∨ a.session.status = .running ∨
      (a.session.status = .capacityOverflow ∧
        a.session.overflowCount + a.session.rootExcess n ≠ 0)
  | .finish _ => a.session.status = .running → a.session.stage = 6 ∧
      ∀ n, (.flatOutput n, false) ∈ a.calls → n.toNat ≤ a.session.capacity
  | _ => True

end Attempt

/-! ## Refused counts -/

theorem sub_ofNat_ne_zero {capacity : ℕ} {n : UInt32} (h : capacity < n.toNat) :
    n - UInt32.ofNat capacity ≠ 0 := by
  intro hzero
  have heq : n = UInt32.ofNat capacity := by
    have := congrArg (· + UInt32.ofNat capacity) hzero
    simpa using this
  rw [heq, UInt32.toNat_ofNat'] at h
  exact absurd (Nat.mod_le capacity (2 ^ 32)) (Nat.not_le.mpr h)

theorem ZHashSessionLifecycle.rootExcess_ne_zero (s : ZHashSessionLifecycle) (n : UInt32) :
    s.rootExcess n ≠ 0 := by
  rw [rootExcess]
  split_ifs with h
  · exact sub_ofNat_ne_zero h
  · decide

namespace Attempt

/-! ## What the stage of a running attempt records -/

structure Progress (a : Attempt) : Prop where
  stage_le : a.session.stage ≤ 6
  generated : a.calls.count (.generated 0, true) = min a.session.stage 1
  scattered : a.calls.count (.scattered 0, true) = min (a.session.stage - 1) 4
  fits : ∀ n, (.flatOutput n, true) ∈ a.calls → n.toNat ≤ a.session.capacity
  roots : a.session.stage = 6 ↔ ∃ n z, (.roots n z, true) ∈ a.calls
  overflow : a.session.overflowCount = 0

/-- What holds in every state that is reported well. -/
structure Inv (a : Attempt) : Prop where
  progress : a.session.status = .running → a.Progress
  idle : a.session.status = .idle → a.session.overflowCount = 0
  complete : a.session.status = .solved ∨ a.session.status = .noSolution → a.Complete
  truncated : a.session.status = .capacityOverflow → a.session.overflowCount ≠ 0

variable {a : Attempt} {c : LifecycleCall}

/-- A call that leaves the attempt running was refused or advances it by its own stage. -/
theorem call_of_running {s : ZHashSessionLifecycle} (hs : s.status = .running)
    (h : (s.call c).2.status = .running) :
    s.call c = (false, s) ∨
    (c = .generated 0 ∧ s.stage = 0 ∧ s.call c = (true, { s with stage := 1 })) ∨
    (∃ n, c = .flatOutput n ∧ n.toNat ≤ s.capacity ∧
      s.call c = (true, { s with flatCount := n })) ∨
    (c = .scattered 0 ∧ 0 < s.stage ∧ s.stage < 5 ∧
      s.call c = (true, { s with stage := s.stage + 1 })) ∨
    (∃ n z, c = .roots n z ∧ s.stage = 5 ∧
      s.call c = (true, { s with rootCount := n, zeroRootCount := z, stage := 6 })) := by
  have hrun : s.running = true := by simp [ZHashSessionLifecycle.running, hs]
  cases c with
  | reset => cases h
  | begin => exact .inl (by simp [ZHashSessionLifecycle.call, ZHashSessionLifecycle.begin, hrun])
  | generated n =>
    simp only [ZHashSessionLifecycle.call, ZHashSessionLifecycle.generated, hrun,
      Bool.true_eq_false, false_or] at h ⊢
    split_ifs at h ⊢ with hstage hn
    · exact .inl rfl
    · cases h
    · obtain rfl : n = 0 := not_not.mp hn
      exact .inr (.inl ⟨rfl, not_not.mp hstage, rfl⟩)
  | flatOutput n =>
    simp only [ZHashSessionLifecycle.call, ZHashSessionLifecycle.flatOutput, hrun,
      Bool.true_eq_false, false_or] at h ⊢
    split_ifs at h ⊢ with hstage hn
    · exact .inl rfl
    · cases h
    · exact .inr (.inr (.inl ⟨n, rfl, Nat.not_lt.mp hn, rfl⟩))
  | scattered n =>
    simp only [ZHashSessionLifecycle.call, ZHashSessionLifecycle.scattered, hrun,
      Bool.true_eq_false, false_or] at h ⊢
    split_ifs at h ⊢ with hstage hn
    · exact .inl rfl
    · cases h
    · obtain rfl : n = 0 := not_not.mp hn
      rw [not_or, Nat.not_le] at hstage
      exact .inr (.inr (.inr (.inl ⟨rfl, Nat.pos_of_ne_zero hstage.1, hstage.2, rfl⟩)))
  | roots n z =>
    simp only [ZHashSessionLifecycle.call, ZHashSessionLifecycle.roots, hrun,
      Bool.true_eq_false, false_or] at h ⊢
    split_ifs at h ⊢ with hbad
    · cases h
    · simp only [not_or, not_not] at hbad
      exact .inr (.inr (.inr (.inr ⟨n, z, rfl, hbad.1, rfl⟩)))
  | finish solved =>
    cases solved <;> simp [ZHashSessionLifecycle.call, ZHashSessionLifecycle.finish, hrun] at h
  | deviceError =>
    simp [ZHashSessionLifecycle.call, ZHashSessionLifecycle.deviceError, hrun] at h

/-- What ends an attempt. -/
theorem ended_of_running {s : ZHashSessionLifecycle} (hs : s.status = .running)
    (hover : s.overflowCount = 0) (h : (s.call c).2.status ≠ .running) :
    (c = .reset ∧ (s.call c).2 = s.reset) ∨
    (c = .deviceError ∧ (s.call c).2.status = .deviceError) ∨
    (∃ solved, c = .finish solved ∧ (s.call c).2 = s.finish solved) ∨
    ((s.call c).2.status = .capacityOverflow ∧ (s.call c).2.overflowCount ≠ 0) := by
  have hrun : s.running = true := by simp [ZHashSessionLifecycle.running, hs]
  cases c with
  | reset => exact .inl ⟨rfl, rfl⟩
  | begin =>
    refine absurd ?_ h
    simp [ZHashSessionLifecycle.call, ZHashSessionLifecycle.begin, hrun, hs]
  | generated n =>
    simp only [ZHashSessionLifecycle.call, ZHashSessionLifecycle.generated, hrun,
      Bool.true_eq_false, false_or] at h ⊢
    split_ifs at h ⊢ with hstage hn
    · exact absurd hs h
    · exact .inr (.inr (.inr ⟨rfl, by simpa [ZHashSessionLifecycle.failCapacity, hover] using hn⟩))
    · exact absurd hs h
  | flatOutput n =>
    simp only [ZHashSessionLifecycle.call, ZHashSessionLifecycle.flatOutput, hrun,
      Bool.true_eq_false, false_or] at h ⊢
    split_ifs at h ⊢ with hstage hn
    · exact absurd hs h
    · refine .inr (.inr (.inr ⟨rfl, ?_⟩))
      simpa [ZHashSessionLifecycle.failCapacity, hover] using sub_ofNat_ne_zero hn
    · exact absurd hs h
  | scattered n =>
    simp only [ZHashSessionLifecycle.call, ZHashSessionLifecycle.scattered, hrun,
      Bool.true_eq_false, false_or] at h ⊢
    split_ifs at h ⊢ with hstage hn
    · exact absurd hs h
    · exact .inr (.inr (.inr ⟨rfl, by simpa [ZHashSessionLifecycle.failCapacity, hover] using hn⟩))
    · exact absurd hs h
  | roots n z =>
    simp only [ZHashSessionLifecycle.call, ZHashSessionLifecycle.roots, hrun,
      Bool.true_eq_false, false_or] at h ⊢
    split_ifs at h ⊢ with hbad
    · refine .inr (.inr (.inr ⟨rfl, ?_⟩))
      simpa [ZHashSessionLifecycle.failCapacity, hover] using s.rootExcess_ne_zero n
    · exact absurd hs h
  | finish solved => exact .inr (.inr (.inl ⟨solved, rfl, rfl⟩))
  | deviceError =>
    refine .inr (.inl ⟨rfl, ?_⟩)
    simp [ZHashSessionLifecycle.call, ZHashSessionLifecycle.deviceError, hrun]

/-- Where no attempt runs, only three calls change the session. -/
theorem call_of_not_running {s : ZHashSessionLifecycle} (hs : s.status ≠ .running)
    (c : LifecycleCall) :
    (c = .begin ∧ s.call c = (true, { s.reset with status := .running })) ∨
    (c = .reset ∧ (s.call c).2 = s.reset) ∨
    (∃ n z, c = .roots n z ∧ s.call c = s.failCapacity (s.rootExcess n)) ∨
    (c ≠ .begin ∧ (s.call c).2 = s) := by
  have hrun : s.running = false := by simp [ZHashSessionLifecycle.running, hs]
  cases c with
  | begin =>
    exact .inl ⟨rfl, by simp [ZHashSessionLifecycle.call, ZHashSessionLifecycle.begin, hrun]⟩
  | reset => exact .inr (.inl ⟨rfl, rfl⟩)
  | roots n z =>
    refine .inr (.inr (.inl ⟨n, z, rfl, ?_⟩))
    simp [ZHashSessionLifecycle.call, ZHashSessionLifecycle.roots, hrun]
  | generated n =>
    simp [ZHashSessionLifecycle.call, ZHashSessionLifecycle.generated, hrun]
  | flatOutput n =>
    simp [ZHashSessionLifecycle.call, ZHashSessionLifecycle.flatOutput, hrun]
  | scattered n =>
    simp [ZHashSessionLifecycle.call, ZHashSessionLifecycle.scattered, hrun]
  | finish solved =>
    simp [ZHashSessionLifecycle.call, ZHashSessionLifecycle.finish, hrun]
  | deviceError =>
    simp [ZHashSessionLifecycle.call, ZHashSessionLifecycle.deviceError, hrun]

theorem calls_of_running (hs : a.session.status = .running) (c : LifecycleCall) :
    (a.step c).calls = a.calls ++ [(c, (a.session.call c).1)] := by
  simp [step, ZHashSessionLifecycle.running, hs]

theorem step_eq_self (hs : a.session.status ≠ .running) (hc : c ≠ .begin)
    (heq : (a.session.call c).2 = a.session) : a.step c = a := by
  cases a
  simp_all [step, ZHashSessionLifecycle.running]

/-! ## One call -/

theorem Progress.step (h : a.Progress) (hs : a.session.status = .running)
    (hr : (a.step c).session.status = .running) : (a.step c).Progress := by
  have hcalls := calls_of_running hs c
  obtain ⟨hle, hgen, hscat, hfits, hroots, hover⟩ := h
  rcases call_of_running hs hr with heq | ⟨rfl, hstage, heq⟩ | ⟨n, rfl, hn, heq⟩ |
    ⟨rfl, hpos, hlt, heq⟩ | ⟨n, z, rfl, hstage, heq⟩
  · have hsession : (a.step c).session = a.session := congrArg Prod.snd heq
    rw [heq] at hcalls
    refine ⟨?_, ?_, ?_, ?_, ?_, ?_⟩ <;> rw [hsession] <;> try rw [hcalls]
    · exact hle
    · simpa [List.count_append] using hgen
    · simpa [List.count_append] using hscat
    · simpa using hfits
    · simpa using hroots
    · exact hover
  · have hsession : (a.step (.generated 0)).session = { a.session with stage := 1 } :=
      congrArg Prod.snd heq
    rw [heq] at hcalls
    refine ⟨?_, ?_, ?_, ?_, ?_, ?_⟩ <;> rw [hsession] <;> try rw [hcalls]
    · exact (by decide : 1 ≤ 6)
    · simp [List.count_append, hgen, hstage]
    · simp [List.count_append, hscat, hstage]
    · simpa using hfits
    · simpa [hstage] using hroots
    · exact hover
  · have hsession : (a.step (.flatOutput n)).session = { a.session with flatCount := n } :=
      congrArg Prod.snd heq
    rw [heq] at hcalls
    refine ⟨?_, ?_, ?_, ?_, ?_, ?_⟩ <;> rw [hsession] <;> try rw [hcalls]
    · exact hle
    · simpa [List.count_append] using hgen
    · simpa [List.count_append] using hscat
    · intro m hm
      rcases List.mem_append.mp hm with hm | hm
      · exact hfits m hm
      · cases List.mem_singleton.mp hm
        exact hn
    · simpa using hroots
    · exact hover
  · have hsession : (a.step (.scattered 0)).session =
        { a.session with stage := a.session.stage + 1 } := congrArg Prod.snd heq
    have hroots' : ¬ ∃ n z, (.roots n z, true) ∈ a.calls := mt hroots.mpr (by omega)
    rw [heq] at hcalls
    refine ⟨?_, ?_, ?_, ?_, ?_, ?_⟩ <;> rw [hsession] <;> try rw [hcalls]
    · exact Nat.le_succ_of_le hlt
    · simp [List.count_append, hgen]
      omega
    · simp [List.count_append, hscat]
      omega
    · simpa using hfits
    · refine iff_of_false (by simp; omega) ?_
      simpa using hroots'
    · exact hover
  · have hsession : (a.step (.roots n z)).session =
        { a.session with rootCount := n, zeroRootCount := z, stage := 6 } := congrArg Prod.snd heq
    rw [heq] at hcalls
    refine ⟨by simp [hsession], ?_, ?_, ?_, ?_, ?_⟩ <;> rw [hsession] <;> try rw [hcalls]
    · simp [List.count_append, hgen, hstage]
    · simp [List.count_append, hscat, hstage]
    · simpa using hfits
    · exact iff_of_true rfl ⟨n, z, by simp⟩
    · exact hover

theorem Progress.begin (hs : a.session.status ≠ .running) : (a.step .begin).Progress := by
  have hcalls : (a.step .begin).calls = [] := by
    simp [Attempt.step, ZHashSessionLifecycle.running, hs]
  have hsession : (a.step .begin).session = { a.session.reset with status := .running } := by
    simp [Attempt.step, ZHashSessionLifecycle.call, ZHashSessionLifecycle.begin,
      ZHashSessionLifecycle.running, hs]
  constructor <;> rw [hsession] <;>
    simp [hcalls, ZHashSessionLifecycle.reset, ZHashSessionLifecycle.init]

/-- **An attempt at its last stage lost nothing it was told of.** -/
theorem Progress.complete (h : a.Progress) (hs : a.session.status = .running) (solved : Bool)
    (hstage : a.session.stage = 6)
    (hfits : ∀ n, (.flatOutput n, false) ∈ a.calls → n.toNat ≤ a.session.capacity) :
    (a.step (.finish solved)).Complete := by
  have hcapacity : (a.step (.finish solved)).session.capacity = a.session.capacity := by
    simp [Attempt.step, ZHashSessionLifecycle.call, ZHashSessionLifecycle.finish,
      ZHashSessionLifecycle.running, hs]
  constructor
  · simp [calls_of_running hs, List.count_append, h.generated, hstage]
  · simp [calls_of_running hs, List.count_append, h.scattered, hstage]
  · intro n ok hmem
    rw [calls_of_running hs] at hmem
    rw [hcapacity]
    rcases List.mem_append.mp hmem with hmem | hmem
    · cases ok with
      | false => exact hfits n hmem
      | true => exact h.fits n hmem
    · cases List.mem_singleton.mp hmem
  · obtain ⟨n, z, hmem⟩ := h.roots.mp hstage
    exact ⟨n, z, by rw [calls_of_running hs]; exact List.mem_append_left _ hmem⟩

theorem reported_of_proper (h : a.Inv) (hc : a.Proper c) : a.Reported c := by
  by_cases hs : a.session.status = .running
  · have hprogress := h.progress hs
    constructor
    · intro hterminal
      rw [hs] at hterminal
      exact hterminal.elim
    · intro hended
      have hne : (a.step c).session.status ≠ .running := by
        rcases hended with hended | hended <;> rw [hended] <;> decide
      rcases ended_of_running hs hprogress.overflow hne with
        ⟨rfl, heq⟩ | ⟨rfl, heq⟩ | ⟨solved, rfl, -⟩ | ⟨heq, -⟩
      · rcases hended with hended | hended <;> cases hended
      · rcases hended with hended | hended <;> cases heq.symm.trans hended
      · exact hprogress.complete hs solved (hc hs).1 (hc hs).2
      · rcases hended with hended | hended <;> cases heq.symm.trans hended
    · intro hended
      have hne : (a.step c).session.status ≠ .running := by
        rw [hended]
        decide
      rcases ended_of_running hs hprogress.overflow hne with
        ⟨rfl, heq⟩ | ⟨rfl, heq⟩ | ⟨solved, rfl, heq⟩ | ⟨-, heq⟩
      · cases hended
      · cases heq.symm.trans hended
      · have hfinish := (congrArg ZHashSessionLifecycle.status heq).symm.trans hended
        cases solved <;>
          simp [ZHashSessionLifecycle.finish, ZHashSessionLifecycle.running, hs] at hfinish
      · exact heq
    · exact fun _ _ => hs
  · rcases call_of_not_running hs c with ⟨rfl, heq⟩ | ⟨rfl, heq⟩ | ⟨n, z, rfl, heq⟩ |
      ⟨hbegin, heq⟩
    · have hsession : (a.step .begin).session.status = .running := by
        rw [Attempt.step, heq]
      constructor
      · exact fun _ _ => .inl rfl
      · rintro (hended | hended) <;> cases hsession.symm.trans hended
      · exact fun hended => by cases hsession.symm.trans hended
      · intro _ hrefused
        rw [heq] at hrefused
        cases hrefused
    · constructor
      · exact fun _ _ => .inr rfl
      · rintro (hended | hended) <;> cases hended
      · exact fun hended => by cases hended
      · exact fun hbegin => by cases hbegin
    · have hsession : (a.step (.roots n z)).session =
          (a.session.failCapacity (a.session.rootExcess n)).2 := congrArg Prod.snd heq
      constructor
      · intro hterminal hchanged
        rw [hsession] at hchanged
        rcases hc with hidle | hrun | ⟨hover, -⟩
        · rw [hidle] at hterminal
          exact hterminal.elim
        · exact absurd hrun hs
        · exact absurd hover.symm hchanged
      · rw [hsession]
        rintro (hended | hended) <;> cases hended
      · rw [hsession]
        rintro -
        rcases hc with hidle | hrun | ⟨-, hsum⟩
        · simpa [ZHashSessionLifecycle.failCapacity, h.idle hidle] using
            a.session.rootExcess_ne_zero n
        · exact absurd hrun hs
        · exact hsum
      · exact fun hbegin => by cases hbegin
    · have hstep := step_eq_self hs hbegin heq
      constructor
      · rw [hstep]
        exact fun _ hchanged => absurd rfl hchanged
      · rw [hstep]
        exact h.complete
      · rw [hstep]
        exact h.truncated
      · exact fun hbegin' => absurd hbegin' hbegin

theorem proper_of_reported (h : a.Inv) (hc : a.Reported c) : a.Proper c := by
  cases c with
  | roots n z =>
    by_cases hs : a.session.status = .running
    · exact .inr (.inl hs)
    · have heq : a.session.call (.roots n z) = a.session.failCapacity (a.session.rootExcess n) := by
        simp [ZHashSessionLifecycle.call, ZHashSessionLifecycle.roots,
          ZHashSessionLifecycle.running, hs]
      have hsession : (a.step (.roots n z)).session =
          (a.session.failCapacity (a.session.rootExcess n)).2 := congrArg Prod.snd heq
      by_cases hidle : a.session.status = .idle
      · exact .inl hidle
      · have hterminal : a.session.status.Terminal := by
          cases hstatus : a.session.status <;> simp_all [SessionStatus.Terminal]
        have hover : a.session.status = .capacityOverflow := by
          by_contra hne
          have hchanged : (a.step (.roots n z)).session.status ≠ a.session.status := by
            rw [hsession]
            exact Ne.symm hne
          rcases hc.terminal hterminal hchanged with hcall | hcall <;> cases hcall
        have hsum := hc.truncated (by rw [hsession]; rfl)
        rw [hsession] at hsum
        exact .inr (.inr ⟨hover, hsum⟩)
  | finish solved =>
    intro hs
    have hended : (a.step (.finish solved)).session.status = .solved ∨
        (a.step (.finish solved)).session.status = .noSolution := by
      cases solved <;> simp [step, ZHashSessionLifecycle.call, ZHashSessionLifecycle.finish,
        ZHashSessionLifecycle.running, hs]
    have hcapacity : (a.step (.finish solved)).session.capacity = a.session.capacity := by
      simp [step, ZHashSessionLifecycle.call, ZHashSessionLifecycle.finish,
        ZHashSessionLifecycle.running, hs]
    have hcomplete := hc.complete hended
    constructor
    · obtain ⟨n, z, hmem⟩ := hcomplete.roots
      rw [calls_of_running hs] at hmem
      refine (h.progress hs).roots.mpr ⟨n, z, ?_⟩
      simpa using hmem
    · intro n hmem
      rw [← hcapacity]
      refine hcomplete.fits n false ?_
      rw [calls_of_running hs]
      exact List.mem_append_left _ hmem
  | reset | begin | generated | flatOutput | scattered | deviceError => trivial

theorem inv_init (capacity : ℕ) : (Attempt.init capacity).Inv where
  progress h := by cases h
  idle _ := rfl
  complete h := by rcases h with h | h <;> cases h
  truncated h := by cases h

theorem Inv.step (h : a.Inv) (hc : a.Reported c) : (a.step c).Inv where
  progress hr := by
    by_cases hs : a.session.status = .running
    · exact (h.progress hs).step hs hr
    · rcases call_of_not_running hs c with ⟨rfl, -⟩ | ⟨rfl, -⟩ | ⟨n, z, rfl, heq⟩ | ⟨-, heq⟩
      · exact .begin hs
      · cases hr
      · rw [Attempt.step, heq] at hr
        cases hr
      · rw [Attempt.step, heq] at hr
        exact absurd hr hs
  idle hidle := by
    by_cases hs : a.session.status = .running
    · have hne : (a.step c).session.status ≠ .running := by
        rw [hidle]
        decide
      rcases ended_of_running hs (h.progress hs).overflow hne with
        ⟨-, heq⟩ | ⟨-, heq⟩ | ⟨solved, -, heq⟩ | ⟨heq, -⟩
      · exact congrArg ZHashSessionLifecycle.overflowCount heq
      · cases heq.symm.trans hidle
      · have hfinish := (congrArg ZHashSessionLifecycle.status heq).symm.trans hidle
        cases solved <;>
          simp [ZHashSessionLifecycle.finish, ZHashSessionLifecycle.running, hs] at hfinish
      · cases heq.symm.trans hidle
    · rcases call_of_not_running hs c with ⟨rfl, heq⟩ | ⟨rfl, heq⟩ | ⟨n, z, rfl, heq⟩ |
        ⟨hbegin, heq⟩
      · rw [Attempt.step, heq] at hidle
        cases hidle
      · exact congrArg ZHashSessionLifecycle.overflowCount heq
      · rw [Attempt.step, heq] at hidle
        cases hidle
      · rw [step_eq_self hs hbegin heq] at hidle ⊢
        exact h.idle hidle
  complete := hc.complete
  truncated := hc.truncated

/-! ## All sequences of calls -/

/-- **Reported as it went.** Over any sequence of calls with any counts, every call is reported
well exactly if every call is proper. -/
theorem reported_iff (capacity : ℕ) (calls : List LifecycleCall) :
    Each step Reported (init capacity) calls ↔ Each step Proper (init capacity) calls :=
  Each.congr (inv_init capacity)
    (fun _ _ h => ⟨proper_of_reported h, reported_of_proper h⟩) fun _ _ h hc => h.step hc

/-- The four ways to go wrong: an attempt that finishes at once, one with an ignored count, root
counts after the end of an attempt, and root counts whose excess adds up to zero. -/
theorem not_reported :
    ¬ Each step Reported (init 4) [.begin, .finish true] ∧
    ¬ Each step Reported (init 4)
      [.begin, .flatOutput 5, .generated 0, .scattered 0, .scattered 0, .scattered 0, .scattered 0,
        .roots 0 0, .finish true] ∧
    ¬ Each step Reported (init 4)
      [.begin, .generated 0, .scattered 0, .scattered 0, .scattered 0, .scattered 0, .roots 0 0,
        .finish true, .roots 0 0] ∧
    ¬ Each step Reported (init 0) [.roots 4294967295 0, .roots 0 0] := by
  refine ⟨?_, ?_, ?_, ?_⟩
  · rintro ⟨-, hfinish, -⟩
    exact absurd (hfinish.complete (.inl rfl)).generated (by decide)
  · rintro ⟨-, -, -, -, -, -, -, -, hfinish, -⟩
    exact absurd ((hfinish.complete (.inl rfl)).fits 5 false (by decide)) (by decide)
  · rintro ⟨-, -, -, -, -, -, -, -, hroots, -⟩
    rcases hroots.terminal trivial (by decide) with hcall | hcall <;> cases hcall
  · rintro ⟨-, hroots, -⟩
    exact hroots.truncated rfl (by decide)

end Attempt

end MoMiner.Equihash
