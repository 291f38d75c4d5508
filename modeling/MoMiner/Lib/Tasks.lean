import Mathlib.Algebra.BigOperators.Group.Multiset.Basic
import Mathlib.Algebra.Order.BigOperators.Group.Multiset
import Mathlib.Logic.Relation

/-!
# Concurrent tasks

Tasks share a state. At every step one pending task, whichever the schedule picks, makes one atomic
access to the state and may leave further tasks of its own. A phase between two barriers completes
when no task is pending.

An invariant of the pending tasks and the state is proved for one step of one task, and then holds
at the end of every schedule (`Completes.invariant`). Tasks whose weight goes down complete under
some schedule (`exists_completes`), and under every schedule by taking further steps.
-/

namespace MoMiner

variable {τ σ : Type*} {step : τ → σ → Multiset τ × σ} {tasks : Multiset τ} {s s' : σ}

/-- One step of one of the pending tasks. -/
inductive TaskStep (step : τ → σ → Multiset τ × σ) : Multiset τ × σ → Multiset τ × σ → Prop
  | step (t : τ) (rest : Multiset τ) (s : σ) :
    TaskStep step (t ::ₘ rest, s) ((step t s).1 + rest, (step t s).2)

/-- Some schedule runs all tasks to their end. -/
def Completes (step : τ → σ → Multiset τ × σ) (tasks : Multiset τ) (s s' : σ) : Prop :=
  Relation.ReflTransGen (TaskStep step) (tasks, s) (0, s')

/-- What holds at the start and is kept by every step of a task holds at the end. -/
theorem Completes.invariant {I : Multiset τ → σ → Prop} (h : Completes step tasks s s')
    (start : I tasks s)
    (next : ∀ t rest s, I (t ::ₘ rest) s → I ((step t s).1 + rest) (step t s).2) : I 0 s' := by
  have hrun : ∀ p, Relation.ReflTransGen (TaskStep step) (tasks, s) p → I p.1 p.2 := by
    intro p hp
    induction hp with
    | refl => exact start
    | tail _ hstep ih =>
      cases hstep with
      | step t rest s => exact next t rest s ih
  exact hrun _ h

/-- Tasks whose weight goes down at every step, as long as an invariant holds, can be run to their
end. -/
theorem exists_completes_of_invariant {I : Multiset τ → σ → Prop} (weight : τ → ℕ)
    (next : ∀ t rest s, I (t ::ₘ rest) s → I ((step t s).1 + rest) (step t s).2)
    (h : ∀ t rest s, I (t ::ₘ rest) s → ((step t s).1.map weight).sum < weight t)
    (tasks : Multiset τ) (s : σ) (start : I tasks s) : ∃ s', Completes step tasks s s' := by
  induction hweight : (tasks.map weight).sum using Nat.strong_induction_on generalizing tasks s with
  | _ n ih =>
    rcases Multiset.empty_or_exists_mem tasks with rfl | ⟨t, ht⟩
    · exact ⟨s, .refl⟩
    · obtain ⟨rest, rfl⟩ := Multiset.exists_cons_of_mem ht
      rw [Multiset.map_cons, Multiset.sum_cons] at hweight
      have hless : (((step t s).1 + rest).map weight).sum < n := by
        rw [Multiset.map_add, Multiset.sum_add, ← hweight]
        exact Nat.add_lt_add_right (h t rest s start) _
      obtain ⟨s', hs'⟩ := ih _ hless ((step t s).1 + rest) (step t s).2 (next t rest s start) rfl
      exact ⟨s', .head (.step t rest s) hs'⟩

/-- Tasks whose weight goes down at every step can be run to their end. -/
theorem exists_completes (weight : τ → ℕ)
    (h : ∀ t s, ((step t s).1.map weight).sum < weight t) (tasks : Multiset τ) (s : σ) :
    ∃ s', Completes step tasks s s' :=
  exists_completes_of_invariant (I := fun _ _ => True) weight (fun _ _ _ _ => trivial)
    (fun t _ s _ => h t s) tasks s trivial

end MoMiner
