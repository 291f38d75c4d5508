import Mathlib.Tactic.Common

/-!
# Runs

A run is a finite sequence of steps of a transition relation, recorded with its events. An
invariant is proved for one step and then holds after every run (`Run.invariant`).
-/

namespace MoMiner

variable {σ ε : Type}

/-- The states that a sequence of events can lead to. -/
inductive Run (step : σ → ε → σ → Prop) (s : σ) : List ε → σ → Prop
  | start : Run step s [] s
  | next {es : List ε} {t u : σ} {e : ε} : Run step s es t → step t e u → Run step s (es ++ [e]) u

namespace Run

variable {step step' : σ → ε → σ → Prop} {s t u : σ} {e : ε} {es : List ε}

/-- What holds at the start and is kept by every step holds after every run. -/
theorem invariant {I : σ → Prop} (h : Run step s es t) (start : I s)
    (next : ∀ t e u, I t → step t e u → I u) : I t := by
  induction h with
  | start => exact start
  | next _ hstep ih => exact next _ _ _ ih hstep

/-- The same for what holds of the events and the state together. -/
theorem history {I : List ε → σ → Prop} (h : Run step s es t) (start : I [] s)
    (next : ∀ es t e u, I es t → step t e u → I (es ++ [e]) u) : I es t := by
  induction h with
  | start => exact start
  | next _ hstep ih => exact next _ _ _ _ ih hstep

theorem mono (h : Run step s es t) (sub : ∀ t e u, step t e u → step' t e u) :
    Run step' s es t := by
  induction h with
  | start => exact .start
  | next _ hstep ih => exact .next ih (sub _ _ _ hstep)

theorem cons (hstep : step s e t) (h : Run step t es u) : Run step s (e :: es) u := by
  induction h with
  | start => exact .next .start hstep
  | next _ hnext ih => exact .next ih hnext

/-- The run that a step function computes. -/
theorem of_foldlM {f : σ → ε → Option σ} (h : es.foldlM f s = some t) :
    Run (fun s e t => f s e = some t) s es t := by
  induction es generalizing s with
  | nil =>
    cases h
    exact .start
  | cons e es ih =>
    simp only [List.foldlM_cons, Option.bind_eq_bind, Option.bind_eq_some_iff] at h
    obtain ⟨u, hu, h⟩ := h
    exact .cons hu (ih h)

/-- The run up to the state that a step function computes, when it gets there. -/
theorem of_isSome {f : σ → ε → Option σ} (h : (es.foldlM f s).isSome) (d : σ) :
    Run (fun s e t => f s e = some t) s es ((es.foldlM f s).getD d) := by
  obtain ⟨t, ht⟩ := Option.isSome_iff_exists.mp h
  rw [ht]
  exact of_foldlM ht

/-- The last step of a computed run. -/
theorem step_of_isSome {f : σ → ε → Option σ} (h : ((es ++ [e]).foldlM f s).isSome) (d : σ) :
    f ((es.foldlM f s).getD d) e = some (((es ++ [e]).foldlM f s).getD d) := by
  rw [List.foldlM_append] at h ⊢
  cases hs : es.foldlM f s with
  | none => simp [hs] at h
  | some t =>
    simp only [hs, Option.bind_eq_bind, Option.bind_some, List.foldlM_cons, List.foldlM_nil,
      Option.pure_def, Option.bind_fun_some, Option.getD_some] at h ⊢
    obtain ⟨u, hu⟩ := Option.isSome_iff_exists.mp h
    rw [hu, Option.getD_some]

end Run

/-- Every step that a step function takes over a sequence of events has a property. -/
def Each (f : σ → ε → σ) (P : σ → ε → Prop) : σ → List ε → Prop
  | _, [] => True
  | s, e :: es => P s e ∧ Each f P (f s e) es

/-- Two properties of steps that agree under an invariant hold over the same sequences. -/
theorem Each.congr {f : σ → ε → σ} {P Q : σ → ε → Prop} {I : σ → Prop} {s : σ} {es : List ε}
    (start : I s) (step : ∀ s e, I s → (P s e ↔ Q s e)) (next : ∀ s e, I s → P s e → I (f s e)) :
    Each f P s es ↔ Each f Q s es := by
  induction es generalizing s with
  | nil => exact Iff.rfl
  | cons e es ih =>
    rw [Each, Each, ← step s e start]
    exact and_congr_right fun h => ih (next s e start h)

end MoMiner
