import Mathlib.Data.List.Forall2

/-!
# Checks that may fail

Validation is a sequence of checks in `Except`: each either stops with its message or lets the
rest run. A result is turned into the facts its checks established with `Except.bind_eq_ok` and
`throwIf_eq_ok`.
-/

namespace MoMiner

def throwIf {ε : Type} (bad : Prop) [Decidable bad] (message : ε) : Except ε Unit :=
  if bad then .error message else .ok ()

@[simp] theorem throwIf_eq_ok {ε : Type} {bad : Prop} [Decidable bad] {message : ε} {u : Unit} :
    throwIf bad message = .ok u ↔ ¬bad := by
  unfold throwIf
  split_ifs with h <;> simp [h]

@[simp] theorem Except.bind_eq_ok {ε α β : Type} {x : Except ε α} {f : α → Except ε β} {b : β} :
    (x >>= f) = .ok b ↔ ∃ a, x = .ok a ∧ f a = .ok b := by
  cases x with
  | error e => simp [bind, Except.bind]
  | ok a => simp [bind, Except.bind]

theorem Except.toOption_eq_some {ε α : Type} {x : Except ε α} {a : α} :
    x.toOption = some a ↔ x = .ok a := by
  cases x <;> simp [Except.toOption]

/-- A loop of checks passes when each of them does. -/
theorem forM_eq_ok {ε α : Type} {f : α → Except ε Unit} {l : List α} {u : Unit} :
    forM l f = .ok u ↔ ∀ a ∈ l, f a = .ok () := by
  induction l with
  | nil => simp [pure, Except.pure]
  | cons a l ih =>
    rw [List.forM_cons, Except.bind_eq_ok, List.forall_mem_cons]
    exact ⟨fun ⟨_, ha, hl⟩ => ⟨ha, ih.mp hl⟩, fun ⟨ha, hl⟩ => ⟨(), ha, ih.mpr hl⟩⟩

/-- A check that each element of a list passes is passed by the list. -/
theorem mapM_map_eq_ok {ε α β γ : Type} {f : β → Except ε γ} {g : α → β} {h : α → γ} {l : List α}
    (hl : ∀ a ∈ l, f (g a) = .ok (h a)) : (l.map g).mapM f = .ok (l.map h) := by
  induction l with
  | nil => rfl
  | cons a l ih =>
    obtain ⟨ha, hl⟩ := List.forall_mem_cons.mp hl
    rw [List.map_cons, List.mapM_cons, ha, ih hl]
    rfl

theorem exists_mapM_eq_ok {ε α β : Type} {f : α → Except ε β} {l : List α}
    (hl : ∀ a ∈ l, ∃ b, f a = .ok b) : ∃ l', l.mapM f = .ok l' := by
  induction l with
  | nil => exact ⟨[], rfl⟩
  | cons a l ih =>
    obtain ⟨⟨b, hb⟩, hl⟩ := List.forall_mem_cons.mp hl
    obtain ⟨l', hl'⟩ := ih hl
    rw [List.mapM_cons, hb, hl']
    exact ⟨b :: l', rfl⟩

/-- A list that passes a check passes it element by element. -/
theorem forall₂_of_mapM_eq_ok {ε α β : Type} {f : α → Except ε β} {l : List α} {l' : List β}
    (h : l.mapM f = .ok l') : List.Forall₂ (fun a b => f a = .ok b) l l' := by
  induction l generalizing l' with
  | nil =>
    cases h
    exact .nil
  | cons a l ih =>
    simp only [List.mapM_cons, Except.bind_eq_ok] at h
    obtain ⟨b, hb, bs, hbs, h⟩ := h
    cases h
    exact .cons hb (ih hbs)

/-- Every element of the right list has its partner on the left. -/
theorem exists_of_mem_forall₂ {α β : Type} {R : α → β → Prop} {l : List α} {l' : List β}
    (h : List.Forall₂ R l l') {b : β} (hb : b ∈ l') : ∃ a ∈ l, R a b := by
  induction h with
  | nil => cases hb
  | cons hab _ ih =>
    rcases List.mem_cons.mp hb with rfl | hb
    · exact ⟨_, List.mem_cons_self, hab⟩
    · obtain ⟨a, ha, hR⟩ := ih hb
      exact ⟨a, List.mem_cons_of_mem _ ha, hR⟩

/-- What every step of a loop keeps holds after the loop. -/
theorem foldlM_invariant {ε σ α : Type} {f : σ → α → Except ε σ} {P : σ → Prop} {l : List α}
    {s s' : σ} (h : l.foldlM f s = .ok s') (hs : P s)
    (hstep : ∀ s, ∀ a ∈ l, ∀ s', P s → f s a = .ok s' → P s') : P s' := by
  induction l generalizing s with
  | nil =>
    cases h
    exact hs
  | cons a l ih =>
    simp only [List.foldlM_cons, Except.bind_eq_ok] at h
    obtain ⟨s₁, hfirst, hrest⟩ := h
    exact ih hrest (hstep s a List.mem_cons_self s₁ hs hfirst)
      fun s b hb => hstep s b (List.mem_cons_of_mem _ hb)

/-- A loop succeeds where a stricter one does. -/
theorem foldlM_mono {ε σ α : Type} {f g : σ → α → Except ε σ} {l : List α} {s s' : σ}
    (h : l.foldlM f s = .ok s') (hstep : ∀ s, ∀ a ∈ l, ∀ s', f s a = .ok s' → g s a = .ok s') :
    l.foldlM g s = .ok s' := by
  induction l generalizing s with
  | nil => exact h
  | cons a l ih =>
    simp only [List.foldlM_cons, Except.bind_eq_ok] at h ⊢
    obtain ⟨s₁, hfirst, hrest⟩ := h
    exact ⟨s₁, hstep s a List.mem_cons_self s₁ hfirst,
      ih hrest fun s b hb => hstep s b (List.mem_cons_of_mem _ hb)⟩

/-- A loop over numbers whose step decides `Q` and keeps an invariant decides `Q` for all of them. -/
theorem foldlM_range_decides {σ : Type} {f : σ → ℕ → Option σ} {P : ℕ → σ → Prop} {Q : ℕ → Prop}
    {n : ℕ} {s : σ} (hs : P 0 s)
    (hstep : ∀ m < n, ∀ s, P m s →
      (f s m = none ∧ ¬ Q m) ∨ ∃ s', f s m = some s' ∧ Q m ∧ P (m + 1) s') :
    ((List.range n).foldlM f s = none ∧ ¬ ∀ m < n, Q m) ∨
      ∃ s', (List.range n).foldlM f s = some s' ∧ (∀ m < n, Q m) ∧ P n s' := by
  induction n with
  | zero => exact .inr ⟨s, rfl, fun m hm => absurd hm (Nat.not_lt_zero m), hs⟩
  | succ n ih =>
    rw [List.range_succ, List.foldlM_append]
    rcases ih fun m hm => hstep m (Nat.lt_succ_of_lt hm) with ⟨hnone, hnot⟩ | ⟨s₁, hsome, hall, hs₁⟩
    · refine .inl ⟨by rw [hnone]; rfl, fun h => hnot fun m hm => h m (Nat.lt_succ_of_lt hm)⟩
    · rw [hsome]
      rcases hstep n (Nat.lt_succ_self n) s₁ hs₁ with ⟨hnone, hnot⟩ | ⟨s₂, hsome, hQ, hs₂⟩
      · exact .inl ⟨by simp [hnone], fun h => hnot (h n (Nat.lt_succ_self n))⟩
      · refine .inr ⟨s₂, by simp [hsome], fun m hm => ?_, hs₂⟩
        rcases Nat.lt_succ_iff_lt_or_eq.mp hm with hm | rfl
        · exact hall m hm
        · exact hQ

end MoMiner
