import Mathlib.Data.List.Nodup
import Mathlib.Logic.Function.Basic

/-!
# Independent stores

Stores between two barriers that write different cells. In whatever order they are made, a cell
that is written holds what was stored there (`writes_key`), and the other cells are as before. A
phase is the stores between two barriers, in some order; a run goes through several phases.

Main results: `writes_key`, `Phase.get` and `Phases.get`.
-/

namespace MoMiner.Stores

variable {ι κ β : Type*} [DecidableEq κ]

/-- The memory after the stores of `key i` for each `i` of a list, in its order. -/
def writes (key : ι → κ) (val : ι → β) (mem : κ → β) (order : List ι) : κ → β :=
  order.foldl (fun m i => Function.update m (key i) (val i)) mem

variable {key : ι → κ} {val : ι → β} {mem : κ → β} {order : List ι}

theorem writes_append (l l' : List ι) :
    writes key val mem (l ++ l') = writes key val (writes key val mem l) l' :=
  List.foldl_append ..

theorem writes_of_notMem {k : κ} (h : ∀ i ∈ order, key i ≠ k) :
    writes key val mem order k = mem k := by
  induction order generalizing mem with
  | nil => rfl
  | cons i order ih =>
    rw [writes, List.foldl_cons]
    exact (ih fun j hj => h j (List.mem_cons_of_mem _ hj)).trans
      (Function.update_of_ne (h i List.mem_cons_self).symm _ _)

/-- **What a cell holds after stores to different cells.** -/
theorem writes_key (key : ι → κ) (val : ι → β) (mem : κ → β) {order : List ι} {i : ι}
    (hi : i ∈ order) (hkey : ∀ j ∈ order, key j = key i → j = i) :
    writes key val mem order (key i) = val i := by
  induction order generalizing mem with
  | nil => cases hi
  | cons j order ih =>
    have hkey' : ∀ l ∈ order, key l = key i → l = i := fun l hl => hkey l (List.mem_cons_of_mem _ hl)
    by_cases hmem : i ∈ order
    · exact ih _ hmem hkey'
    · obtain rfl : i = j := by
        rcases List.mem_cons.mp hi with h | h
        · exact h
        · exact absurd h hmem
      rw [writes, List.foldl_cons]
      refine (writes_of_notMem fun l hl h => hmem ?_).trans (Function.update_self ..)
      rwa [← hkey' l hl h]

/-! ## Phases -/

section Phases

variable {stores : List (κ × β)} {mem mem' : κ → β}

/-- The stores of a phase, made in some order. -/
def Phase (stores : List (κ × β)) (mem mem' : κ → β) : Prop :=
  ∃ order, order.Perm stores ∧ mem' = writes Prod.fst Prod.snd mem order

theorem Phase.exists (stores : List (κ × β)) (mem : κ → β) : ∃ mem', Phase stores mem mem' :=
  ⟨_, stores, List.Perm.refl _, rfl⟩

/-- A cell that one value is stored to. -/
theorem Phase.get (h : Phase stores mem mem') {k : κ} {v : β} (hmem : (k, v) ∈ stores)
    (honly : ∀ v', (k, v') ∈ stores → v' = v) : mem' k = v := by
  obtain ⟨order, hperm, rfl⟩ := h
  refine writes_key Prod.fst Prod.snd mem (i := (k, v)) (hperm.mem_iff.mpr hmem)
    fun p hp hkey => ?_
  obtain ⟨k', v'⟩ := p
  obtain rfl : k' = k := hkey
  rw [honly v' (hperm.mem_iff.mp hp)]

/-- A cell in a phase whose stores agree with a function. -/
theorem Phase.get_of_forall (h : Phase stores mem mem') {f : κ → β}
    (hf : ∀ p ∈ stores, p.2 = f p.1) {k : κ} {v : β} (hk : (k, v) ∈ stores) : mem' k = f k :=
  (h.get hk fun _ hv => (hf _ hv).trans (hf _ hk).symm).trans (hf _ hk)

theorem Phase.get_of_notMem (h : Phase stores mem mem') {k : κ} (hk : ∀ v, (k, v) ∉ stores) :
    mem' k = mem k := by
  obtain ⟨order, hperm, rfl⟩ := h
  refine writes_of_notMem fun p hp hkey => hk p.2 (hperm.mem_iff.mp ?_)
  rwa [← hkey]

/-- Phases one after the other. -/
inductive Phases : List (List (κ × β)) → (κ → β) → (κ → β) → Prop
  | nil (mem : κ → β) : Phases [] mem mem
  | cons {stores : List (κ × β)} {phases : List (List (κ × β))} {m m' last : κ → β} :
      Phase stores m m' → Phases phases m' last → Phases (stores :: phases) m last

theorem Phases.exists (phases : List (List (κ × β))) (mem : κ → β) :
    ∃ mem', Phases phases mem mem' := by
  induction phases generalizing mem with
  | nil => exact ⟨mem, .nil mem⟩
  | cons stores phases ih =>
    obtain ⟨mem', h⟩ := Phase.exists stores mem
    obtain ⟨mem'', h'⟩ := ih mem'
    exact ⟨mem'', .cons h h'⟩

/-- **Stores that agree with a function.** A cell that some phase stores to holds its value. -/
theorem Phases.get {phases : List (List (κ × β))} (h : Phases phases mem mem') {f : κ → β}
    (hf : ∀ stores ∈ phases, ∀ p ∈ stores, p.2 = f p.1) {k : κ}
    (hk : mem k = f k ∨ ∃ stores ∈ phases, ∃ v, (k, v) ∈ stores) : mem' k = f k := by
  induction h with
  | nil => simpa using hk
  | @cons stores phases mem mem' mem'' hphase _ ih =>
    refine ih (fun s hs => hf s (List.mem_cons_of_mem _ hs)) ?_
    by_cases hstore : ∃ v, (k, v) ∈ stores
    · obtain ⟨v, hv⟩ := hstore
      exact .inl (hphase.get_of_forall (hf stores List.mem_cons_self) hv)
    · rcases hk with hk | ⟨s, hs, v, hv⟩
      · exact .inl ((hphase.get_of_notMem fun v hv => hstore ⟨v, hv⟩).trans hk)
      · rcases List.mem_cons.mp hs with rfl | hs
        · exact absurd ⟨v, hv⟩ hstore
        · exact .inr ⟨s, hs, v, hv⟩

end Phases

end MoMiner.Stores
