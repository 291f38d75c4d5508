import MoMiner.Lib.Chains

/-!
# A list of the pairs of chains

After the chains are built, a task for every position follows its links. For every position it
meets it takes the next place of a list from a counter, and writes the pair there if the place is
within the list. Links, counter and list lie in one memory, described by what its accesses do
(`PairMemory`): what matters is that writing pairs and counting leave the links alone.

Whatever the schedule, the list ends up with every pair once (`walk_completes`).
-/

namespace MoMiner.PairList

open Chains

/-- How a memory of chains also holds a counter and the cells of a list. -/
structure PairMemory (σ γ : Type*) extends Memory σ where
  capacity : ℕ
  limit : ℕ
  counter : σ → ℕ
  setCounter : σ → ℕ → σ
  cell : σ → ℕ → γ
  setCell : σ → ℕ → γ → σ
  counter_setCounter : ∀ m n, n ≤ limit → counter (setCounter m n) = n
  next_setCounter : ∀ m n i, i < positions → next (setCounter m n) i = next m i
  cell_setCounter : ∀ m n p, p < capacity → cell (setCounter m n) p = cell m p
  counter_setCell : ∀ m p v, p < capacity → counter (setCell m p v) = counter m
  next_setCell : ∀ m p v i, p < capacity → i < positions → next (setCell m p v) i = next m i
  cell_setCell : ∀ m p v p', p < capacity → p' < capacity →
    cell (setCell m p v) p' = if p' = p then v else cell m p'

/-- A task of the position `i`: load the link after `j`, follow a link, or write a pair. -/
inductive Walk
  | load (i j : ℕ)
  | follow (i link : ℕ)
  | write (i j place : ℕ)
deriving DecidableEq

section Step

variable {σ γ : Type*} (c : PairMemory σ γ) (code : ℕ → ℕ → γ)

/-- One access to the memory. -/
def walkStep : Walk → σ → Multiset Walk × σ
  | .load i j, m => ({.follow i (c.next m j)}, m)
  | .follow _ 0, m => (0, m)
  | .follow i (j + 1), m => ({.write i j (c.counter m)}, c.setCounter m (c.counter m + 1))
  | .write i j place, m =>
    ({.load i j}, if place < c.capacity then c.setCell m place (code i j) else m)

end Step

/-! ## The invariant -/

/-- The pairs that a task has not counted yet, for the positions that every position leads to. -/
def todo (links : ℕ → List ℕ) : Walk → Multiset (ℕ × ℕ)
  | .load i j => (links j).map fun k => (i, k)
  | .follow _ 0 => 0
  | .follow i (j + 1) => (i, j) ::ₘ (links j).map fun k => (i, k)
  | .write i j _ => (links j).map fun k => (i, k)

/-- The positions below `n` lead to each other. -/
def Leads (links : ℕ → List ℕ) (n : ℕ) : Prop :=
  ∀ j < n, ∀ k l, links j = k :: l → k < n ∧ links k = l

section Inv

variable {σ γ : Type*} {c : PairMemory σ γ} {code : ℕ → ℕ → γ} {links : ℕ → List ℕ} {n : ℕ}
  {total : Multiset (ℕ × ℕ)} {log : List (ℕ × ℕ)} {tasks rest : Multiset Walk} {m m' : σ}
  {i j place link : ℕ}

/-- The log holds the pairs that were counted. Each has its write pending, or is in its cell. -/
structure WalkInv (c : PairMemory σ γ) (code : ℕ → ℕ → γ) (links : ℕ → List ℕ) (n : ℕ)
    (total : Multiset (ℕ × ℕ)) (log : List (ℕ × ℕ)) (tasks : Multiset Walk) (m : σ) : Prop where
  counter : c.counter m = log.length
  conserved : (log : Multiset (ℕ × ℕ)) + tasks.bind (todo links) = total
  next : ∀ j < n, c.next m j = linkTo (links j)
  loading : ∀ i j, .load i j ∈ tasks → j < n
  following : ∀ i j, .follow i (j + 1) ∈ tasks → j < n
  writing : ∀ i j place, .write i j place ∈ tasks → j < n ∧ log[place]? = some (i, j)
  stored : ∀ place p, place < c.capacity → log[place]? = some p →
    .write p.1 p.2 place ∈ tasks ∨ c.cell m place = code p.1 p.2

/-- Loading a link leaves the same pairs to do. -/
theorem todo_follow (hleads : Leads links n) (hj : j < n) :
    todo links (.follow i (linkTo (links j))) = todo links (.load i j) := by
  cases hlinks : links j with
  | nil => simp [todo, linkTo, hlinks]
  | cons k l =>
    have hl := (hleads j hj k l hlinks).2
    simp [todo, linkTo, hlinks, hl]

theorem WalkInv.load_step (h : WalkInv c code links n total log (.load i j ::ₘ rest) m)
    (hleads : Leads links n) :
    WalkInv c code links n total log ((walkStep c code (.load i j) m).1 + rest)
      (walkStep c code (.load i j) m).2 := by
  have hj := h.loading i j (Multiset.mem_cons_self _ _)
  have hconserved := h.conserved
  rw [Multiset.cons_bind, ← todo_follow hleads hj] at hconserved
  simp only [walkStep, h.next j hj, Multiset.singleton_add]
  refine ⟨h.counter, ?_, h.next, ?_, ?_, ?_, ?_⟩
  · rw [Multiset.cons_bind]
    exact hconserved
  · intro i' j' hmem
    exact h.loading i' j' (Multiset.mem_cons_of_mem ((Multiset.mem_cons.mp hmem).resolve_left
      (by simp)))
  · intro i' j' hmem
    rcases Multiset.mem_cons.mp hmem with heq | hmem
    · cases hlinks : links j with
      | nil => simp [hlinks, linkTo] at heq
      | cons k l =>
        simp only [hlinks, linkTo, Walk.follow.injEq, Nat.add_right_cancel_iff] at heq
        rw [heq.2]
        exact (hleads j hj k l hlinks).1
    · exact h.following i' j' (Multiset.mem_cons_of_mem hmem)
  · intro i' j' place hmem
    exact h.writing i' j' place (Multiset.mem_cons_of_mem ((Multiset.mem_cons.mp hmem).resolve_left
      (by simp)))
  · intro place p hplace hlog
    refine (h.stored place p hplace hlog).imp_left fun hmem => ?_
    exact Multiset.mem_cons_of_mem ((Multiset.mem_cons.mp hmem).resolve_left (by simp))

theorem WalkInv.stop_step (h : WalkInv c code links n total log (.follow i 0 ::ₘ rest) m) :
    WalkInv c code links n total log ((walkStep c code (.follow i 0) m).1 + rest)
      (walkStep c code (.follow i 0) m).2 := by
  have hconserved := h.conserved
  rw [Multiset.cons_bind, todo, zero_add] at hconserved
  simp only [walkStep, zero_add]
  refine ⟨h.counter, hconserved, h.next, ?_, ?_, ?_, ?_⟩
  · exact fun i' j' hmem => h.loading i' j' (Multiset.mem_cons_of_mem hmem)
  · exact fun i' j' hmem => h.following i' j' (Multiset.mem_cons_of_mem hmem)
  · exact fun i' j' place hmem => h.writing i' j' place (Multiset.mem_cons_of_mem hmem)
  · intro place p hplace hlog
    exact (h.stored place p hplace hlog).imp_left fun hmem =>
      (Multiset.mem_cons.mp hmem).resolve_left (by simp)

theorem WalkInv.follow_step (h : WalkInv c code links n total log (.follow i (j + 1) ::ₘ rest) m)
    (hn : n ≤ c.positions) (htotal : total.card ≤ c.limit) :
    WalkInv c code links n total (log ++ [(i, j)])
      ((walkStep c code (.follow i (j + 1)) m).1 + rest)
      (walkStep c code (.follow i (j + 1)) m).2 := by
  have hj := h.following i j (Multiset.mem_cons_self _ _)
  have hconserved := h.conserved
  rw [Multiset.cons_bind, todo] at hconserved
  have hlimit : log.length + 1 ≤ c.limit := by
    refine le_trans ?_ htotal
    rw [← hconserved]
    simp only [Multiset.card_add, Multiset.coe_card, Multiset.card_cons]
    omega
  have hkeep : ∀ (place : ℕ) p, log[place]? = some p → (log ++ [(i, j)])[place]? = some p := by
    intro place p hlog
    rw [List.getElem?_append_left (List.getElem?_eq_some_iff.mp hlog).1, hlog]
  simp only [walkStep, h.counter, Multiset.singleton_add]
  refine ⟨?_, ?_, ?_, ?_, ?_, ?_, ?_⟩
  · rw [c.counter_setCounter m _ hlimit]
    simp
  · rw [Multiset.cons_bind, todo, ← hconserved, ← Multiset.coe_add, Multiset.coe_singleton,
      add_assoc, Multiset.singleton_add, Multiset.cons_add]
  · exact fun k hk => (c.next_setCounter m _ k (hk.trans_le hn)).trans (h.next k hk)
  · intro i' j' hmem
    exact h.loading i' j' (Multiset.mem_cons_of_mem ((Multiset.mem_cons.mp hmem).resolve_left
      (by simp)))
  · intro i' j' hmem
    exact h.following i' j' (Multiset.mem_cons_of_mem ((Multiset.mem_cons.mp hmem).resolve_left
      (by simp)))
  · intro i' j' place hmem
    rcases Multiset.mem_cons.mp hmem with heq | hmem
    · cases heq
      exact ⟨hj, List.getElem?_concat_length⟩
    · obtain ⟨hlt, hlog⟩ := h.writing i' j' place (Multiset.mem_cons_of_mem hmem)
      exact ⟨hlt, hkeep place _ hlog⟩
  · intro place p hplace hlog
    rw [c.cell_setCounter m _ place hplace]
    rcases Nat.lt_trichotomy place log.length with hlt | rfl | hlt
    · rw [List.getElem?_append_left hlt] at hlog
      exact (h.stored place p hplace hlog).imp_left fun hmem =>
        Multiset.mem_cons_of_mem ((Multiset.mem_cons.mp hmem).resolve_left (by simp))
    · rw [List.getElem?_concat_length] at hlog
      obtain rfl := Option.some.inj hlog
      exact .inl (Multiset.mem_cons_self _ _)
    · rw [List.getElem?_eq_none (by simp; omega)] at hlog
      cases hlog

theorem WalkInv.write_step (h : WalkInv c code links n total log (.write i j place ::ₘ rest) m)
    (hn : n ≤ c.positions) :
    WalkInv c code links n total log ((walkStep c code (.write i j place) m).1 + rest)
      (walkStep c code (.write i j place) m).2 := by
  obtain ⟨hj, hget⟩ := h.writing i j place (Multiset.mem_cons_self _ _)
  have hconserved := h.conserved
  simp only [walkStep, Multiset.singleton_add]
  have hnext : ∀ k < n, c.next (if place < c.capacity then c.setCell m place (code i j) else m) k =
      linkTo (links k) := by
    intro k hk
    split_ifs with hplace
    · exact (c.next_setCell m place _ k hplace (hk.trans_le hn)).trans (h.next k hk)
    · exact h.next k hk
  refine ⟨?_, ?_, hnext, ?_, ?_, ?_, ?_⟩
  · split_ifs with hplace
    · exact (c.counter_setCell m place _ hplace).trans h.counter
    · exact h.counter
  · rw [Multiset.cons_bind] at hconserved ⊢
    exact hconserved
  · intro i' j' hmem
    rcases Multiset.mem_cons.mp hmem with heq | hmem
    · cases heq
      exact hj
    · exact h.loading i' j' (Multiset.mem_cons_of_mem hmem)
  · intro i' j' hmem
    exact h.following i' j' (Multiset.mem_cons_of_mem ((Multiset.mem_cons.mp hmem).resolve_left
      (by simp)))
  · intro i' j' place' hmem
    exact h.writing i' j' place' (Multiset.mem_cons_of_mem ((Multiset.mem_cons.mp hmem).resolve_left
      (by simp)))
  · intro place' p hplace' hlog
    by_cases heq : place' = place
    · subst heq
      obtain rfl := Option.some.inj (hget.symm.trans hlog)
      right
      rw [if_pos hplace', c.cell_setCell m place' _ place' hplace' hplace', if_pos rfl]
    · refine (h.stored place' p hplace' hlog).imp (fun hmem => ?_) fun hcell => ?_
      · refine Multiset.mem_cons_of_mem ((Multiset.mem_cons.mp hmem).resolve_left ?_)
        rintro hwrite
        cases hwrite
        exact heq rfl
      · split_ifs with hplace
        · rw [c.cell_setCell m place _ place' hplace hplace', if_neg heq]
          exact hcell
        · exact hcell

theorem WalkInv.step {t : Walk} (h : WalkInv c code links n total log (t ::ₘ rest) m)
    (hleads : Leads links n) (hn : n ≤ c.positions) (htotal : total.card ≤ c.limit) :
    ∃ log', WalkInv c code links n total log' ((walkStep c code t m).1 + rest)
      (walkStep c code t m).2 := by
  cases t with
  | load i j => exact ⟨log, h.load_step hleads⟩
  | follow i link =>
    cases link with
    | zero => exact ⟨log, h.stop_step⟩
    | succ j => exact ⟨_, h.follow_step hn htotal⟩
  | write i j place => exact ⟨log, h.write_step hn⟩

/-! ## Whole runs -/

/-- The pairs of positions that are found. -/
def allPairs (links : ℕ → List ℕ) (n : ℕ) : Multiset (ℕ × ℕ) :=
  (Multiset.range n).bind fun i => (links i).map fun j => (i, j)

def walks (n : ℕ) : Multiset Walk :=
  (Multiset.range n).map fun i => .load i i

theorem walkInv_start (hcounter : c.counter m = 0)
    (hnext : ∀ j < n, c.next m j = linkTo (links j)) :
    WalkInv c code links n (allPairs links n) [] (walks n) m := by
  refine ⟨hcounter, ?_, hnext, ?_, ?_, ?_, ?_⟩
  · rw [walks, Multiset.bind_map, Multiset.coe_nil, zero_add]
    rfl
  · intro i j hmem
    obtain ⟨k, hk, heq⟩ := Multiset.mem_map.mp hmem
    cases heq
    exact Multiset.mem_range.mp hk
  · intro i j hmem
    obtain ⟨k, -, heq⟩ := Multiset.mem_map.mp hmem
    cases heq
  · intro i j place hmem
    obtain ⟨k, -, heq⟩ := Multiset.mem_map.mp hmem
    cases heq
  · intro place p _ hlog
    cases hlog

/-- **The list of a run**: every pair was counted once, and the pairs are in their cells. -/
theorem walk_completes (h : Completes (walkStep c code) (walks n) m m') (hleads : Leads links n)
    (hn : n ≤ c.positions) (htotal : (allPairs links n).card ≤ c.limit)
    (hcounter : c.counter m = 0) (hnext : ∀ j < n, c.next m j = linkTo (links j)) :
    ∃ log : List (ℕ × ℕ), (log : Multiset (ℕ × ℕ)) = allPairs links n ∧
      c.counter m' = log.length ∧
      ∀ place p, place < c.capacity → log[place]? = some p → c.cell m' place = code p.1 p.2 := by
  obtain ⟨log, hlog⟩ := h.invariant (I := fun tasks m =>
    ∃ log, WalkInv c code links n (allPairs links n) log tasks m)
    ⟨[], walkInv_start hcounter hnext⟩ fun t rest m ⟨log, hinv⟩ => hinv.step hleads hn htotal
  refine ⟨log, ?_, hlog.counter, fun place p hplace hget => ?_⟩
  · rw [← hlog.conserved, Multiset.zero_bind, add_zero]
  · exact (hlog.stored place p hplace hget).resolve_left (Multiset.notMem_zero _)

/-- The accesses that a task still makes. -/
def weight (links : ℕ → List ℕ) : Walk → ℕ
  | .load i j => 3 * (todo links (.load i j)).card + 2
  | .follow i link => 3 * (todo links (.follow i link)).card + 1
  | .write i j place => 3 * (todo links (.write i j place)).card + 3

/-- The walks can be run to their end. -/
theorem exists_completes_walks (code : ℕ → ℕ → γ) (hleads : Leads links n) (hn : n ≤ c.positions)
    (htotal : (allPairs links n).card ≤ c.limit) (hcounter : c.counter m = 0)
    (hnext : ∀ j < n, c.next m j = linkTo (links j)) :
    ∃ m', Completes (walkStep c code) (walks n) m m' := by
  refine exists_completes_of_invariant (I := fun tasks m =>
    ∃ log, WalkInv c code links n (allPairs links n) log tasks m) (weight links)
    (fun t rest m ⟨log, hinv⟩ => hinv.step hleads hn htotal) ?_ _ m
    ⟨[], walkInv_start hcounter hnext⟩
  rintro (⟨i, j⟩ | ⟨i, _ | j⟩ | ⟨i, j, place⟩) rest m ⟨log, hinv⟩
  · have hj := hinv.loading i j (Multiset.mem_cons_self _ _)
    rw [walkStep, hinv.next j hj, Multiset.map_singleton, Multiset.sum_singleton, weight, weight,
      todo_follow hleads hj]
    omega
  · simp [walkStep, weight]
  · simp [walkStep, weight, todo]
    omega
  · simp [walkStep, weight, todo]

end Inv

end MoMiner.PairList
