import Mathlib.Data.Multiset.Bind
import Mathlib.Data.Sym.Sym2
import MoMiner.Lib.Bins
import MoMiner.Lib.Tasks

/-!
# Chains built by racing exchanges

Tasks put positions into bins. A task exchanges the head of its bin with its own position, and then
writes the previous head into its link; zero ends a chain. The heads and links lie in a memory that
is described by what its accesses do (`Memory`).

Whatever the schedule, the exchanges on a bin happen in some order, and the links of a position lead
through the positions that came before it. So of two positions in one bin exactly one leads to the
other, and following all links finds every pair of positions once (`mem_pairs`, `nodup_pairs`).
-/

namespace MoMiner.Chains

/-- How a memory holds the heads of bins and the links of positions. -/
structure Memory (σ : Type*) where
  bins : ℕ
  positions : ℕ
  head : σ → ℕ → ℕ
  setHead : σ → ℕ → ℕ → σ
  next : σ → ℕ → ℕ
  setNext : σ → ℕ → ℕ → σ
  head_setHead : ∀ m b v b', b < bins → b' < bins → v ≤ positions →
    head (setHead m b v) b' = if b' = b then v else head m b'
  next_setHead : ∀ m b v i, b < bins → i < positions → next (setHead m b v) i = next m i
  head_setNext : ∀ m i v b, i < positions → b < bins → head (setNext m i v) b = head m b
  next_setNext : ∀ m i v i', i < positions → i' < positions → v ≤ positions →
    next (setNext m i v) i' = if i' = i then v else next m i'

/-- A task: exchange the head of the bin, or write the link of the position. -/
inductive Task
  | exchange (position bin : ℕ)
  | link (position previous : ℕ)
deriving DecidableEq

variable {σ : Type*}

/-- One access to the memory. -/
def step (c : Memory σ) : Task → σ → Multiset Task × σ
  | .exchange i b, m => ({.link i (c.head m b)}, c.setHead m b (i + 1))
  | .link i v, m => (0, c.setNext m i v)

/-- The link to the first of some positions. -/
def linkTo : List ℕ → ℕ
  | [] => 0
  | i :: _ => i + 1

/-! ## The invariant -/

/-- The entries are positions with their bins. The order of a bin holds the positions that were
exchanged, the last one first; every link is written, or about to be. -/
structure Inv (c : Memory σ) (entries : Set (ℕ × ℕ)) (order : ℕ → List ℕ) (tasks : Multiset Task)
    (m : σ) : Prop where
  bound : ∀ i b, (i, b) ∈ entries → i < c.positions ∧ b < c.bins
  bin_unique : ∀ i b b', (i, b) ∈ entries → (i, b') ∈ entries → b = b'
  mem_order : ∀ b, ∀ i ∈ order b, (i, b) ∈ entries
  covered : ∀ i b, (i, b) ∈ entries → i ∈ order b ∨ .exchange i b ∈ tasks
  exchanging : ∀ i b, .exchange i b ∈ tasks → (i, b) ∈ entries ∧ i ∉ order b
  once : ∀ i b, tasks.count (.exchange i b) ≤ 1
  nodup : ∀ b, (order b).Nodup
  head : ∀ b < c.bins, c.head m b = linkTo (order b)
  linking : ∀ i v, .link i v ∈ tasks → ∃ b l₁ l₂, order b = l₁ ++ i :: l₂ ∧ v = linkTo l₂
  next : ∀ b l₁ i l₂, order b = l₁ ++ i :: l₂ →
    .link i (linkTo l₂) ∈ tasks ∨ c.next m i = linkTo l₂

variable {c : Memory σ} {entries : Set (ℕ × ℕ)} {order : ℕ → List ℕ} {tasks rest : Multiset Task}
  {m m' : σ} {i b v : ℕ}

theorem Inv.linkTo_le (h : Inv c entries order tasks m) {l₁ l₂ : List ℕ}
    (horder : order b = l₁ ++ i :: l₂) : linkTo l₂ ≤ c.positions := by
  cases l₂ with
  | nil => exact Nat.zero_le _
  | cons j l₂ =>
    have hmem : j ∈ order b := by simp [horder]
    exact (h.bound j b (h.mem_order b j hmem)).1

/-- Only the heads and the links matter. -/
theorem Inv.congr (h : Inv c entries order tasks m) (hhead : ∀ b, c.head m' b = c.head m b)
    (hnext : ∀ i, c.next m' i = c.next m i) : Inv c entries order tasks m' :=
  { h with
    head := fun b hb => (hhead b).trans (h.head b hb)
    next := fun b l₁ i l₂ horder => (h.next b l₁ i l₂ horder).imp_right ((hnext i).trans ·) }

/-- A position that was not there before. -/
theorem Inv.add_entry (h : Inv c entries order tasks m) (hi : i < c.positions) (hb : b < c.bins)
    (hnew : ∀ b', (i, b') ∉ entries) :
    Inv c (insert (i, b) entries) order (.exchange i b ::ₘ tasks) m := by
  have hfresh : ∀ b', Task.exchange i b' ∉ tasks := fun b' hmem =>
    hnew b' (h.exchanging i b' hmem).1
  refine ⟨?_, ?_, fun b' j hj => .inr (h.mem_order b' j hj), ?_, ?_, ?_, h.nodup, h.head, ?_, ?_⟩
  · rintro j b' (heq | hmem)
    · cases heq
      exact ⟨hi, hb⟩
    · exact h.bound j b' hmem
  · rintro j b₁ b₂ (heq | hmem) (heq' | hmem')
    · cases heq
      cases heq'
      rfl
    · cases heq
      exact absurd hmem' (hnew b₂)
    · cases heq'
      exact absurd hmem (hnew b₁)
    · exact h.bin_unique j b₁ b₂ hmem hmem'
  · rintro j b' (heq | hmem)
    · cases heq
      exact .inr (Multiset.mem_cons_self _ _)
    · exact (h.covered j b' hmem).imp_right Multiset.mem_cons_of_mem
  · intro j b' hmem
    rcases Multiset.mem_cons.mp hmem with heq | hmem
    · cases heq
      exact ⟨.inl rfl, fun hj => hnew b (h.mem_order b i hj)⟩
    · obtain ⟨hentry, hnot⟩ := h.exchanging j b' hmem
      exact ⟨.inr hentry, hnot⟩
  · intro j b'
    rw [Multiset.count_cons]
    split_ifs with heq
    · cases heq
      rw [Multiset.count_eq_zero_of_notMem (hfresh b)]
    · exact h.once j b'
  · intro j v hmem
    exact h.linking j v ((Multiset.mem_cons.mp hmem).resolve_left (by simp))
  · intro b' l₁ j l₂ horder
    exact (h.next b' l₁ j l₂ horder).imp_left Multiset.mem_cons_of_mem

/-! ## The steps keep the invariant -/

theorem Inv.exchange_step (h : Inv c entries order (.exchange i b ::ₘ rest) m) :
    Inv c entries (Function.update order b (i :: order b))
      ((step c (.exchange i b) m).1 + rest) (step c (.exchange i b) m).2 := by
  obtain ⟨hentry, hnot⟩ := h.exchanging i b (Multiset.mem_cons_self _ _)
  obtain ⟨hi, hb⟩ := h.bound i b hentry
  have hgone : Task.exchange i b ∉ rest := by
    intro hmem
    have honce := h.once i b
    rw [Multiset.count_cons_self] at honce
    have hpos := Multiset.count_pos.mpr hmem
    omega
  have hother : ∀ j b', Task.exchange j b' ∈ ({.link i (c.head m b)} + rest : Multiset Task) →
      Task.exchange j b' ∈ rest := by
    intro j b' hmem
    rw [Multiset.singleton_add] at hmem
    exact (Multiset.mem_cons.mp hmem).resolve_left (by simp)
  have hupdate : ∀ b', Function.update order b (i :: order b) b' =
      if b' = b then i :: order b else order b' := fun b' => Function.update_apply _ _ _ _
  simp only [step]
  refine ⟨h.bound, h.bin_unique, ?_, ?_, ?_, ?_, ?_, ?_, ?_, ?_⟩
  · intro b' j hj
    rw [hupdate] at hj
    split_ifs at hj with hb'
    · subst hb'
      rcases List.mem_cons.mp hj with rfl | hj
      · exact hentry
      · exact h.mem_order b' j hj
    · exact h.mem_order b' j hj
  · intro j b' hmem
    rw [hupdate, Multiset.singleton_add]
    rcases h.covered j b' hmem with hj | hj
    · left
      split_ifs with hb'
      · subst hb'
        exact List.mem_cons_of_mem _ hj
      · exact hj
    · rcases Multiset.mem_cons.mp hj with heq | hj
      · cases heq
        exact .inl (by simp)
      · exact .inr (Multiset.mem_cons_of_mem hj)
  · intro j b' hmem
    have hrest := hother j b' hmem
    obtain ⟨hentry', hnot'⟩ := h.exchanging j b' (Multiset.mem_cons_of_mem hrest)
    refine ⟨hentry', ?_⟩
    rw [hupdate]
    split_ifs with hb'
    · subst hb'
      intro hj
      rcases List.mem_cons.mp hj with rfl | hj
      · exact hgone hrest
      · exact hnot' hj
    · exact hnot'
  · intro j b'
    rw [Multiset.singleton_add, Multiset.count_cons_of_ne (by simp)]
    exact (Multiset.count_le_count_cons _ _ _).trans (h.once j b')
  · intro b'
    rw [hupdate]
    split_ifs with hb'
    · exact List.nodup_cons.mpr ⟨hnot, h.nodup b⟩
    · exact h.nodup b'
  · intro b' hb'
    rw [c.head_setHead m b (i + 1) b' hb hb' hi, hupdate]
    split_ifs with heq
    · rfl
    · exact h.head b' hb'
  · intro j v hmem
    rw [Multiset.singleton_add] at hmem
    rcases Multiset.mem_cons.mp hmem with heq | hmem
    · cases heq
      exact ⟨b, [], order b, by simp, h.head b hb⟩
    · obtain ⟨b', l₁, l₂, horder, rfl⟩ := h.linking j v (Multiset.mem_cons_of_mem hmem)
      by_cases hb' : b' = b
      · subst hb'
        exact ⟨b', i :: l₁, l₂, by simp [horder], rfl⟩
      · exact ⟨b', l₁, l₂, by rw [hupdate, if_neg hb', horder], rfl⟩
  · intro b' l₁ j l₂ horder
    have hold : ∀ l₁, order b' = l₁ ++ j :: l₂ →
        .link j (linkTo l₂) ∈ ({.link i (c.head m b)} + rest : Multiset Task) ∨
        c.next (c.setHead m b (i + 1)) j = linkTo l₂ := by
      intro l₁ horder
      have hj := h.bound j b' (h.mem_order b' j (by simp [horder]))
      rw [c.next_setHead m b (i + 1) j hb hj.1, Multiset.singleton_add]
      rcases h.next b' l₁ j l₂ horder with hmem | hnext
      · exact .inl (Multiset.mem_cons_of_mem
          ((Multiset.mem_cons.mp hmem).resolve_left (by simp)))
      · exact .inr hnext
    rw [hupdate] at horder
    split_ifs at horder with hb'
    · subst hb'
      cases l₁ with
      | nil =>
        obtain ⟨rfl, rfl⟩ := List.cons.inj horder
        left
        rw [h.head b' hb]
        simp
      | cons i' l₁ => exact hold l₁ (List.cons.inj horder).2
    · exact hold l₁ horder

/-- What follows an element of a list without repetitions. -/
theorem eq_of_append_cons {k₁ k₂ l₁ l₂ : List ℕ} (h : k₁ ++ i :: k₂ = l₁ ++ i :: l₂)
    (hnodup : (k₁ ++ i :: k₂).Nodup) : k₂ = l₂ := by
  have hfront : i ∉ k₁ := fun hmem => (List.nodup_append.mp hnodup).2.2 i hmem i (by simp) rfl
  have hback : i ∉ k₂ := (List.nodup_cons.mp (List.nodup_append.mp hnodup).2.1).1
  exact ((List.append_cons_inj_of_notMem hfront hback).mp h).2.2

theorem Inv.link_step (h : Inv c entries order (.link i v ::ₘ rest) m) :
    Inv c entries order ((step c (.link i v) m).1 + rest) (step c (.link i v) m).2 := by
  obtain ⟨b, l₁, l₂, horder, rfl⟩ := h.linking i v (Multiset.mem_cons_self _ _)
  have hentry := h.mem_order b i (by simp [horder])
  have hi := (h.bound i b hentry).1
  have hle : linkTo l₂ ≤ c.positions := h.linkTo_le horder
  have hother : ∀ j b', Task.exchange j b' ∈ Task.link i (linkTo l₂) ::ₘ rest ↔
      Task.exchange j b' ∈ rest := by
    simp
  simp only [step, zero_add]
  refine ⟨h.bound, h.bin_unique, h.mem_order, ?_, ?_, ?_, h.nodup, ?_, ?_, ?_⟩
  · exact fun j b' hmem => (h.covered j b' hmem).imp_right (hother j b').mp
  · exact fun j b' hmem => h.exchanging j b' ((hother j b').mpr hmem)
  · exact fun j b' => (Multiset.count_le_count_cons _ _ _).trans (h.once j b')
  · exact fun b' hb' => (c.head_setNext m i _ b' hi hb').trans (h.head b' hb')
  · exact fun j v hmem => h.linking j v (Multiset.mem_cons_of_mem hmem)
  · intro b' k₁ j k₂ horder'
    have hentry' := h.mem_order b' j (by simp [horder'])
    rw [c.next_setNext m i _ j hi (h.bound j b' hentry').1 hle]
    split_ifs with hj
    · -- A position occurs once in one bin, so what follows it is the same.
      subst hj
      obtain rfl : b' = b := h.bin_unique j b' b hentry' hentry
      have hk : k₂ = l₂ := eq_of_append_cons (horder'.symm.trans horder) (horder' ▸ h.nodup b')
      exact .inr (by rw [hk])
    · rcases h.next b' k₁ j k₂ horder' with hmem | hnext
      · refine .inl ((Multiset.mem_cons.mp hmem).resolve_left ?_)
        rintro heq
        exact hj (Task.link.inj heq).1
      · exact .inr hnext

/-! ## The chains -/

/-- The positions that a position leads to. -/
def after (l : List ℕ) (i : ℕ) : List ℕ :=
  (l.dropWhile (· ≠ i)).tail

theorem exists_split {l : List ℕ} (hi : i ∈ l) : ∃ l₁, l = l₁ ++ i :: after l i := by
  induction l with
  | nil => cases hi
  | cons j l ih =>
    by_cases hj : j = i
    · subst hj
      exact ⟨[], by simp [after]⟩
    · obtain ⟨l₁, hl⟩ := ih ((List.mem_cons.mp hi).resolve_left (Ne.symm hj))
      have hafter : after (j :: l) i = after l i := by simp [after, hj]
      refine ⟨j :: l₁, ?_⟩
      rw [hafter, List.cons_append, ← hl]

theorem after_eq {l l₁ l₂ : List ℕ} (h : l = l₁ ++ i :: l₂) (hnodup : l.Nodup) :
    after l i = l₂ := by
  obtain ⟨k₁, hk⟩ := exists_split (show i ∈ l by simp [h])
  exact eq_of_append_cons (hk.symm.trans h) (hk ▸ hnodup)

/-- Of two positions exactly one leads to the other. -/
theorem mem_after_iff {l : List ℕ} (hnodup : l.Nodup) {j : ℕ} (hi : i ∈ l) (hj : j ∈ l)
    (hne : i ≠ j) : j ∈ after l i ↔ i ∉ after l j := by
  obtain ⟨l₁, hl⟩ := exists_split hi
  have hn : (l₁ ++ i :: after l i).Nodup := hl ▸ hnodup
  have hj' : j ∈ l₁ ∨ j ∈ after l i := by
    rw [hl, List.mem_append, List.mem_cons] at hj
    rcases hj with hj | rfl | hj
    · exact .inl hj
    · exact absurd rfl hne
    · exact .inr hj
  constructor
  · intro hmem hmem'
    obtain ⟨k₁, k₂, hk⟩ := List.append_of_mem hmem
    have hafter : after l j = k₂ := by
      have hsplit : l = (l₁ ++ i :: k₁) ++ j :: k₂ := by
        conv_lhs => rw [hl, hk]
        simp
      exact after_eq hsplit hnodup
    rw [hafter] at hmem'
    rw [hk] at hn
    simp only [List.nodup_append, List.nodup_cons, List.mem_append, List.mem_cons] at hn
    exact hn.2.1.1 (.inr (.inr hmem'))
  · intro hnot
    refine hj'.resolve_left fun hmem => hnot ?_
    obtain ⟨k₁, k₂, hk⟩ := List.append_of_mem hmem
    have hafter : after l j = k₂ ++ i :: after l i := by
      have hsplit : l = k₁ ++ j :: (k₂ ++ i :: after l i) := by
        conv_lhs => rw [hl, hk]
        simp
      exact after_eq hsplit hnodup
    simp [hafter]

theorem subset_after {l : List ℕ} (hi : i ∈ l) : ∀ j ∈ after l i, j ∈ l := by
  obtain ⟨l₁, hl⟩ := exists_split hi
  intro j hj
  rw [hl]
  simp [hj]

theorem nodup_after {l : List ℕ} (hnodup : l.Nodup) (hi : i ∈ l) :
    (after l i).Nodup ∧ i ∉ after l i := by
  obtain ⟨l₁, hl⟩ := exists_split hi
  rw [hl] at hnodup
  exact (List.nodup_cons.mp (List.nodup_append.mp hnodup).2.1).symm

/-- Following the links from a position visits what it leads to. -/
theorem Inv.chain_eq (h : Inv c entries order 0 m) {fuel : ℕ} {l₁ l₂ : List ℕ}
    (horder : order b = l₁ ++ l₂) (hfuel : l₂.length ≤ fuel) :
    Bins.chain (c.next m) fuel (linkTo l₂) = some l₂ := by
  induction l₂ generalizing fuel l₁ with
  | nil =>
    cases fuel <;> rfl
  | cons i l₂ ih =>
    obtain ⟨fuel, rfl⟩ := Nat.exists_eq_succ_of_ne_zero (Nat.ne_of_gt
      (Nat.zero_lt_of_lt (Nat.lt_of_lt_of_le (Nat.lt_succ_self l₂.length) hfuel)))
    have hnext := (h.next b l₁ i l₂ horder).resolve_left (Multiset.notMem_zero _)
    have hrest : order b = (l₁ ++ [i]) ++ l₂ := by simp [horder]
    rw [linkTo, Bins.chain, hnext, ih hrest (Nat.le_of_succ_le_succ hfuel)]
    rfl

/-- In the end every entry is in the order of its bin. -/
theorem Inv.mem_order_iff (h : Inv c entries order 0 m) : i ∈ order b ↔ (i, b) ∈ entries :=
  ⟨h.mem_order b i, fun hmem => (h.covered i b hmem).resolve_right (Multiset.notMem_zero _)⟩

/-- A run of the tasks leaves the chains of some order. -/
theorem inv_of_completes (h : Completes (step c) tasks m m')
    (hstart : Inv c entries (fun _ => []) tasks m) : ∃ order, Inv c entries order 0 m' := by
  refine h.invariant (I := fun tasks m => ∃ order, Inv c entries order tasks m) ⟨_, hstart⟩ ?_
  rintro (⟨i, b⟩ | ⟨i, v⟩) rest m ⟨order, hinv⟩
  · exact ⟨_, hinv.exchange_step⟩
  · exact ⟨_, hinv.link_step⟩

/-- Inserting tasks can be run to their end. -/
theorem exists_completes_chains (c : Memory σ) (tasks : Multiset Task) (m : σ) :
    ∃ m', Completes (step c) tasks m m' := by
  refine exists_completes (fun t => match t with
    | .exchange _ _ => 2
    | .link _ _ => 1) ?_ tasks m
  rintro (⟨i, b⟩ | ⟨i, v⟩) m
  · simp [step]
  · simp [step]

/-! ## The pairs of a bin -/

section Pairs

variable {α : Type*} {item : ℕ → α} {bin : ℕ → ℕ} {n : ℕ}

/-- The pairs that are found by following the links of every position below `n`. -/
def pairs (order : ℕ → List ℕ) (bin : ℕ → ℕ) (item : ℕ → α) (n : ℕ) : Multiset (Sym2 α) :=
  (Multiset.range n).bind fun i =>
    (after (order (bin i)) i : Multiset ℕ).map fun j => s(item i, item j)

/-- The orders of the bins hold the positions below `n`. -/
structure Orders (order : ℕ → List ℕ) (bin : ℕ → ℕ) (n : ℕ) : Prop where
  nodup : ∀ b, (order b).Nodup
  mem_iff : ∀ b i, i ∈ order b ↔ i < n ∧ bin i = b

theorem Orders.mem_self (h : Orders order bin n) (hi : i < n) : i ∈ order (bin i) :=
  (h.mem_iff _ i).mpr ⟨hi, rfl⟩

theorem Orders.of_mem_after (h : Orders order bin n) (hi : i < n) {j : ℕ}
    (hj : j ∈ after (order (bin i)) i) : j < n ∧ bin j = bin i ∧ i ≠ j := by
  obtain ⟨hlt, hbin⟩ := (h.mem_iff _ j).mp (subset_after (h.mem_self hi) j hj)
  refine ⟨hlt, hbin, ?_⟩
  rintro rfl
  exact (nodup_after (h.nodup _) (h.mem_self hi)).2 hj

/-- The pairs are those of different positions in one bin. -/
theorem mem_pairs (h : Orders order bin n) {z : Sym2 α} : z ∈ pairs order bin item n ↔
    ∃ i j, i < n ∧ j < n ∧ i ≠ j ∧ bin i = bin j ∧ z = s(item i, item j) := by
  simp only [pairs, Multiset.mem_bind, Multiset.mem_range, Multiset.mem_map, Multiset.mem_coe]
  constructor
  · rintro ⟨i, hi, j, hj, rfl⟩
    obtain ⟨hlt, hbin, hne⟩ := h.of_mem_after hi hj
    exact ⟨i, j, hi, hlt, hne, hbin.symm, rfl⟩
  · rintro ⟨i, j, hi, hj, hne, hbin, rfl⟩
    have hj' : j ∈ order (bin i) := (h.mem_iff _ j).mpr ⟨hj, hbin.symm⟩
    by_cases hmem : j ∈ after (order (bin i)) i
    · exact ⟨i, hi, j, hmem, rfl⟩
    · have hmem' : i ∈ after (order (bin i)) j :=
        not_not.mp fun hnot => hmem ((mem_after_iff (h.nodup _) (h.mem_self hi) hj' hne).mpr hnot)
      exact ⟨j, hj, i, hbin ▸ hmem', Sym2.eq_swap⟩

/-- **Every pair is found once**, when different positions hold different items. -/
theorem nodup_pairs (h : Orders order bin n)
    (hitem : ∀ i < n, ∀ j < n, item i = item j → i = j) : (pairs order bin item n).Nodup := by
  rw [pairs, Multiset.nodup_bind]
  constructor
  · intro i hi
    have hi := Multiset.mem_range.mp hi
    refine Multiset.Nodup.map_on ?_ (Multiset.coe_nodup.mpr
      (nodup_after (h.nodup _) (h.mem_self hi)).1)
    intro j hj k hk heq
    obtain ⟨hjn, -⟩ := h.of_mem_after hi (Multiset.mem_coe.mp hj)
    obtain ⟨hkn, -⟩ := h.of_mem_after hi (Multiset.mem_coe.mp hk)
    exact hitem j hjn k hkn (Sym2.congr_right.mp heq)
  · refine (Multiset.nodup_range n).pairwise fun i hi i' hi' hne => ?_
    have hi := Multiset.mem_range.mp hi
    have hi' := Multiset.mem_range.mp hi'
    change Disjoint _ _
    rw [Multiset.disjoint_left]
    intro z hz hz'
    obtain ⟨j, hj, rfl⟩ := Multiset.mem_map.mp hz
    obtain ⟨j', hj', heq⟩ := Multiset.mem_map.mp hz'
    obtain ⟨hjn, hbin, hij⟩ := h.of_mem_after hi (Multiset.mem_coe.mp hj)
    obtain ⟨hjn', -, -⟩ := h.of_mem_after hi' (Multiset.mem_coe.mp hj')
    rcases Sym2.eq_iff.mp heq with ⟨hleft, -⟩ | ⟨hleft, hright⟩
    · exact hne (hitem i hi i' hi' hleft.symm)
    · -- Otherwise each of two positions would lead to the other.
      obtain rfl := hitem i' hi' j hjn hleft
      obtain rfl := hitem j' hjn' i hi hright
      rw [hbin] at hj'
      exact (mem_after_iff (h.nodup _) (h.mem_self hi)
        ((h.mem_iff _ _).mpr ⟨hjn, hbin⟩) hij).mp (Multiset.mem_coe.mp hj) (Multiset.mem_coe.mp hj')

end Pairs

/-! ## Positions from a counter -/

/-- Values at the positions that a counter gave out, and the chains of these positions. -/
structure Fill (β : Type*) where
  count : ℕ
  items : ℕ → β
  heads : ℕ → ℕ
  links : ℕ → ℕ

section Fill

variable {β : Type*} {bins positions : ℕ} {bin : β → ℕ} {values : Multiset β}

def Fill.memory (β : Type*) (bins positions : ℕ) : Memory (Fill β) where
  bins := bins
  positions := positions
  head s := s.heads
  setHead s b v := { s with heads := Function.update s.heads b v }
  next s := s.links
  setNext s i v := { s with links := Function.update s.links i v }
  head_setHead _ _ _ _ _ _ _ := Function.update_apply _ _ _ _
  next_setHead _ _ _ _ _ _ := rfl
  head_setNext _ _ _ _ _ _ := rfl
  next_setNext _ _ _ _ _ _ _ := Function.update_apply _ _ _ _

/-- A task: take a position for a value, or put the position into its bin. -/
inductive FillTask (β : Type*)
  | take (value : β)
  | insert (task : Task)

/-- One access. A value that gets no position is dropped. -/
def fillStep (bins positions : ℕ) (bin : β → ℕ) :
    FillTask β → Fill β → Multiset (FillTask β) × Fill β
  | .take v, s =>
    if s.count ≥ positions then (0, { s with count := s.count + 1 })
    else ({.insert (.exchange s.count (bin v))},
      { s with count := s.count + 1, items := Function.update s.items s.count v })
  | .insert t, s =>
    ((step (Fill.memory β bins positions) t s).1.map .insert,
      (step (Fill.memory β bins positions) t s).2)

/-- The value of a task that still has to take a position. -/
def FillTask.taking : FillTask β → Option β
  | .take v => some v
  | .insert _ => none

def FillTask.inserting : FillTask β → Option Task
  | .take _ => none
  | .insert t => some t

/-- The positions and bins of the values of a list. -/
def entriesOf (positions : ℕ) (bin : β → ℕ) (log : List β) : Set (ℕ × ℕ) :=
  {p | p.1 < positions ∧ ∃ v, log[p.1]? = some v ∧ bin v = p.2}

/-- The log holds the values that took a position. -/
structure FillInv (bins positions : ℕ) (bin : β → ℕ) (values : Multiset β) (log : List β)
    (order : ℕ → List ℕ) (tasks : Multiset (FillTask β)) (s : Fill β) : Prop where
  count : s.count = log.length
  conserved : (log : Multiset β) + tasks.filterMap FillTask.taking = values
  items : ∀ i v, i < positions → log[i]? = some v → s.items i = v
  chains : Inv (Fill.memory β bins positions) (entriesOf positions bin log) order
    (tasks.filterMap FillTask.inserting) s

theorem entriesOf_append (log : List β) (v : β) : entriesOf positions bin (log ++ [v]) =
    if log.length < positions then insert (log.length, bin v) (entriesOf positions bin log)
    else entriesOf positions bin log := by
  ext ⟨i, b⟩
  have hget : ∀ w, (log ++ [v])[i]? = some w ↔ log[i]? = some w ∨ i = log.length ∧ w = v := by
    intro w
    rcases Nat.lt_trichotomy i log.length with hlt | rfl | hlt
    · rw [List.getElem?_append_left hlt]
      simp [hlt.ne]
    · simp [eq_comm]
    · rw [List.getElem?_eq_none (by simp; omega), List.getElem?_eq_none (by omega)]
      simp [hlt.ne']
  have hold : i = log.length → log[i]? = none := fun heq => List.getElem?_eq_none heq.ge
  split_ifs with hroom
  · simp only [entriesOf, Set.mem_ofPred_eq, hget, Set.mem_insert_iff, Prod.mk.injEq]
    constructor
    · rintro ⟨hlt, w, hw | ⟨rfl, rfl⟩, rfl⟩
      · exact .inr ⟨hlt, w, hw, rfl⟩
      · exact .inl ⟨rfl, rfl⟩
    · rintro (⟨rfl, rfl⟩ | ⟨hlt, w, hw, rfl⟩)
      · exact ⟨hroom, v, .inr ⟨rfl, rfl⟩, rfl⟩
      · exact ⟨hlt, w, .inl hw, rfl⟩
  · simp only [entriesOf, Set.mem_ofPred_eq, hget]
    constructor
    · rintro ⟨hlt, w, hw | ⟨rfl, rfl⟩, rfl⟩
      · exact ⟨hlt, w, hw, rfl⟩
      · exact absurd hlt hroom
    · rintro ⟨hlt, w, hw, rfl⟩
      exact ⟨hlt, w, .inl hw, rfl⟩

theorem FillInv.take_step {log : List β} {rest : Multiset (FillTask β)} {s : Fill β} {v : β}
    (h : FillInv bins positions bin values log order (.take v ::ₘ rest) s)
    (hbin : ∀ v ∈ values, bin v < bins) :
    FillInv bins positions bin values (log ++ [v]) order
      ((fillStep bins positions bin (.take v) s).1 + rest)
      (fillStep bins positions bin (.take v) s).2 := by
  have htaking : (FillTask.take v ::ₘ rest).filterMap FillTask.taking =
      v ::ₘ rest.filterMap FillTask.taking := Multiset.filterMap_cons_some _ _ _ rfl
  have hinserting : (FillTask.take v ::ₘ rest).filterMap FillTask.inserting =
      rest.filterMap FillTask.inserting := Multiset.filterMap_cons_none _ _ rfl
  have hconserved := h.conserved
  have hchains := h.chains
  rw [htaking] at hconserved
  rw [hinserting] at hchains
  have hv : v ∈ values := by
    rw [← hconserved]
    simp
  have hlog : ((log ++ [v] : List β) : Multiset β) + rest.filterMap FillTask.taking = values := by
    rw [← hconserved, ← Multiset.coe_add, add_assoc, Multiset.coe_singleton,
      Multiset.singleton_add]
  have hnew : ∀ b', (log.length, b') ∉ entriesOf positions bin log := by
    rintro b' ⟨-, w, hw, -⟩
    rw [List.getElem?_eq_none le_rfl] at hw
    cases hw
  simp only [fillStep]
  split_ifs with hfull
  · refine ⟨?_, ?_, ?_, ?_⟩
    · simp [h.count]
    · rw [zero_add]
      exact hlog
    · intro i w hi hw
      rw [h.count] at hfull
      rw [List.getElem?_append_left (by omega)] at hw
      exact h.items i w hi hw
    · rw [h.count] at hfull
      rw [zero_add, entriesOf_append, if_neg (by omega)]
      exact hchains.congr (fun _ => rfl) fun _ => rfl
  · rw [h.count] at hfull ⊢
    refine ⟨by simp, ?_, ?_, ?_⟩
    · have hadd : (FillTask.insert (.exchange log.length (bin v)) ::ₘ rest).filterMap
          FillTask.taking = rest.filterMap FillTask.taking := Multiset.filterMap_cons_none _ _ rfl
      rw [Multiset.singleton_add, hadd]
      exact hlog
    · intro i w hi hw
      rcases Nat.lt_trichotomy i log.length with hlt | rfl | hlt
      · rw [List.getElem?_append_left hlt] at hw
        exact (Function.update_of_ne hlt.ne _ _).trans (h.items i w hi hw)
      · rw [List.getElem?_concat_length] at hw
        exact (Function.update_self _ _ _).trans (Option.some.inj hw)
      · rw [List.getElem?_eq_none (by simp; omega)] at hw
        cases hw
    · have hadd : (FillTask.insert (.exchange log.length (bin v)) ::ₘ rest).filterMap
          FillTask.inserting =
          .exchange log.length (bin v) ::ₘ rest.filterMap FillTask.inserting :=
        Multiset.filterMap_cons_some _ _ _ rfl
      rw [Multiset.singleton_add, hadd, entriesOf_append, if_pos (by omega)]
      exact (hchains.add_entry (by simpa [Fill.memory] using hfull) (hbin v hv) hnew).congr
        (fun _ => rfl) fun _ => rfl

theorem FillInv.insert_step {log : List β} {rest : Multiset (FillTask β)} {s : Fill β} {t : Task}
    (h : FillInv bins positions bin values log order (.insert t ::ₘ rest) s) :
    ∃ order', FillInv bins positions bin values log order'
      ((fillStep bins positions bin (.insert t) s).1 + rest)
      (fillStep bins positions bin (.insert t) s).2 := by
  have htaking : (FillTask.insert t ::ₘ rest).filterMap FillTask.taking =
      rest.filterMap FillTask.taking := Multiset.filterMap_cons_none _ _ rfl
  have hinserting : (FillTask.insert t ::ₘ rest).filterMap FillTask.inserting =
      t ::ₘ rest.filterMap FillTask.inserting := Multiset.filterMap_cons_some _ _ _ rfl
  have hconserved := h.conserved
  have hchains := h.chains
  rw [htaking] at hconserved
  rw [hinserting] at hchains
  have htasks : ((fillStep bins positions bin (.insert t) s).1 + rest).filterMap
      FillTask.inserting = (step (Fill.memory β bins positions) t s).1 +
      rest.filterMap FillTask.inserting := by
    rw [Multiset.filterMap_add, fillStep, Multiset.filterMap_map]
    congr 1
    exact Multiset.filterMap_some _
  have hlog : (log : Multiset β) +
      ((fillStep bins positions bin (.insert t) s).1 + rest).filterMap FillTask.taking =
      values := by
    have hnone : ∀ tasks : Multiset Task, (tasks.map .insert).filterMap
        (FillTask.taking : FillTask β → Option β) = 0 := by
      intro tasks
      refine Multiset.eq_zero_of_forall_notMem fun v hv => ?_
      obtain ⟨t, ht, htake⟩ := (Multiset.mem_filterMap _ _).mp hv
      obtain ⟨t, -, rfl⟩ := Multiset.mem_map.mp ht
      cases htake
    rw [← hconserved, Multiset.filterMap_add, fillStep, hnone, zero_add]
  cases t with
  | exchange i b =>
    refine ⟨Function.update order b (i :: order b), h.count, hlog, h.items, ?_⟩
    rw [htasks]
    exact hchains.exchange_step
  | link i v =>
    refine ⟨order, h.count, hlog, h.items, ?_⟩
    rw [htasks]
    exact hchains.link_step

/-- Nothing has taken a position, and all bins are empty. -/
def Fill.empty (items : ℕ → β) (links : ℕ → ℕ) : Fill β :=
  ⟨0, items, fun _ => 0, links⟩

theorem fillInv_start (items : ℕ → β) (links : ℕ → ℕ) : FillInv bins positions bin values []
    (fun _ => []) (values.map .take) (Fill.empty items links) := by
  have htaking : (values.map .take).filterMap FillTask.taking = values :=
    (Multiset.filterMap_map _ _ _).trans (Multiset.filterMap_some _)
  have hinserting : (values.map .take).filterMap (FillTask.inserting : FillTask β → _) = 0 := by
    refine Multiset.eq_zero_of_forall_notMem fun t ht => ?_
    obtain ⟨t', ht', htake⟩ := (Multiset.mem_filterMap _ _).mp ht
    obtain ⟨v, -, rfl⟩ := Multiset.mem_map.mp ht'
    cases htake
  have hnone : ∀ p, p ∉ entriesOf positions bin ([] : List β) := by
    rintro p ⟨-, v, hv, -⟩
    cases hv
  refine ⟨rfl, ?_, ?_, ?_⟩
  · rw [htaking, Multiset.coe_nil, zero_add]
  · intro i v _ hv
    cases hv
  · rw [hinserting]
    refine ⟨?_, ?_, ?_, ?_, ?_, ?_, ?_, ?_, ?_, ?_⟩
    · exact fun i b hmem => absurd hmem (hnone _)
    · exact fun i b b' hmem => absurd hmem (hnone _)
    · exact fun b i hi => absurd hi List.not_mem_nil
    · exact fun i b hmem => absurd hmem (hnone _)
    · exact fun i b hmem => absurd hmem (Multiset.notMem_zero _)
    · exact fun i b => by simp
    · exact fun b => List.nodup_nil
    · exact fun b _ => rfl
    · exact fun i v hmem => absurd hmem (Multiset.notMem_zero _)
    · exact fun b l₁ i l₂ horder => absurd horder (by simp)

/-- **What a run leaves.** The values took their positions in the order of some list, and the links
of the positions lead through the bins in some order. -/
theorem fill_completes {items : ℕ → β} {links : ℕ → ℕ} {s : Fill β}
    (h : Completes (fillStep bins positions bin) (values.map .take) (Fill.empty items links) s)
    (hbin : ∀ v ∈ values, bin v < bins) :
    ∃ log order, FillInv bins positions bin values log order 0 s := by
  refine h.invariant (I := fun tasks s => ∃ log order,
    FillInv bins positions bin values log order tasks s)
    ⟨[], _, fillInv_start items links⟩ ?_
  rintro (v | t) rest s ⟨log, order, hinv⟩
  · exact ⟨_, _, hinv.take_step hbin⟩
  · exact ⟨log, hinv.insert_step⟩

/-- Filling can be run to its end. -/
theorem exists_completes_fill (bins positions : ℕ) (bin : β → ℕ) (tasks : Multiset (FillTask β))
    (s : Fill β) : ∃ s', Completes (fillStep bins positions bin) tasks s s' := by
  refine exists_completes (fun t => match t with
    | .take _ => 3
    | .insert (.exchange _ _) => 2
    | .insert (.link _ _) => 1) ?_ tasks s
  rintro (v | i | i) s
  · simp only [fillStep]
    split_ifs <;> simp
  · simp [fillStep, step]
  · simp [fillStep, step]

/-- The positions that were filled. -/
def Fill.used (positions : ℕ) (s : Fill β) : ℕ :=
  min s.count positions

theorem FillInv.orders {log : List β} {s : Fill β}
    (h : FillInv bins positions bin values log order 0 s) :
    Orders order (fun i => bin (s.items i)) (s.used positions) := by
  refine ⟨h.chains.nodup, fun b i => ?_⟩
  rw [Fill.used, h.count]
  constructor
  · intro hi
    obtain ⟨hlt, v, hv, hbin⟩ := h.chains.mem_order b i hi
    obtain ⟨hlog, -⟩ := List.getElem?_eq_some_iff.mp hv
    exact ⟨lt_min hlog hlt, (congrArg bin (h.items i v hlt hv)).trans hbin⟩
  · rintro ⟨hi, rfl⟩
    obtain ⟨hlog, hlt⟩ := lt_min_iff.mp hi
    have hget := List.getElem?_eq_getElem hlog
    have hmem : (i, bin (s.items i)) ∈ entriesOf positions bin log :=
      ⟨hlt, _, hget, congrArg bin (h.items i _ hlt hget).symm⟩
    exact (h.chains.covered i _ hmem).resolve_right (Multiset.notMem_zero _)

end Fill

end MoMiner.Chains
