import Mathlib.Data.Multiset.Count
import Mathlib.Data.Multiset.Fintype
import MoMiner.Lib.Tasks

/-!
# A table with open addressing that many tasks fill

A table counts keys up to two. Every key has its own sequence of places. A task looks at one place
after the other: it claims the first empty one with a compare-and-exchange, and marks the key as
repeated when it finds it there. A cell holds a key and the mark in one word.

Whatever the schedule, as long as the table has a place for every key, looking up an inserted key
tells whether it was inserted at least twice (`find_iff`).
-/

namespace MoMiner.ProbeTable

/-- How a word holds a key and a mark. -/
structure Cells (κ ω : Type*) where
  empty : ω
  key : ω → κ
  ofKey : κ → ω
  mark : ω → ω
  marked : ω → Bool
  /-- The keys that the words can tell apart. -/
  Valid : κ → Prop
  key_empty : ∀ k, Valid k → key empty ≠ k
  key_ofKey : ∀ k, Valid k → key (ofKey k) = k
  ofKey_ne_empty : ∀ k, Valid k → ofKey k ≠ empty
  marked_ofKey : ∀ k, Valid k → marked (ofKey k) = false
  key_mark : ∀ w, key (mark w) = key w
  mark_ne_empty : ∀ w, mark w ≠ empty
  marked_mark : ∀ w, marked (mark w) = true

/-- A task: look at a place, claim an empty place, or mark the key at a place. -/
inductive Insert (κ : Type*)
  | look (key : κ) (probe : ℕ)
  | claim (key : κ) (probe : ℕ)
  | mark (key : κ) (probe : ℕ)

variable {κ ω : Type*} [DecidableEq κ]

section

variable [DecidableEq ω] (c : Cells κ ω) (size : ℕ) (slot : κ → ℕ → ℕ)

/-- Go on to the next place. -/
def advance (key : κ) (probe : ℕ) : Multiset (Insert κ) :=
  if probe + 1 < size then {.look key (probe + 1)} else 0

/-- One atomic access. -/
def step : Insert κ → (ℕ → ω) → Multiset (Insert κ) × (ℕ → ω)
  | .look key probe, table =>
    if c.key (table (slot key probe)) = key then ({.mark key probe}, table)
    else if table (slot key probe) = c.empty then ({.claim key probe}, table)
    else (advance size key probe, table)
  | .claim key probe, table =>
    if table (slot key probe) = c.empty then
      (0, Function.update table (slot key probe) (c.ofKey key))
    else if c.key (table (slot key probe)) = key then ({.mark key probe}, table)
    else (advance size key probe, table)
  | .mark key probe, table =>
    (0, Function.update table (slot key probe) (c.mark (table (slot key probe))))

/-- Look up a key at `probe` and up to `left` places in all. -/
def findFrom (table : ℕ → ω) (key : κ) : ℕ → ℕ → Bool
  | 0, _ => false
  | left + 1, probe =>
    if c.key (table (slot key probe)) = key then c.marked (table (slot key probe))
    else if table (slot key probe) = c.empty then false
    else findFrom table key left (probe + 1)

/-- Is the key in the table with its mark? -/
def find (table : ℕ → ω) (key : κ) : Bool :=
  findFrom c slot table key size 0

/-! ## The invariant -/

/-- The first places of a key hold other keys. -/
def Passed (table : ℕ → ω) (key : κ) (probe : ℕ) : Prop :=
  ∀ i < probe, table (slot key i) ≠ c.empty ∧ c.key (table (slot key i)) ≠ key

/-- A key is at one of its places, and was not passed before. -/
structure At (table : ℕ → ω) (key : κ) (probe : ℕ) : Prop where
  lt : probe < size
  ne_empty : table (slot key probe) ≠ c.empty
  key_eq : c.key (table (slot key probe)) = key
  passed : Passed c slot table key probe

end

/-- Does the task still have to count the key? -/
def Insert.counts (key : κ) : Insert κ → Bool
  | .look key' _ => key' = key
  | .claim key' _ => key' = key
  | .mark _ _ => false

/-- How often a key still has to be counted. -/
def waiting (tasks : Multiset (Insert κ)) (key : κ) : ℕ :=
  tasks.countP fun t => t.counts key = true

/-- Every cell is on the way of its key; every task passed the cells before it; and a key is in the
table, or is marked or about to be, when it was counted once or twice. -/
structure Inv (c : Cells κ ω) (size : ℕ) (slot : κ → ℕ → ℕ) (keys : Multiset κ)
    (tasks : Multiset (Insert κ)) (table : ℕ → ω) : Prop where
  mem : ∀ k i, .look k i ∈ tasks ∨ .claim k i ∈ tasks → k ∈ keys
  passed : ∀ k i, .look k i ∈ tasks ∨ .claim k i ∈ tasks → i < size ∧ Passed c slot table k i
  marking : ∀ k i, .mark k i ∈ tasks → At c size slot table k i
  cell : ∀ j, table j ≠ c.empty → ∃ k ∈ keys, ∃ i, slot k i = j ∧ At c size slot table k i
  le : ∀ k, waiting tasks k ≤ keys.count k
  once : ∀ k ∈ keys, (∃ j, table j ≠ c.empty ∧ c.key (table j) = k) ↔
    waiting tasks k < keys.count k
  twice : ∀ k ∈ keys, ((∃ j, table j ≠ c.empty ∧ c.key (table j) = k ∧ c.marked (table j) = true) ∨
    ∃ i, .mark k i ∈ tasks) ↔ waiting tasks k + 1 < keys.count k

section

variable {c : Cells κ ω} {size : ℕ} {slot : κ → ℕ → ℕ} {keys : Multiset κ}
  {tasks rest : Multiset (Insert κ)} {table table' : ℕ → ω} {k : κ} {i i' : ℕ}

omit [DecidableEq κ] in
theorem At.unique (h : At c size slot table k i) (h' : At c size slot table k i') : i = i' := by
  rcases Nat.lt_trichotomy i i' with hlt | heq | hlt
  · exact absurd h.key_eq (h'.passed i hlt).2
  · exact heq
  · exact absurd h'.key_eq (h.passed i' hlt).2

/-- A key has one cell only. -/
theorem Inv.cell_unique (h : Inv c size slot keys tasks table) {j j' : ℕ}
    (hj : table j ≠ c.empty) (hj' : table j' ≠ c.empty)
    (hkey : c.key (table j) = c.key (table j')) : j = j' := by
  obtain ⟨k, -, i, rfl, hat⟩ := h.cell j hj
  obtain ⟨k', -, i', rfl, hat'⟩ := h.cell j' hj'
  obtain rfl : k = k' := by rw [← hat.key_eq, hkey, hat'.key_eq]
  rw [hat.unique hat']

/-- The places of a key are not all taken by other keys. -/
theorem Inv.not_passed (h : Inv c size slot keys tasks table) (hcard : keys.card ≤ size)
    (hslot : ∀ i < size, ∀ i' < size, slot k i = slot k i' → i = i') (hk : k ∈ keys) :
    ¬ Passed c slot table k size := by
  intro hpassed
  have hmaps : ∀ i ∈ Finset.range size,
      c.key (table (slot k i)) ∈ keys.toFinset.erase k := by
    intro i hi
    obtain ⟨hne, hkey⟩ := hpassed i (Finset.mem_range.mp hi)
    obtain ⟨k', hk', i', hslot', hat⟩ := h.cell _ hne
    rw [Finset.mem_erase, Multiset.mem_toFinset, ← hslot', hat.key_eq]
    refine ⟨?_, hk'⟩
    rw [← hat.key_eq, hslot']
    exact hkey
  have hinj : Set.InjOn (fun i => c.key (table (slot k i))) (Finset.range size) := by
    intro i hi i' hi' hkey
    have hi := Finset.mem_range.mp (Finset.mem_coe.mp hi)
    have hi' := Finset.mem_range.mp (Finset.mem_coe.mp hi')
    exact hslot i hi i' hi' (h.cell_unique (hpassed i hi).1 (hpassed i' hi').1 hkey)
  have hle := Finset.card_le_card_of_injOn _ hmaps hinj
  have hpos : 0 < keys.toFinset.card :=
    Finset.card_pos.mpr ⟨k, Multiset.mem_toFinset.mpr hk⟩
  rw [Finset.card_range, Finset.card_erase_of_mem (Multiset.mem_toFinset.mpr hk)] at hle
  have hdistinct := Multiset.toFinset_card_le keys
  omega

@[simp] theorem waiting_cons (t : Insert κ) (rest : Multiset (Insert κ)) (k : κ) :
    waiting (t ::ₘ rest) k = waiting rest k + if t.counts k = true then 1 else 0 := by
  rw [waiting, Multiset.countP_cons, waiting]

@[simp] theorem waiting_add (tasks rest : Multiset (Insert κ)) (k : κ) :
    waiting (tasks + rest) k = waiting tasks k + waiting rest k := by
  rw [waiting, Multiset.countP_add, waiting, waiting]

/-- Keys stay where they are when the table is filled. -/
def Grows (c : Cells κ ω) (table table' : ℕ → ω) : Prop :=
  ∀ j, table j ≠ c.empty → table' j ≠ c.empty ∧ c.key (table' j) = c.key (table j)

omit [DecidableEq κ] in
theorem Passed.mono (h : Passed c slot table k i) (hgrows : Grows c table table') :
    Passed c slot table' k i := by
  intro i' hi'
  obtain ⟨hne, hkey⟩ := h i' hi'
  obtain ⟨hne', hkey'⟩ := hgrows _ hne
  exact ⟨hne', hkey' ▸ hkey⟩

omit [DecidableEq κ] in
theorem At.mono (h : At c size slot table k i) (hgrows : Grows c table table') :
    At c size slot table' k i := by
  obtain ⟨hne', hkey'⟩ := hgrows _ h.ne_empty
  exact ⟨h.lt, hne', hkey' ▸ h.key_eq, h.passed.mono hgrows⟩

/-! ## The steps keep the invariant -/

/-- A task that looks at a place of its key, or is about to claim it. -/
def Counting (t : Insert κ) (k : κ) (i : ℕ) : Prop :=
  t = .look k i ∨ t = .claim k i

omit [DecidableEq κ] in
theorem Counting.mem {t : Insert κ} (ht : Counting t k i) :
    .look k i ∈ t ::ₘ rest ∨ .claim k i ∈ t ::ₘ rest := by
  rcases ht with rfl | rfl
  · exact .inl (Multiset.mem_cons_self _ _)
  · exact .inr (Multiset.mem_cons_self _ _)

theorem Counting.counts {t : Insert κ} (ht : Counting t k i) (k' : κ) :
    t.counts k' = decide (k = k') := by
  rcases ht with rfl | rfl <;> rfl

omit [DecidableEq κ] in
theorem Counting.mark_mem {t : Insert κ} (ht : Counting t k i) {k' : κ} {i' : ℕ} :
    .mark k' i' ∈ t ::ₘ rest ↔ .mark k' i' ∈ rest := by
  rw [Multiset.mem_cons, or_iff_right]
  rcases ht with rfl | rfl <;> simp

/-- A task that found its key goes on to mark it. -/
theorem Inv.found {t : Insert κ} (ht : Counting t k i)
    (h : Inv c size slot keys (t ::ₘ rest) table) (hvalid : ∀ k ∈ keys, c.Valid k)
    (hfound : c.key (table (slot k i)) = k) :
    Inv c size slot keys ({.mark k i} + rest) table := by
  have hk : k ∈ keys := h.mem k i ht.mem
  have hne : table (slot k i) ≠ c.empty := by
    intro hempty
    rw [hempty] at hfound
    exact c.key_empty k (hvalid k hk) hfound
  have hwaiting : ∀ k', waiting (t ::ₘ rest) k' =
      waiting ({.mark k i} + rest) k' + if k = k' then 1 else 0 := by
    intro k'
    rw [Multiset.singleton_add, waiting_cons, waiting_cons, ht.counts]
    simp [Insert.counts]
  have hkeep : ∀ k' i', .look k' i' ∈ ({.mark k i} + rest : Multiset (Insert κ)) ∨
      .claim k' i' ∈ ({.mark k i} + rest : Multiset (Insert κ)) →
      .look k' i' ∈ t ::ₘ rest ∨ .claim k' i' ∈ t ::ₘ rest := by
    rintro k' i' (hmem | hmem)
    · rw [Multiset.singleton_add, Multiset.mem_cons] at hmem
      exact .inl (Multiset.mem_cons_of_mem (hmem.resolve_left (by simp)))
    · rw [Multiset.singleton_add, Multiset.mem_cons] at hmem
      exact .inr (Multiset.mem_cons_of_mem (hmem.resolve_left (by simp)))
  have honce := (h.once k hk).mp ⟨_, hne, hfound⟩
  refine ⟨fun k' i' hmem => h.mem k' i' (hkeep k' i' hmem),
    fun k' i' hmem => h.passed k' i' (hkeep k' i' hmem), ?_, h.cell, ?_, ?_, ?_⟩
  · intro k' i' hmem
    rw [Multiset.singleton_add, Multiset.mem_cons] at hmem
    rcases hmem with heq | hmem
    · cases heq
      obtain ⟨hlt, hpassed⟩ := h.passed k i ht.mem
      exact ⟨hlt, hne, hfound, hpassed⟩
    · exact h.marking k' i' (Multiset.mem_cons_of_mem hmem)
  · intro k'
    have hle := h.le k'
    rw [hwaiting] at hle
    omega
  · intro k' hk'
    rw [h.once k' hk', hwaiting]
    by_cases heq : k = k'
    · subst heq
      rw [hwaiting, if_pos rfl] at honce
      rw [if_pos rfl]
      exact ⟨fun _ => by omega, fun _ => honce⟩
    · rw [if_neg heq, Nat.add_zero]
  · intro k' hk'
    have htwice := h.twice k' hk'
    simp only [ht.mark_mem] at htwice
    rw [hwaiting] at htwice
    simp only [Multiset.singleton_add, Multiset.mem_cons, Insert.mark.injEq]
    by_cases heq : k = k'
    · subst heq
      rw [hwaiting, if_pos rfl] at honce
      exact ⟨fun _ => honce, fun _ => .inr ⟨i, .inl ⟨rfl, rfl⟩⟩⟩
    · rw [if_neg heq, Nat.add_zero] at htwice
      simpa [Ne.symm heq] using htwice

/-- A task may go on to a place whose predecessors it passed. -/
theorem Inv.moved {t t' : Insert κ} (ht : Counting t k i) (ht' : Counting t' k i')
    (h : Inv c size slot keys (t ::ₘ rest) table) (hlt : i' < size)
    (hpassed : Passed c slot table k i') : Inv c size slot keys ({t'} + rest) table := by
  have hwaiting : ∀ k', waiting ({t'} + rest) k' = waiting (t ::ₘ rest) k' := by
    intro k'
    rw [Multiset.singleton_add, waiting_cons, waiting_cons, ht.counts, ht'.counts]
  have hcases : ∀ k' i'', .look k' i'' ∈ ({t'} + rest : Multiset (Insert κ)) ∨
      .claim k' i'' ∈ ({t'} + rest : Multiset (Insert κ)) →
      (k' = k ∧ i'' = i') ∨ .look k' i'' ∈ t ::ₘ rest ∨ .claim k' i'' ∈ t ::ₘ rest := by
    intro k' i'' hmem
    simp only [Multiset.singleton_add, Multiset.mem_cons] at hmem ⊢
    rcases ht' with rfl | rfl
    · simp only [Insert.look.injEq, reduceCtorEq, false_or] at hmem
      tauto
    · simp only [Insert.claim.injEq, reduceCtorEq, false_or] at hmem
      tauto
  have hmark : ∀ k' i'', .mark k' i'' ∈ ({t'} + rest : Multiset (Insert κ)) ↔
      .mark k' i'' ∈ t ::ₘ rest := by
    intro k' i''
    rw [Multiset.singleton_add, ht'.mark_mem, ht.mark_mem]
  refine ⟨?_, ?_, fun k' i'' hmem => h.marking k' i'' ((hmark k' i'').mp hmem), h.cell, ?_, ?_, ?_⟩
  · intro k' i'' hmem
    rcases hcases k' i'' hmem with ⟨rfl, -⟩ | hmem
    · exact h.mem _ i ht.mem
    · exact h.mem k' i'' hmem
  · intro k' i'' hmem
    rcases hcases k' i'' hmem with ⟨rfl, rfl⟩ | hmem
    · exact ⟨hlt, hpassed⟩
    · exact h.passed k' i'' hmem
  · exact fun k' => (hwaiting k').trans_le (h.le k')
  · exact fun k' hk' => hwaiting k' ▸ h.once k' hk'
  · intro k' hk'
    simp only [hmark, hwaiting]
    exact h.twice k' hk'

/-- A task that found another key goes on to the next place; there is one. -/
theorem Inv.advanced {t : Insert κ} (ht : Counting t k i)
    (h : Inv c size slot keys (t ::ₘ rest) table) (hcard : keys.card ≤ size)
    (hslot : ∀ k ∈ keys, ∀ i < size, ∀ i' < size, slot k i = slot k i' → i = i')
    (hne : table (slot k i) ≠ c.empty) (hkey : c.key (table (slot k i)) ≠ k) :
    Inv c size slot keys (advance size k i + rest) table := by
  have hk : k ∈ keys := h.mem k i ht.mem
  obtain ⟨hlt, hpassed⟩ := h.passed k i ht.mem
  have hnext : Passed c slot table k (i + 1) := by
    intro i' hi'
    rcases Nat.lt_succ_iff_lt_or_eq.mp hi' with hi' | rfl
    · exact hpassed i' hi'
    · exact ⟨hne, hkey⟩
  have hroom : i + 1 < size := by
    by_contra hfull
    rw [show i + 1 = size by omega] at hnext
    exact h.not_passed hcard (hslot k hk) hk hnext
  rw [advance, if_pos hroom]
  exact h.moved ht (.inl rfl) hroom hnext

/-- A task claims an empty place. -/
theorem Inv.claimed (h : Inv c size slot keys (.claim k i ::ₘ rest) table)
    (hvalid : ∀ k ∈ keys, c.Valid k) (hempty : table (slot k i) = c.empty) :
    Inv c size slot keys rest (Function.update table (slot k i) (c.ofKey k)) := by
  have hk : k ∈ keys := h.mem k i (.inr (Multiset.mem_cons_self _ _))
  obtain ⟨hlt, hpassed⟩ := h.passed k i (.inr (Multiset.mem_cons_self _ _))
  have hgrows : Grows c table (Function.update table (slot k i) (c.ofKey k)) := by
    intro j hj
    have hne : j ≠ slot k i := by
      rintro rfl
      exact hj hempty
    rw [Function.update_of_ne hne]
    exact ⟨hj, rfl⟩
  -- The key was in no cell: its cell would be before the empty place.
  have hnone : ∀ j, table j ≠ c.empty → c.key (table j) ≠ k := by
    intro j hj hkey
    obtain ⟨k', -, i', rfl, hat⟩ := h.cell j hj
    obtain rfl : k' = k := hat.key_eq.symm.trans hkey
    rcases Nat.lt_trichotomy i i' with hlt | rfl | hlt
    · exact (hat.passed i hlt).1 hempty
    · exact hj hempty
    · exact (hpassed i' hlt).2 hkey
  have hcell : ∀ (P : ω → Prop) k', (∃ j, Function.update table (slot k i) (c.ofKey k) j ≠ c.empty ∧
      c.key (Function.update table (slot k i) (c.ofKey k) j) = k' ∧
      P (Function.update table (slot k i) (c.ofKey k) j)) ↔
      (k' = k ∧ P (c.ofKey k)) ∨ ∃ j, table j ≠ c.empty ∧ c.key (table j) = k' ∧ P (table j) := by
    intro P k'
    constructor
    · rintro ⟨j, hne, hkey, hP⟩
      by_cases hj : j = slot k i
      · subst hj
        rw [Function.update_self] at hkey hP
        exact .inl ⟨hkey.symm.trans (c.key_ofKey k (hvalid k hk)), hP⟩
      · rw [Function.update_of_ne hj] at hne hkey hP
        exact .inr ⟨j, hne, hkey, hP⟩
    · rintro (⟨rfl, hP⟩ | ⟨j, hne, hkey, hP⟩)
      · refine ⟨slot k' i, ?_⟩
        rw [Function.update_self]
        exact ⟨c.ofKey_ne_empty k' (hvalid k' hk), c.key_ofKey k' (hvalid k' hk), hP⟩
      · refine ⟨j, ?_⟩
        have hj : j ≠ slot k i := by
          rintro rfl
          exact hne hempty
        rw [Function.update_of_ne hj]
        exact ⟨hne, hkey, hP⟩
  have hwaiting : ∀ k', waiting (.claim k i ::ₘ rest) k' =
      waiting rest k' + if k = k' then 1 else 0 := by
    intro k'
    rw [waiting_cons]
    simp [Insert.counts]
  have hall : waiting rest k + 1 = keys.count k := by
    have hle := h.le k
    have honce := (h.once k hk).not.mp (by rintro ⟨j, hj, hkey⟩; exact hnone j hj hkey)
    rw [hwaiting, if_pos rfl] at hle honce
    omega
  refine ⟨fun k' i' hmem => h.mem k' i' (hmem.imp Multiset.mem_cons_of_mem
    Multiset.mem_cons_of_mem), ?_, ?_, ?_, ?_, ?_, ?_⟩
  · intro k' i' hmem
    obtain ⟨hlt', hpassed'⟩ := h.passed k' i' (hmem.imp Multiset.mem_cons_of_mem
      Multiset.mem_cons_of_mem)
    exact ⟨hlt', hpassed'.mono hgrows⟩
  · exact fun k' i' hmem => (h.marking k' i' (Multiset.mem_cons_of_mem hmem)).mono hgrows
  · intro j hj
    by_cases hjk : j = slot k i
    · subst hjk
      refine ⟨k, hk, i, rfl, hlt, hj, ?_, hpassed.mono hgrows⟩
      rw [Function.update_self, c.key_ofKey k (hvalid k hk)]
    · rw [Function.update_of_ne hjk] at hj
      obtain ⟨k', hk', i', hslot', hat⟩ := h.cell j hj
      exact ⟨k', hk', i', hslot', hat.mono hgrows⟩
  · intro k'
    have hle := h.le k'
    rw [hwaiting] at hle
    omega
  · intro k' hk'
    have honce := h.once k' hk'
    have hiff := hcell (fun _ => True) k'
    simp only [and_true] at hiff
    rw [hiff, honce, hwaiting]
    by_cases heq : k' = k
    · subst heq
      simp only [true_or, true_iff]
      omega
    · simp [heq, Ne.symm heq]
  · intro k' hk'
    have htwice := h.twice k' hk'
    rw [hwaiting] at htwice
    simp only [Multiset.mem_cons, reduceCtorEq, false_or] at htwice
    rw [hcell (fun w => c.marked w = true) k']
    by_cases heq : k' = k
    · subst heq
      rw [c.marked_ofKey k' (hvalid k' hk), if_pos rfl] at *
      simp only [Bool.false_eq_true, and_false, false_or, htwice]
      omega
    · rw [if_neg (Ne.symm heq), Nat.add_zero] at htwice
      simpa [heq] using htwice

/-- A task marks its key. -/
theorem Inv.marked (h : Inv c size slot keys (.mark k i ::ₘ rest) table) :
    Inv c size slot keys rest
      (Function.update table (slot k i) (c.mark (table (slot k i)))) := by
  have hat := h.marking k i (Multiset.mem_cons_self _ _)
  have hgrows : Grows c table (Function.update table (slot k i) (c.mark (table (slot k i)))) := by
    intro j hj
    by_cases hjk : j = slot k i
    · subst hjk
      rw [Function.update_self]
      exact ⟨c.mark_ne_empty _, c.key_mark _⟩
    · rw [Function.update_of_ne hjk]
      exact ⟨hj, rfl⟩
  have hwas : ∀ j, Function.update table (slot k i) (c.mark (table (slot k i))) j ≠ c.empty →
      table j ≠ c.empty := by
    intro j hj
    by_cases hjk : j = slot k i
    · subst hjk
      exact hat.ne_empty
    · rwa [Function.update_of_ne hjk] at hj
  have hwaiting : ∀ k', waiting (.mark k i ::ₘ rest) k' = waiting rest k' := by
    intro k'
    rw [waiting_cons]
    simp [Insert.counts]
  refine ⟨fun k' i' hmem => h.mem k' i' (hmem.imp Multiset.mem_cons_of_mem
    Multiset.mem_cons_of_mem), ?_, ?_, ?_, ?_, ?_, ?_⟩
  · intro k' i' hmem
    obtain ⟨hlt', hpassed'⟩ := h.passed k' i' (hmem.imp Multiset.mem_cons_of_mem
      Multiset.mem_cons_of_mem)
    exact ⟨hlt', hpassed'.mono hgrows⟩
  · exact fun k' i' hmem => (h.marking k' i' (Multiset.mem_cons_of_mem hmem)).mono hgrows
  · intro j hj
    obtain ⟨k', hk', i', hslot', hat'⟩ := h.cell j (hwas j hj)
    exact ⟨k', hk', i', hslot', hat'.mono hgrows⟩
  · exact fun k' => (hwaiting k').symm.trans_le (h.le k')
  · intro k' hk'
    rw [← hwaiting, ← h.once k' hk']
    constructor
    · rintro ⟨j, hj, hkey⟩
      exact ⟨j, hwas j hj, (hgrows j (hwas j hj)).2 ▸ hkey⟩
    · rintro ⟨j, hj, hkey⟩
      obtain ⟨hne, hsame⟩ := hgrows j hj
      exact ⟨j, hne, hsame.trans hkey⟩
  · intro k' hk'
    rw [← hwaiting, ← h.twice k' hk']
    constructor
    · rintro (⟨j, hj, hkey, hmarked⟩ | ⟨i', hmem⟩)
      · by_cases hjk : j = slot k i
        · subst hjk
          rw [Function.update_self, c.key_mark, hat.key_eq] at hkey
          exact .inr ⟨i, hkey ▸ Multiset.mem_cons_self _ _⟩
        · rw [Function.update_of_ne hjk] at hj hkey hmarked
          exact .inl ⟨j, hj, hkey, hmarked⟩
      · exact .inr ⟨i', Multiset.mem_cons_of_mem hmem⟩
    · have hmarked : ∃ j, Function.update table (slot k i) (c.mark (table (slot k i))) j ≠ c.empty ∧
          c.key (Function.update table (slot k i) (c.mark (table (slot k i))) j) = k ∧
          c.marked (Function.update table (slot k i) (c.mark (table (slot k i))) j) = true := by
        refine ⟨slot k i, ?_⟩
        rw [Function.update_self, c.key_mark]
        exact ⟨c.mark_ne_empty _, hat.key_eq, c.marked_mark _⟩
      rintro (⟨j, hj, hkey, hwasMarked⟩ | ⟨i', hmem⟩)
      · by_cases hjk : j = slot k i
        · subst hjk
          obtain rfl : k = k' := hat.key_eq.symm.trans hkey
          exact .inl hmarked
        · refine .inl ⟨j, ?_⟩
          rw [Function.update_of_ne hjk]
          exact ⟨hj, hkey, hwasMarked⟩
      · rcases Multiset.mem_cons.mp hmem with heq | hmem
        · cases heq
          exact .inl hmarked
        · exact .inr ⟨i', hmem⟩

/-! ## Runs -/

theorem inv_start (hsize : 0 < size) :
    Inv c size slot keys (keys.map fun k => .look k 0) fun _ => c.empty := by
  have hwaiting : ∀ k, waiting (keys.map fun k => .look k 0) k = keys.count k := by
    intro k
    rw [waiting, Multiset.countP_map, Multiset.count_eq_card_filter_eq]
    congr 1
    apply Multiset.filter_congr
    intro k' _
    rw [Insert.counts, decide_eq_true_iff, eq_comm]
  have hlook : ∀ k i, .look k i ∈ keys.map (fun k => Insert.look k 0) ∨
      .claim k i ∈ keys.map (fun k => Insert.look k 0) → k ∈ keys ∧ i = 0 := by
    rintro k i (hmem | hmem)
    · obtain ⟨k', hk', heq⟩ := Multiset.mem_map.mp hmem
      cases heq
      exact ⟨hk', rfl⟩
    · obtain ⟨k', -, heq⟩ := Multiset.mem_map.mp hmem
      cases heq
  have hmark : ∀ k i, .mark k i ∉ keys.map fun k => Insert.look k 0 := by
    intro k i hmem
    obtain ⟨k', -, heq⟩ := Multiset.mem_map.mp hmem
    cases heq
  refine ⟨fun k i hmem => (hlook k i hmem).1, ?_, fun k i hmem => absurd hmem (hmark k i),
    fun j hj => absurd rfl hj, fun k => (hwaiting k).le, ?_, ?_⟩
  · intro k i hmem
    obtain ⟨-, rfl⟩ := hlook k i hmem
    exact ⟨hsize, fun i' hi' => absurd hi' (Nat.not_lt_zero _)⟩
  · intro k _
    rw [hwaiting]
    simp
  · intro k _
    rw [hwaiting]
    simp [hmark]

variable [DecidableEq ω]

/-- What the table holds in the end. -/
theorem inv_of_completes (hsize : 0 < size) (hcard : keys.card ≤ size)
    (hvalid : ∀ k ∈ keys, c.Valid k)
    (hslot : ∀ k ∈ keys, ∀ i < size, ∀ i' < size, slot k i = slot k i' → i = i')
    (h : Completes (step c size slot) (keys.map fun k => .look k 0) (fun _ => c.empty) table) :
    Inv c size slot keys 0 table := by
  refine h.invariant (inv_start hsize) ?_
  rintro (⟨k, i⟩ | ⟨k, i⟩ | ⟨k, i⟩) rest table hinv
  · have hpassed := hinv.passed k i (.inl (Multiset.mem_cons_self _ _))
    rw [step]
    split_ifs with hkey hempty
    · exact hinv.found (.inl rfl) hvalid hkey
    · exact hinv.moved (.inl rfl) (.inr rfl) hpassed.1 hpassed.2
    · exact hinv.advanced (.inl rfl) hcard hslot hempty hkey
  · rw [step]
    split_ifs with hempty hkey
    · rw [zero_add]
      exact hinv.claimed hvalid hempty
    · exact hinv.found (.inr rfl) hvalid hkey
    · exact hinv.advanced (.inr rfl) hcard hslot hempty hkey
  · rw [step, zero_add]
    exact hinv.marked

omit [DecidableEq ω] in
/-- In the end every key has its cell. -/
theorem Inv.exists_at (h : Inv c size slot keys 0 table) (hk : k ∈ keys) :
    ∃ i, At c size slot table k i := by
  obtain ⟨j, hj, hkey⟩ := (h.once k hk).mpr (Multiset.count_pos.mpr hk)
  obtain ⟨k', -, i, rfl, hat⟩ := h.cell j hj
  obtain rfl : k' = k := hat.key_eq.symm.trans hkey
  exact ⟨i, hat⟩

/-- Looking up a key passes the places before its own. -/
theorem findFrom_eq {left probe : ℕ} (h : At c size slot table k (probe + i)) (hi : i < left) :
    findFrom c slot table k left probe = c.marked (table (slot k (probe + i))) := by
  induction i generalizing left probe with
  | zero =>
    obtain ⟨left, rfl⟩ := Nat.exists_eq_succ_of_ne_zero (Nat.ne_of_gt hi)
    rw [Nat.add_zero] at h ⊢
    rw [findFrom, if_pos h.key_eq]
  | succ i ih =>
    obtain ⟨left, rfl⟩ := Nat.exists_eq_succ_of_ne_zero (Nat.ne_of_gt (Nat.zero_lt_of_lt hi))
    obtain ⟨hne, hkey⟩ := h.passed probe (by omega)
    rw [findFrom, if_neg hkey, if_neg hne]
    rw [Nat.add_comm i, ← Nat.add_assoc] at h ⊢
    exact ih h (by omega)

/-- **Looking up an inserted key tells whether it was inserted twice**, under every schedule. -/
theorem find_iff (hsize : 0 < size) (hcard : keys.card ≤ size)
    (hvalid : ∀ k ∈ keys, c.Valid k)
    (hslot : ∀ k ∈ keys, ∀ i < size, ∀ i' < size, slot k i = slot k i' → i = i')
    (h : Completes (step c size slot) (keys.map fun k => .look k 0) (fun _ => c.empty) table)
    (hk : k ∈ keys) : find c size slot table k = true ↔ 2 ≤ keys.count k := by
  have hinv := inv_of_completes hsize hcard hvalid hslot h
  obtain ⟨i, hat⟩ := hinv.exists_at hk
  have htwice := hinv.twice k hk
  rw [show waiting (0 : Multiset (Insert κ)) k = 0 from rfl, or_iff_left (by simp)] at htwice
  have hfind : find c size slot table k = c.marked (table (slot k i)) := by
    have hat' := hat
    rw [← Nat.zero_add i] at hat'
    rw [find, findFrom_eq hat' hat.lt, Nat.zero_add]
  rw [hfind]
  constructor
  · exact fun hmarked => htwice.mp ⟨_, hat.ne_empty, hat.key_eq, hmarked⟩
  · intro hcount
    obtain ⟨j, hj, hkey, hmarked⟩ := htwice.mpr hcount
    rwa [hinv.cell_unique hat.ne_empty hj (hat.key_eq.trans hkey.symm)]

/-- Inserting tasks can be run to their end. -/
theorem exists_completes_inserts (c : Cells κ ω) (size : ℕ) (slot : κ → ℕ → ℕ)
    (tasks : Multiset (Insert κ)) (table : ℕ → ω) :
    ∃ table', Completes (step c size slot) tasks table table' := by
  refine exists_completes (fun t => match t with
    | .look _ i => 2 * (size - i) + 3
    | .claim _ i => 2 * (size - i) + 2
    | .mark _ _ => 1) ?_ tasks table
  have hadvance : ∀ (k : κ) i, ((advance size k i).map (fun t => match t with
      | Insert.look _ i => 2 * (size - i) + 3
      | .claim _ i => 2 * (size - i) + 2
      | .mark _ _ => 1)).sum < 2 * (size - i) + 2 := by
    intro k i
    rw [advance]
    split_ifs with hroom
    · simp only [Multiset.map_singleton, Multiset.sum_singleton]
      omega
    · simp
  rintro (⟨k, i⟩ | ⟨k, i⟩ | ⟨k, i⟩) table
  · simp only [step]
    split_ifs
    · simp
    · simp
    · exact (hadvance k i).trans (by omega)
  · simp only [step]
    split_ifs
    · simp
    · simp
    · exact hadvance k i
  · simp [step]

end

end MoMiner.ProbeTable
