import Mathlib.Data.Nat.Bitwise
import MoMiner.Lib.Survivors
import MoMiner.Lib.Tasks

/-!
# Saturating counters in two bit planes

Tasks count numbers up to two. A number is counted by setting its bit in the first plane; a task
that finds the bit set goes on to set the bit of the second plane. The planes lie one after the
other in an array of 32-bit words, and every access is one atomic `or`.

Whatever the schedule, the second plane ends up with the numbers that were counted at least twice
(`degreeTwo_iff`).
-/

namespace MoMiner.Planes

/-- A task: count a number, or mark it as counted before. -/
inductive Mark
  | first (id : ℕ)
  | again (id : ℕ)
deriving DecidableEq

/-- The bit of a number in its word. -/
def mask (id : ℕ) : UInt32 :=
  1 <<< UInt32.ofNat (id % 32)

/-- One atomic `or`. The second plane starts at the word `words`. -/
def step (words : ℕ) : Mark → (ℕ → UInt32) → Multiset Mark × (ℕ → UInt32)
  | .first id, counters =>
    (if counters (id / 32) &&& mask id > 0 then {.again id} else 0,
      Function.update counters (id / 32) (counters (id / 32) ||| mask id))
  | .again id, counters =>
    (0, Function.update counters (id / 32 + words) (counters (id / 32 + words) ||| mask id))

/-- The bit of the second plane. -/
def degreeTwo (words : ℕ) (counters : ℕ → UInt32) (id : ℕ) : Bool :=
  counters (id / 32 + words) &&& mask id > 0

/-! ## Bits of words -/

/-- The bit of a number in a word. -/
def bit (word : UInt32) (id : ℕ) : Bool :=
  word.toNat.testBit (id % 32)

theorem toNat_mask (id : ℕ) : (mask id).toNat = 2 ^ (id % 32) := by
  have hlt : id % 32 < 32 := Nat.mod_lt _ (by decide)
  have hpow : 2 ^ (id % 32) < 2 ^ 32 := Nat.pow_lt_pow_right (by decide) hlt
  have hword : id % 32 < 2 ^ 32 := hlt.trans (by decide)
  rw [mask, UInt32.toNat_shiftLeft, UInt32.toNat_ofNat', Nat.mod_eq_of_lt hword,
    Nat.mod_eq_of_lt hlt, Nat.shiftLeft_eq, UInt32.toNat_one, Nat.one_mul, Nat.mod_eq_of_lt hpow]

theorem and_mask_pos {word : UInt32} {id : ℕ} : word &&& mask id > 0 ↔ bit word id = true := by
  rw [gt_iff_lt, UInt32.lt_iff_toNat_lt, UInt32.toNat_and, toNat_mask, UInt32.toNat_zero, bit,
    Nat.and_two_pow]
  cases word.toNat.testBit (id % 32) <;> simp [Nat.two_pow_pos]

theorem bit_or_mask (word : UInt32) (id id' : ℕ) :
    bit (word ||| mask id) id' = (bit word id' || decide (id % 32 = id' % 32)) := by
  rw [bit, UInt32.toNat_or, toNat_mask, Nat.testBit_or, Nat.testBit_two_pow, bit]

theorem bit_zero (id : ℕ) : bit 0 id = false := by
  rw [bit, UInt32.toNat_zero, Nat.zero_testBit]

/-- Setting the bit of a number in its word of a plane sets no other bit. -/
theorem bit_update (counters : ℕ → UInt32) (plane id id' : ℕ) :
    bit (Function.update counters (id / 32 + plane) (counters (id / 32 + plane) ||| mask id)
      (id' / 32 + plane)) id' = (bit (counters (id' / 32 + plane)) id' || decide (id = id')) := by
  by_cases hword : id' / 32 = id / 32
  · rw [hword, Function.update_self, bit_or_mask]
    congr 1
    exact decide_eq_decide.mpr (by omega)
  · have hne : id ≠ id' := by
      rintro rfl
      exact hword rfl
    rw [Function.update_of_ne (by omega), decide_eq_false hne, Bool.or_false]

theorem bit_update_of_ne (counters : ℕ → UInt32) {i j : ℕ} (h : i ≠ j) (word : UInt32) (id : ℕ) :
    bit (Function.update counters i word j) id = bit (counters j) id := by
  rw [Function.update_of_ne h.symm]

/-! ## The invariant -/

variable {words : ℕ} {ids : Multiset ℕ}

/-- A number that still waits to be counted `n` times out of its total has its first bit if it was
counted, and its second bit, or a task that will set it, if it was counted twice. -/
structure Inv (words : ℕ) (ids : Multiset ℕ) (tasks : Multiset Mark) (counters : ℕ → UInt32) :
    Prop where
  lt : ∀ id, .first id ∈ tasks ∨ .again id ∈ tasks → id < 32 * words
  le : ∀ id, tasks.count (.first id) ≤ ids.count id
  first : ∀ id < 32 * words,
    bit (counters (id / 32)) id = true ↔ tasks.count (.first id) < ids.count id
  again : ∀ id < 32 * words,
    bit (counters (id / 32 + words)) id = true ∨ .again id ∈ tasks ↔
      tasks.count (.first id) + 1 < ids.count id

theorem inv_start (h : ∀ id ∈ ids, id < 32 * words) :
    Inv words ids (ids.map .first) fun _ => 0 := by
  have hcount : ∀ id, (ids.map Mark.first).count (.first id) = ids.count id := fun id =>
    Multiset.count_map_eq_count' _ _ (fun _ _ => Mark.first.inj) id
  have hagain : ∀ id, Mark.again id ∉ ids.map Mark.first := by
    intro id hmem
    obtain ⟨_, -, heq⟩ := Multiset.mem_map.mp hmem
    cases heq
  refine ⟨?_, fun id => (hcount id).le, ?_, ?_⟩
  · rintro id (hmem | hmem)
    · obtain ⟨id', hid', heq⟩ := Multiset.mem_map.mp hmem
      cases heq
      exact h id hid'
    · exact absurd hmem (hagain id)
  · intro id _
    rw [bit_zero, hcount]
    simp
  · intro id _
    rw [bit_zero, hcount]
    simp [hagain id]

theorem Inv.first_step {id : ℕ} {rest : Multiset Mark} {counters : ℕ → UInt32}
    (h : Inv words ids (.first id ::ₘ rest) counters) :
    Inv words ids ((step words (.first id) counters).1 + rest)
      (step words (.first id) counters).2 := by
  have hid : id < 32 * words := h.lt id (.inl (Multiset.mem_cons_self _ _))
  have hagain : ∀ id', Mark.again id' ∈ (step words (.first id) counters).1 ↔
      id' = id ∧ bit (counters (id / 32)) id = true := by
    intro id'
    simp only [step, and_mask_pos]
    split_ifs with hbit <;> simp [hbit]
  have hfirst : ∀ id', (step words (.first id) counters).1.count (.first id') = 0 := by
    intro id'
    simp only [step]
    split_ifs <;> simp
  have hplane : ∀ id' < 32 * words, id / 32 ≠ id' / 32 + words := by
    intro id' hid'
    omega
  refine ⟨?_, ?_, ?_, ?_⟩
  · rintro id' (hmem | hmem)
    · rcases Multiset.mem_add.mp hmem with hmem | hmem
      · exact absurd (hfirst id') (Multiset.count_pos.mpr hmem).ne'
      · exact h.lt id' (.inl (Multiset.mem_cons_of_mem hmem))
    · rcases Multiset.mem_add.mp hmem with hmem | hmem
      · rw [((hagain id').mp hmem).1]
        exact hid
      · exact h.lt id' (.inr (Multiset.mem_cons_of_mem hmem))
  · intro id'
    rw [Multiset.count_add, hfirst, zero_add]
    exact (Multiset.count_le_count_cons _ _ _).trans (h.le id')
  · intro id' hid'
    have hbefore := h.first id' hid'
    have hle := h.le id'
    rw [Multiset.count_add, hfirst, zero_add]
    rw [Multiset.count_cons] at hbefore hle
    have hbit := bit_update counters 0 id id'
    rw [Nat.add_zero, Nat.add_zero] at hbit
    simp only [step, hbit, Bool.or_eq_true, hbefore, decide_eq_true_eq, Mark.first.injEq]
    simp only [Mark.first.injEq] at hle
    by_cases heq : id = id'
    · simp only [heq, or_true, true_iff]
      rw [if_pos heq.symm] at hle
      omega
    · simp [heq, Ne.symm heq]
  · intro id' hid'
    have hbefore := h.again id' hid'
    have hone := h.first id' hid'
    rw [Multiset.count_add, hfirst, zero_add, Multiset.mem_add, hagain]
    rw [Multiset.count_cons] at hbefore hone
    simp only [Multiset.mem_cons, reduceCtorEq, false_or, Mark.first.injEq] at hbefore hone
    have hkeep : bit ((step words (.first id) counters).2 (id' / 32 + words)) id' =
        bit (counters (id' / 32 + words)) id' :=
      bit_update_of_ne counters (hplane id' hid') _ id'
    rw [hkeep]
    by_cases heq : id = id'
    · subst heq
      rw [if_pos rfl] at hbefore hone
      -- The task goes on exactly when its number was counted before.
      constructor
      · rintro (hbit | ⟨-, hbit⟩ | hmem)
        · have := hbefore.mp (.inl hbit)
          omega
        · have := hone.mp hbit
          omega
        · have := hbefore.mp (.inr hmem)
          omega
      · intro hcount
        exact .inr (.inl ⟨rfl, hone.mpr (by omega)⟩)
    · rw [if_neg (Ne.symm heq)] at hbefore
      simpa [Ne.symm heq] using hbefore

theorem Inv.again_step {id : ℕ} {rest : Multiset Mark} {counters : ℕ → UInt32}
    (h : Inv words ids (.again id ::ₘ rest) counters) :
    Inv words ids ((step words (.again id) counters).1 + rest)
      (step words (.again id) counters).2 := by
  have hid : id < 32 * words := h.lt id (.inr (Multiset.mem_cons_self _ _))
  have hcount : ∀ id', (Mark.again id ::ₘ rest).count (.first id') = rest.count (.first id') :=
    fun id' => Multiset.count_cons_of_ne (by simp) _
  simp only [step, zero_add]
  refine ⟨?_, fun id' => hcount id' ▸ h.le id', ?_, ?_⟩
  · intro id' hmem
    exact h.lt id' (hmem.imp Multiset.mem_cons_of_mem Multiset.mem_cons_of_mem)
  · intro id' hid'
    rw [bit_update_of_ne counters (by omega), h.first id' hid', hcount]
  · intro id' hid'
    have hbefore := h.again id' hid'
    rw [hcount, Multiset.mem_cons] at hbefore
    rw [bit_update, ← hbefore]
    by_cases heq : id = id'
    · simp [heq]
    · simp [heq, Ne.symm heq]

/-- **The second plane holds the numbers counted at least twice**, under every schedule. -/
theorem degreeTwo_iff {counters : ℕ → UInt32}
    (h : Completes (step words) (ids.map .first) (fun _ => 0) counters)
    (hids : ∀ id ∈ ids, id < 32 * words) {id : ℕ} (hid : id < 32 * words) :
    degreeTwo words counters id = true ↔ 2 ≤ ids.count id := by
  have hinv : Inv words ids 0 counters := by
    refine h.invariant (inv_start hids) ?_
    rintro (id | id) rest s hs
    · exact hs.first_step
    · exact hs.again_step
  rw [degreeTwo, decide_eq_true_iff, and_mask_pos]
  have hagain := hinv.again id hid
  rwa [Multiset.count_zero, Nat.zero_add, or_iff_left (Multiset.notMem_zero _)] at hagain

/-- The elements that pass the test of the second plane are those whose number occurs twice. -/
theorem filter_degreeTwo {α : Type*} {m : Multiset α} {number : α → ℕ} {counters : ℕ → UInt32}
    (h : Completes (step words) (m.map fun e => .first (number e)) (fun _ => 0) counters)
    (hnumber : ∀ e ∈ m, number e < 32 * words) :
    m.filter (fun e => degreeTwo words counters (number e) = true) = survivors number m := by
  apply Multiset.filter_congr
  intro e he
  rw [← count_map_eq_degree]
  refine degreeTwo_iff ?_ ?_ (hnumber e he)
  · rwa [Multiset.map_map]
  · intro id hid
    obtain ⟨e', he', rfl⟩ := Multiset.mem_map.mp hid
    exact hnumber e' he'

/-- Counting tasks can be run to their end. -/
theorem exists_completes_marks (words : ℕ) (tasks : Multiset Mark) (counters : ℕ → UInt32) :
    ∃ counters', Completes (step words) tasks counters counters' := by
  refine exists_completes (fun t => match t with | .first _ => 2 | .again _ => 1) ?_ tasks counters
  rintro (id | id) s
  · simp only [step]
    split_ifs <;> simp
  · simp [step]

end MoMiner.Planes
