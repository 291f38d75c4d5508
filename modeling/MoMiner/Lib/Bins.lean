import Mathlib.Data.List.Nodup
import Mathlib.Data.List.Perm.Basic
import Mathlib.Logic.Function.Basic
import Mathlib.Tactic.Ring

/-!
# Chained bins

Indices `0, 1, …` are put into bins one after the other. A bin is a chain through an array of links;
a link is an index plus one, and zero ends the chain. The chain of a bin lists its indices from the
last to the first.

Main result: `chain_build`.
-/

namespace MoMiner.Bins

/-- The first link of each bin and the link after each index. -/
structure Table where
  head : ℕ → ℕ
  next : ℕ → ℕ

def Table.insert (bin : ℕ → ℕ) (table : Table) (i : ℕ) : Table where
  head := Function.update table.head (bin i) (i + 1)
  next := Function.update table.next i (table.head (bin i))

theorem head_insert (bin : ℕ → ℕ) (table : Table) (i : ℕ) :
    (table.insert bin i).head = Function.update table.head (bin i) (i + 1) := rfl

theorem next_insert (bin : ℕ → ℕ) (table : Table) (i : ℕ) :
    (table.insert bin i).next = Function.update table.next i (table.head (bin i)) := rfl

/-- The bins of the first `count` indices. -/
def Table.build (bin : ℕ → ℕ) (count : ℕ) : Table :=
  (List.range count).foldl (Table.insert bin) ⟨fun _ => 0, fun _ => 0⟩

/-- The indices of a chain; `none` if it has not ended after `fuel` steps. -/
def chain (next : ℕ → ℕ) : ℕ → ℕ → Option (List ℕ)
  | _, 0 => some []
  | 0, _ + 1 => none
  | fuel + 1, i + 1 => (chain next fuel (next i)).map (i :: ·)

theorem chain_congr {next next' : ℕ → ℕ} {fuel link : ℕ} {l : List ℕ}
    (h : chain next fuel link = some l) (heq : ∀ i ∈ l, next' i = next i) :
    chain next' fuel link = some l := by
  induction fuel generalizing link l with
  | zero =>
    cases link with
    | zero => exact h
    | succ i => cases h
  | succ fuel ih =>
    cases link with
    | zero => exact h
    | succ i =>
      rw [chain, Option.map_eq_some_iff] at h
      obtain ⟨rest, hrest, rfl⟩ := h
      rw [List.forall_mem_cons] at heq
      rw [chain, heq.1, ih hrest heq.2]
      rfl

theorem chain_succ_fuel {next : ℕ → ℕ} {fuel link : ℕ} {l : List ℕ}
    (h : chain next fuel link = some l) : chain next (fuel + 1) link = some l := by
  induction fuel generalizing link l with
  | zero =>
    cases link with
    | zero => exact h
    | succ i => cases h
  | succ fuel ih =>
    cases link with
    | zero => exact h
    | succ i =>
      rw [chain, Option.map_eq_some_iff] at h
      obtain ⟨rest, hrest, rfl⟩ := h
      rw [chain, ih hrest]
      rfl

/-- The members of a bin, from the last to the first. -/
def members (bin : ℕ → ℕ) (count b : ℕ) : List ℕ :=
  (List.range count).reverse.filter fun i => bin i = b

theorem lt_of_mem_members {bin : ℕ → ℕ} {count b i : ℕ} (h : i ∈ members bin count b) :
    i < count := by
  simpa using (List.mem_filter.mp h).1

/-- **The chain of a bin lists its members.** -/
theorem chain_build (bin : ℕ → ℕ) (count b : ℕ) :
    chain (Table.build bin count).next count ((Table.build bin count).head b) =
      some (members bin count b) := by
  induction count generalizing b with
  | zero => rfl
  | succ count ih =>
    have hbuild : Table.build bin (count + 1) = (Table.build bin count).insert bin count := by
      simp [Table.build, List.range_succ]
    have hmembers : members bin (count + 1) b =
        if bin count = b then count :: members bin count b else members bin count b := by
      by_cases h : bin count = b
      · simp [members, List.range_succ, h]
      · simp [members, List.range_succ, h]
    -- The links of the older members are as they were.
    have hold : chain ((Table.build bin count).insert bin count).next count
        ((Table.build bin count).head b) = some (members bin count b) :=
      chain_congr (ih b) fun i hi =>
        Function.update_of_ne (Nat.ne_of_lt (lt_of_mem_members hi)) _ _
    rw [hbuild, hmembers]
    by_cases h : bin count = b
    · subst h
      rw [if_pos rfl, head_insert, Function.update_self, chain]
      nth_rewrite 2 [next_insert]
      rw [Function.update_self, hold]
      rfl
    · rw [if_neg h, head_insert, Function.update_of_ne (Ne.symm h)]
      exact chain_succ_fuel hold

/-! ## Pairs of indices -/

/-- The pairs of indices below `n`, the larger index first. -/
def pairsBelow (n : ℕ) : List (ℕ × ℕ) :=
  (List.range n).flatMap fun a => (List.range a).map fun b => (a, b)

theorem mem_pairsBelow {n : ℕ} {p : ℕ × ℕ} : p ∈ pairsBelow n ↔ p.1 < n ∧ p.2 < p.1 := by
  simp only [pairsBelow, List.mem_flatMap, List.mem_map, List.mem_range]
  constructor
  · rintro ⟨a, ha, b, hb, rfl⟩
    exact ⟨ha, hb⟩
  · rintro ⟨ha, hb⟩
    exact ⟨p.1, ha, p.2, hb, rfl⟩

theorem nodup_pairsBelow (n : ℕ) : (pairsBelow n).Nodup := by
  refine List.nodup_flatMap.mpr ⟨fun a _ => ?_, ?_⟩
  · exact List.nodup_range.map fun b c h => (Prod.mk.inj h).2
  · refine List.nodup_range.imp fun {a a'} hne p hp hp' => hne ?_
    obtain ⟨b, -, rfl⟩ := List.mem_map.mp hp
    obtain ⟨b', -, h⟩ := List.mem_map.mp hp'
    exact (Prod.mk.inj h).1.symm

theorem length_pairsBelow (n : ℕ) : 2 * (pairsBelow n).length = n * (n - 1) := by
  induction n with
  | zero => rfl
  | succ n ih =>
    have hstep : (pairsBelow (n + 1)).length = (pairsBelow n).length + n := by
      simp [pairsBelow, List.range_succ]
    rw [hstep, Nat.mul_add, ih, Nat.add_sub_cancel]
    cases n with
    | zero => rfl
    | succ n =>
      rw [Nat.add_sub_cancel]
      ring

/-- The members of an index's bin before it are, in another order, the smaller indices of the bin. -/
theorem members_filterMap_perm {α : Type} {bin : ℕ → ℕ} {count a : ℕ} (ha : a < count)
    {f : ℕ → Option α} (hf : ∀ b, bin b ≠ bin a → f b = none) :
    List.Perm ((members bin count (bin a)).filterMap fun b => if a ≤ b then none else f b)
      ((List.range a).filterMap f) := by
  have hrange : List.range count = List.range a ++ (List.range (count - a)).map (a + ·) := by
    rw [← List.range_add, Nat.add_sub_cancel' ha.le]
  rw [members, List.filterMap_filter]
  refine ((List.reverse_perm _).filterMap _).trans ?_
  rw [hrange, List.filterMap_append]
  have hlow : (List.range a).filterMap (fun b => if decide (bin b = bin a) = true then
      (if a ≤ b then none else f b) else none) = (List.range a).filterMap f := by
    refine List.filterMap_congr fun b hb => ?_
    rw [if_neg (Nat.not_le.mpr (List.mem_range.mp hb))]
    by_cases h : bin b = bin a
    · rw [if_pos (decide_eq_true h)]
    · rw [if_neg (by simp [h]), hf b h]
  have hhigh : ((List.range (count - a)).map (a + ·)).filterMap (fun b =>
      if decide (bin b = bin a) = true then (if a ≤ b then none else f b) else none) = [] := by
    refine List.filterMap_eq_nil_iff.mpr fun b hb => ?_
    obtain ⟨c, -, rfl⟩ := List.mem_map.mp hb
    simp
  rw [hlow, hhigh, List.append_nil]

end MoMiner.Bins
