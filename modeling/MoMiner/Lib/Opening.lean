import Mathlib.Data.Finset.Powerset
import Mathlib.Data.Finset.Sort
import MoMiner.Lib.LeftTree

/-!
# Openings of a tree

An opening reveals some leaves of a tree with a full left half, together with the nodes that are
needed to recompute its root. The check goes up level by level: the known nodes of a level stand in
ascending order, a node is joined with its known partner or with the next sibling of the opening, and
an unpaired last node is carried.

Main result: `climb_step` and `climb_top`, by which the partners of the known nodes are exactly the
siblings that the check takes.
-/

namespace MoMiner.LeftTree

section Check

variable {α β : Type}

/-- Go up from a node without a known partner. -/
def climbOne (f : α → α → α) (width i : ℕ) (x : α) (siblings : List α) :
    Option ((ℕ × α) × List α) :=
  if i % 2 = 1 then siblings.head?.map fun s => ((i / 2, f s x), siblings.tail)
  else if i + 1 < width then siblings.head?.map fun s => ((i / 2, f x s), siblings.tail)
  else some ((i / 2, x), siblings)

/-- The known nodes of the next level, and the siblings that are left. -/
def climbLevel (f : α → α → α) (width : ℕ) :
    List (ℕ × α) → List α → Option (List (ℕ × α) × List α)
  | [], siblings => some ([], siblings)
  | [(i, x)], siblings => do
    let (parent, siblings) ← climbOne f width i x siblings
    some ([parent], siblings)
  | (i, x) :: (j, y) :: nodes, siblings =>
    if i % 2 = 0 ∧ j = i + 1 then do
      let (parents, siblings) ← climbLevel f width nodes siblings
      some ((i / 2, f x y) :: parents, siblings)
    else do
      let (parent, siblings) ← climbOne f width i x siblings
      let (parents, siblings) ← climbLevel f width ((j, y) :: nodes) siblings
      some (parent :: parents, siblings)

/-- The topmost node, when all siblings are used. -/
def climbTop (g : α → α → β) : List (ℕ × α) → List α → Option β
  | [(0, left), (1, right)], [] => some (g left right)
  | [(0, left)], [right] => some (g left right)
  | [(1, right)], [left] => some (g left right)
  | _, _ => none

/-- The root that an opening leads to, when it uses all its siblings; the topmost node is computed
by `g`. -/
def climb (f : α → α → α) (g : α → α → β) (width : ℕ) (nodes : List (ℕ × α)) (siblings : List α) :
    Option β :=
  if _h : 2 < width then do
    let (nodes, siblings) ← climbLevel f width nodes siblings
    climb f g ((width + 1) / 2) nodes siblings
  else climbTop g nodes siblings
termination_by width
decreasing_by omega

/-- The partner of a node, when it exists and is not among the known nodes. -/
def partner (cur : Finset ℕ) (width i : ℕ) : Option ℕ :=
  if i % 2 = 1 then if i - 1 ∈ cur then none else some (i - 1)
  else if i + 1 ∉ cur ∧ i + 1 < width then some (i + 1) else none

/-- The parent of two neighbours, or an unpaired last node. -/
def joined (f : α → α → α) (width : ℕ) (value : ℕ → α) (i : ℕ) : α :=
  if 2 * i + 1 < width then f (value (2 * i)) (value (2 * i + 1)) else value (2 * i)

variable {f : α → α → α} {g : α → α → β} {width i : ℕ} {value : ℕ → α} {cur : Finset ℕ}
  {tail : List α}

theorem partner_of_known {j : ℕ} (hj : j ∈ cur) (hji : j / 2 = i / 2) (hne : j ≠ i) :
    partner cur width i = none := by
  rw [partner]
  by_cases hodd : i % 2 = 1
  · obtain rfl : j = i - 1 := by omega
    rw [if_pos hodd, if_pos hj]
  · obtain rfl : j = i + 1 := by omega
    rw [if_neg hodd, if_neg fun h => h.1 hj]

theorem partner_lt {j : ℕ} (hj : partner cur width i = some j) (hi : i < width) : j < width := by
  rw [partner] at hj
  split_ifs at hj with hodd hleft hright
  · obtain rfl := Option.some.inj hj
    omega
  · obtain rfl := Option.some.inj hj
    exact hright.2

theorem climbOne_partner (hi : i < width) (hcur : ∀ j ∈ cur, j / 2 = i / 2 → j = i) :
    climbOne f width i (value i) ((partner cur width i).toList.map value ++ tail) =
      some ((i / 2, joined f width value (i / 2)), tail) := by
  rw [climbOne, partner, joined]
  by_cases hodd : i % 2 = 1
  · have hleft : i - 1 ∉ cur := fun h => absurd (hcur _ h (by omega)) (by omega)
    rw [if_pos hodd, if_pos hodd, if_neg hleft, if_pos (by omega), show 2 * (i / 2) + 1 = i by omega,
      show 2 * (i / 2) = i - 1 by omega]
    rfl
  · have hright : i + 1 ∉ cur := fun h => absurd (hcur _ h (by omega)) (by omega)
    rw [if_neg hodd, if_neg hodd, show 2 * (i / 2) = i by omega]
    by_cases hlast : i + 1 < width
    · rw [if_pos hlast, if_pos ⟨hright, hlast⟩, if_pos hlast]
      rfl
    · rw [if_neg hlast, if_neg fun h => hlast h.2, if_neg hlast]
      rfl

theorem climbLevel_paired {x y : α} {nodes : List (ℕ × α)} {siblings : List α} (hi : i % 2 = 0) :
    climbLevel f width ((i, x) :: (i + 1, y) :: nodes) siblings =
      (climbLevel f width nodes siblings).map fun r => ((i / 2, f x y) :: r.1, r.2) := by
  rw [climbLevel, if_pos ⟨hi, rfl⟩]
  cases climbLevel f width nodes siblings <;> rfl

theorem climbLevel_unpaired {x : α} {nodes : List (ℕ × α)} {siblings : List α}
    (hi : ∀ node ∈ nodes, i % 2 = 0 → node.1 ≠ i + 1) :
    climbLevel f width ((i, x) :: nodes) siblings =
      (climbOne f width i x siblings).bind fun one =>
        (climbLevel f width nodes one.2).map fun r => (one.1 :: r.1, r.2) := by
  cases nodes with
  | nil =>
    rw [climbLevel]
    cases climbOne f width i x siblings <;> rfl
  | cons node nodes =>
    obtain ⟨j, y⟩ := node
    rw [climbLevel, if_neg fun h => hi (j, y) List.mem_cons_self h.1 h.2]
    cases climbOne f width i x siblings with
    | none => rfl
    | some one =>
      change (climbLevel f width ((j, y) :: nodes) one.2 >>= _) = _
      rw [Option.bind_some]
      cases climbLevel f width ((j, y) :: nodes) one.2 <;> rfl

/-- In an ascending list a node is followed by its partner, or its parent has no other child. -/
theorem ascending_cases {l : List ℕ} (hl : (i :: l).Pairwise (· < ·)) :
    (∃ rest, i % 2 = 0 ∧ l = (i + 1) :: rest) ∨ ∀ j ∈ l, j / 2 ≠ i / 2 := by
  obtain ⟨hi, hl⟩ := List.pairwise_cons.mp hl
  cases l with
  | nil => exact .inr (List.forall_mem_nil _)
  | cons j rest =>
    obtain ⟨hj, -⟩ := List.pairwise_cons.mp hl
    have hij := hi j List.mem_cons_self
    by_cases hpair : i % 2 = 0 ∧ j = i + 1
    · exact .inl ⟨rest, hpair.1, by rw [hpair.2]⟩
    · refine .inr (List.forall_mem_cons.mpr ⟨by omega, fun k hk => ?_⟩)
      have hjk := hj k hk
      omega

/-- **One level.** The partners of known nodes are the siblings that the check takes. -/
theorem climbLevel_partners {l : List ℕ} (hl : l.Pairwise (· < ·)) (hwidth : ∀ i ∈ l, i < width)
    (hcur : ∀ i ∈ l, ∀ j, j / 2 = i / 2 → (j ∈ cur ↔ j ∈ l)) :
    climbLevel f width (l.map fun i => (i, value i))
        ((l.filterMap (partner cur width)).map value ++ tail) =
      some ((l.map (· / 2)).dedup.map fun i => (i, joined f width value i), tail) := by
  induction hlength : l.length using Nat.strong_induction_on generalizing l with
  | _ n ih =>
    cases l with
    | nil => rfl
    | cons i l =>
      obtain ⟨hi, hl'⟩ := List.pairwise_cons.mp hl
      obtain ⟨hiw, hwidth⟩ := List.forall_mem_cons.mp hwidth
      rcases ascending_cases hl with ⟨rest, heven, rfl⟩ | hother
      · -- Both children are known: no sibling is taken.
        obtain ⟨hnext, hrest⟩ := List.pairwise_cons.mp hl'
        have hleft : partner cur width i = none :=
          partner_of_known ((hcur i List.mem_cons_self (i + 1) (by omega)).mpr (by simp)) (by omega)
            (by omega)
        have hright : partner cur width (i + 1) = none :=
          partner_of_known ((hcur i List.mem_cons_self i rfl).mpr List.mem_cons_self) (by omega)
            (by omega)
        have hcur' : ∀ k ∈ rest, ∀ j, j / 2 = k / 2 → (j ∈ cur ↔ j ∈ rest) := by
          intro k hk j hj
          have := hnext k hk
          rw [hcur k (by simp [hk]) j hj, List.mem_cons, List.mem_cons, or_iff_right (by omega),
            or_iff_right (by omega)]
        have hnot : i / 2 ∉ rest.map (· / 2) := by
          rw [List.mem_map]
          rintro ⟨k, hk, hki⟩
          have := hnext k hk
          omega
        have hjoined : joined f width value (i / 2) = f (value i) (value (i + 1)) := by
          have := hwidth (i + 1) List.mem_cons_self
          rw [joined, show 2 * (i / 2) = i by omega, if_pos this]
        rw [List.filterMap_cons_none hleft, List.filterMap_cons_none hright, List.map_cons,
          List.map_cons, climbLevel_paired heven, ih rest.length
          (by rw [← hlength, List.length_cons, List.length_cons]; omega) hrest
          (List.forall_mem_cons.mp hwidth).2 hcur' rfl, List.map_cons, List.map_cons,
          show (i + 1) / 2 = i / 2 by omega, List.dedup_cons_of_mem List.mem_cons_self,
          List.dedup_cons_of_notMem hnot, List.map_cons, hjoined]
        rfl
      · -- The partner is the next sibling, or the node is carried.
        have hcur' : ∀ k ∈ l, ∀ j, j / 2 = k / 2 → (j ∈ cur ↔ j ∈ l) := by
          intro k hk j hj
          have := hother k hk
          rw [hcur k (List.mem_cons_of_mem _ hk) j hj, List.mem_cons,
            or_iff_right fun h => this (by rw [← hj, h])]
        have hnot : i / 2 ∉ l.map (· / 2) := by
          rw [List.mem_map]
          rintro ⟨k, hk, hki⟩
          exact hother k hk hki
        have hone : ∀ j ∈ cur, j / 2 = i / 2 → j = i := by
          intro j hj hji
          rcases List.mem_cons.mp ((hcur i List.mem_cons_self j hji).mp hj) with h | h
          · exact h
          · exact absurd hji (hother j h)
        have hsplit : (i :: l).filterMap (partner cur width) =
            (partner cur width i).toList ++ l.filterMap (partner cur width) := by
          rw [List.filterMap_cons]
          cases partner cur width i <;> rfl
        rw [hsplit, List.map_append, List.append_assoc, List.map_cons, climbLevel_unpaired,
          climbOne_partner hiw hone, Option.bind_some, ih l.length (by simp [← hlength]) hl' hwidth
          hcur' rfl, List.map_cons, List.dedup_cons_of_notMem hnot, List.map_cons]
        · rfl
        · intro node hnode heven hnext
          obtain ⟨k, hk, rfl⟩ := List.mem_map.mp hnode
          exact hother k hk (by simp only at hnext; omega)

theorem joined_node {leaf : ℕ → α} {n level : ℕ} :
    joined f (LeftTree.width n level) (node f leaf n level) i = node f leaf n (level + 1) i := by
  rw [joined]
  split_ifs with h
  · rw [node_succ (lt_width.mp h)]
  · rw [lt_width, Nat.not_lt] at h
    rw [node_carry h]

/-- The known nodes of the next level, in ascending order. -/
theorem sort_image_half : (cur.image (· / 2)).sort = (cur.sort.map (· / 2)).dedup := by
  have hsorted : (cur.sort.map (· / 2)).dedup.Pairwise (· ≤ ·) := by
    refine List.Pairwise.sublist (List.dedup_sublist _) ?_
    exact (cur.pairwise_sort (· ≤ ·)).map _ fun a b hab => Nat.div_le_div_right hab
  have hset : (cur.sort.map (· / 2)).dedup.toFinset = cur.image (· / 2) := by
    ext i
    simp
  rw [← hset]
  exact (List.toFinset_sort (· ≤ ·) (List.nodup_dedup _)).mpr hsorted

/-- **The check goes up one level.** -/
theorem climb_step (hwidth : 2 < width) (hcur : ∀ i ∈ cur, i < width) :
    climb f g width (cur.sort.map fun i => (i, value i))
        ((cur.sort.filterMap (partner cur width)).map value ++ tail) =
      climb f g ((width + 1) / 2)
        ((cur.image (· / 2)).sort.map fun i => (i, joined f width value i)) tail := by
  rw [climb, dif_pos hwidth, climbLevel_partners cur.sortedLT_sort.pairwise
    (fun i hi => hcur i ((Finset.mem_sort _).mp hi)) fun i _ j _ => (Finset.mem_sort _).symm,
    sort_image_half]
  rfl

/-- **The check ends with the root.** -/
theorem climb_top (hcur : ∀ i ∈ cur, i < 2) (hne : cur.Nonempty) :
    climb f g 2 (cur.sort.map fun i => (i, value i))
        ((cur.sort.filterMap (partner cur 2)).map value) = some (g (value 0) (value 1)) := by
  have hcases : ∀ s ∈ (Finset.range 2).powerset,
      s.Nonempty → s = {0} ∨ s = {1} ∨ s = Finset.range 2 := by
    decide
  have hsub : cur ∈ (Finset.range 2).powerset :=
    Finset.mem_powerset.mpr fun i hi => Finset.mem_range.mpr (hcur i hi)
  rcases hcases cur hsub hne with rfl | rfl | rfl
  · rw [climb, dif_neg (by decide), Finset.sort_singleton]
    rfl
  · rw [climb, dif_neg (by decide), Finset.sort_singleton]
    rfl
  · rw [climb, dif_neg (by decide), Finset.sort_range]
    rfl

end Check

end MoMiner.LeftTree
