import Mathlib.Algebra.Group.Basic
import Mathlib.Algebra.Group.Units.Basic
import Mathlib.Data.List.Perm.Basic
import Mathlib.Data.List.Range
import Mathlib.Logic.Function.Basic
import Mathlib.Tactic.Ring

/-!
# Trees of products in an array

A full binary tree in an array: the children of the node at `k` are at `2 * k` and `2 * k + 1`, and
the leaves are the upper half. Products go up level by level; on the way down each node is replaced
by its inverse, made of the inverse of its parent and the product of its sibling. The lanes of a
level run one after the other, in any order.

Main results: `treeUp_spec` and `treeDown_spec`.
-/

namespace MoMiner.ProductTree

variable {α : Type*}

/-! ## Levels -/

section Levels

variable (f : α → α → α)

/-- What a lane of a level does on the way up. -/
def upLane (nodes : ℕ) (tree : ℕ → α) (lane : ℕ) : ℕ → α :=
  if lane < nodes then
    let node := nodes + lane
    Function.update tree node (f (tree (2 * node)) (tree (2 * node + 1)))
  else tree

/-- What a lane of a level does on the way down. -/
def downLane (nodes : ℕ) (tree : ℕ → α) (lane : ℕ) : ℕ → α :=
  if lane < nodes then
    let node := nodes + lane
    let inverse := tree node
    let left := tree (2 * node)
    let right := tree (2 * node + 1)
    Function.update (Function.update tree (2 * node) (f inverse right)) (2 * node + 1)
      (f inverse left)
  else tree

/-- The levels of `2 ^ w` leaves from the lowest to the root, each in the order of its lanes. -/
def treeUp (order : ℕ → List ℕ) : ℕ → (ℕ → α) → ℕ → α
  | 0, tree => tree
  | w + 1, tree => treeUp order w ((order w).foldl (upLane f (2 ^ w)) tree)

/-- The levels from the root to the leaves. -/
def treeDown (order : ℕ → List ℕ) : ℕ → (ℕ → α) → ℕ → α
  | 0, tree => tree
  | w + 1, tree => (order w).foldl (downLane f (2 ^ w)) (treeDown order w tree)

variable {f} {nodes k : ℕ} {tree : ℕ → α} {order : List ℕ}

theorem upLane_of_le {lane : ℕ} (hk : 2 * nodes ≤ k) : upLane f nodes tree lane k = tree k := by
  rw [upLane]
  split_ifs with hlane
  · exact Function.update_of_ne (by omega) _ _
  · rfl

theorem foldl_upLane_of_notMem (h : ∀ lane ∈ order, lane < nodes → nodes + lane ≠ k) :
    order.foldl (upLane f nodes) tree k = tree k := by
  induction order generalizing tree with
  | nil => rfl
  | cons lane order ih =>
    rw [List.foldl_cons, ih fun l hl => h l (List.mem_cons_of_mem _ hl), upLane]
    split_ifs with hlane
    · exact Function.update_of_ne (h lane List.mem_cons_self hlane).symm _ _
    · rfl

/-- **A level on the way up.** -/
theorem foldl_upLane {lane : ℕ} (hlane : lane < nodes) (hmem : lane ∈ order) :
    order.foldl (upLane f nodes) tree (nodes + lane) =
      f (tree (2 * (nodes + lane))) (tree (2 * (nodes + lane) + 1)) := by
  induction order generalizing tree with
  | nil => cases hmem
  | cons first order ih =>
    rw [List.foldl_cons]
    by_cases hrest : lane ∈ order
    · -- The children of a node of the level are not written in the level.
      rw [ih hrest, upLane_of_le (by omega), upLane_of_le (by omega)]
    · obtain rfl := (List.mem_cons.mp hmem).resolve_right hrest
      rw [foldl_upLane_of_notMem fun l hl _ heq => hrest (by
        obtain rfl : l = lane := by omega
        exact hl), upLane, if_pos hlane, Function.update_self]

theorem downLane_of_ne {lane : ℕ} (h : lane < nodes → k ≠ 2 * (nodes + lane))
    (h' : lane < nodes → k ≠ 2 * (nodes + lane) + 1) : downLane f nodes tree lane k = tree k := by
  rw [downLane]
  split_ifs with hlane
  · exact (Function.update_of_ne (h' hlane) _ _).trans (Function.update_of_ne (h hlane) _ _)
  · rfl

theorem foldl_downLane_of_ne (h : ∀ lane ∈ order, lane < nodes → k ≠ 2 * (nodes + lane))
    (h' : ∀ lane ∈ order, lane < nodes → k ≠ 2 * (nodes + lane) + 1) :
    order.foldl (downLane f nodes) tree k = tree k := by
  induction order generalizing tree with
  | nil => rfl
  | cons lane order ih =>
    rw [List.foldl_cons, ih (fun l hl => h l (List.mem_cons_of_mem _ hl))
      fun l hl => h' l (List.mem_cons_of_mem _ hl)]
    exact downLane_of_ne (h lane List.mem_cons_self) (h' lane List.mem_cons_self)

/-- **A level on the way down.** Every lane runs once. -/
theorem foldl_downLane {lane : ℕ} (hlane : lane < nodes) (hmem : lane ∈ order)
    (hnodup : order.Nodup) :
    order.foldl (downLane f nodes) tree (2 * (nodes + lane)) =
        f (tree (nodes + lane)) (tree (2 * (nodes + lane) + 1)) ∧
      order.foldl (downLane f nodes) tree (2 * (nodes + lane) + 1) =
        f (tree (nodes + lane)) (tree (2 * (nodes + lane))) := by
  induction order generalizing tree with
  | nil => cases hmem
  | cons first order ih =>
    rw [List.foldl_cons]
    obtain ⟨hfirst, hnodup⟩ := List.nodup_cons.mp hnodup
    by_cases hrest : lane ∈ order
    · have hne : first ≠ lane := fun h => hfirst (h ▸ hrest)
      obtain ⟨hleft, hright⟩ := @ih (downLane f nodes tree first) hrest hnodup
      rw [hleft, hright, downLane_of_ne (by omega) (by omega), downLane_of_ne (by omega) (by omega),
        downLane_of_ne (by omega) (by omega)]
      exact ⟨rfl, rfl⟩
    · obtain rfl := (List.mem_cons.mp hmem).resolve_right hrest
      have hother (l : ℕ) (hl : l ∈ order) : l ≠ lane := fun h => hrest (h ▸ hl)
      constructor
      · rw [foldl_downLane_of_ne (fun l hl _ => by have := hother l hl; omega)
          (fun l hl _ => by omega), downLane, if_pos hlane]
        exact (Function.update_of_ne (by omega) _ _).trans (Function.update_self ..)
      · rw [foldl_downLane_of_ne (fun l hl _ => by omega)
          (fun l hl _ => by have := hother l hl; omega), downLane, if_pos hlane]
        exact Function.update_self ..

end Levels

/-! ## The whole tree -/

/-- The order of the lanes in every level, on the way up and on the way down: each lane once. -/
structure Schedule (lanes : ℕ) where
  up : ℕ → List ℕ
  down : ℕ → List ℕ
  up_perm : ∀ level, (up level).Perm (List.range lanes)
  down_perm : ∀ level, (down level).Perm (List.range lanes)

variable {f : α → α → α} {w : ℕ} {tree : ℕ → α}

/-- **The way up.** Every inner node is the product of its children, the leaves are kept. -/
theorem treeUp_spec {lanes : ℕ} (s : Schedule lanes) (hw : 2 ^ w ≤ 2 * lanes) :
    (∀ k, 2 ^ w ≤ k → treeUp f s.up w tree k = tree k) ∧
      ∀ k, 0 < k → k < 2 ^ w → treeUp f s.up w tree k =
        f (treeUp f s.up w tree (2 * k)) (treeUp f s.up w tree (2 * k + 1)) := by
  induction w generalizing tree with
  | zero => exact ⟨fun k _ => rfl, fun k hpos hlt => by omega⟩
  | succ w ih =>
    rw [pow_succ] at hw ⊢
    obtain ⟨level, hlevel⟩ : ∃ level, level = (s.up w).foldl (upLane f (2 ^ w)) tree := ⟨_, rfl⟩
    obtain ⟨hkeep, hlaw⟩ := @ih level (by omega)
    have habove (k : ℕ) (hk : 2 ^ w * 2 ≤ k) : level k = tree k := by
      rw [hlevel]
      exact foldl_upLane_of_notMem fun lane _ hlane => by omega
    rw [treeUp, ← hlevel]
    refine ⟨fun k hk => by rw [hkeep k (by omega), habove k hk], fun k hpos hlt => ?_⟩
    by_cases hk : k < 2 ^ w
    · exact hlaw k hpos hk
    · obtain ⟨lane, rfl⟩ := Nat.exists_eq_add_of_le (Nat.le_of_not_lt hk)
      have hmem : lane ∈ s.up w :=
        (s.up_perm w).mem_iff.mpr (List.mem_range.mpr (by omega))
      have hnode := @foldl_upLane _ f _ tree _ _ (show lane < 2 ^ w by omega) hmem
      rw [← hlevel] at hnode
      rw [hkeep _ (by omega), hkeep _ (by omega), hkeep _ (by omega), hnode, habove _ (by omega),
        habove _ (by omega)]

/-- Trees over the same leaves have the same products. -/
theorem tree_unique {t t' : ℕ → α} (hleaf : ∀ k, 2 ^ w ≤ k → k < 2 * 2 ^ w → t k = t' k)
    (ht : ∀ k, 0 < k → k < 2 ^ w → t k = f (t (2 * k)) (t (2 * k + 1)))
    (ht' : ∀ k, 0 < k → k < 2 ^ w → t' k = f (t' (2 * k)) (t' (2 * k + 1))) :
    ∀ k, 0 < k → k < 2 * 2 ^ w → t k = t' k := by
  -- Downwards in the index: a node below the leaves follows from its children.
  have hdown : ∀ n k, 0 < k → k < 2 * 2 ^ w → 2 * 2 ^ w ≤ k + n → t k = t' k := by
    intro n
    induction n with
    | zero => intro k _ hlt hn; omega
    | succ n ih =>
      intro k hpos hlt hn
      by_cases hk : k < 2 ^ w
      · rw [ht k hpos hk, ht' k hpos hk, ih (2 * k) (by omega) (by omega) (by omega),
          ih (2 * k + 1) (by omega) (by omega) (by omega)]
      · exact hleaf k (by omega) hlt
  exact fun k hpos hlt => hdown (2 * 2 ^ w) k hpos hlt (by omega)

section Values

variable {M : Type*} [CommMonoid M] {value : α → M}

/-- Products of units are units. -/
theorem isUnit_tree (hvalue : ∀ a b, value (f a b) = value a * value b) {t : ℕ → α}
    (hleaf : ∀ k, 2 ^ w ≤ k → k < 2 * 2 ^ w → IsUnit (value (t k)))
    (ht : ∀ k, 0 < k → k < 2 ^ w → t k = f (t (2 * k)) (t (2 * k + 1))) :
    ∀ k, 0 < k → k < 2 * 2 ^ w → IsUnit (value (t k)) := by
  have hdown : ∀ n k, 0 < k → k < 2 * 2 ^ w → 2 * 2 ^ w ≤ k + n → IsUnit (value (t k)) := by
    intro n
    induction n with
    | zero => intro k _ hlt hn; omega
    | succ n ih =>
      intro k hpos hlt hn
      by_cases hk : k < 2 ^ w
      · rw [ht k hpos hk, hvalue]
        exact (ih (2 * k) (by omega) (by omega) (by omega)).mul
          (ih (2 * k + 1) (by omega) (by omega) (by omega))
      · exact hleaf k (by omega) hlt
  exact fun k hpos hlt => hdown (2 * 2 ^ w) k hpos hlt (by omega)

/-- **The way down.** From the inverse of the root, every leaf becomes its inverse. -/
theorem treeDown_spec {lanes : ℕ} (hvalue : ∀ a b, value (f a b) = value a * value b)
    (s : Schedule lanes) {products : ℕ → α} {total : ℕ}
    (hproducts : ∀ k, 0 < k → k < 2 ^ total →
      products k = f (products (2 * k)) (products (2 * k + 1)))
    (hroot : value (tree 1) * value (products 1) = 1) (hrest : ∀ k, 1 < k → tree k = products k)
    (hw : w ≤ total) (hlanes : 2 ^ total ≤ 2 * lanes) :
    (∀ k, 2 ^ w ≤ k → k < 2 * 2 ^ w →
        value (treeDown f s.down w tree k) * value (products k) = 1) ∧
      ∀ k, 2 * 2 ^ w ≤ k → treeDown f s.down w tree k = products k := by
  induction w with
  | zero =>
    refine ⟨fun k hk hlt => ?_, fun k hk => hrest k (by omega)⟩
    obtain rfl : k = 1 := by omega
    exact hroot
  | succ w ih =>
    obtain ⟨hinverse, hkeep⟩ := ih (by omega)
    have hpow : 2 * 2 ^ w ≤ 2 ^ total := by
      rw [← pow_succ']
      exact Nat.pow_le_pow_right (by omega) hw
    rw [pow_succ']
    rw [treeDown]
    refine ⟨fun k hk hlt => ?_, fun k hk => ?_⟩
    · obtain ⟨lane, hlane⟩ := Nat.exists_eq_add_of_le (show 2 ^ w ≤ k / 2 by omega)
      have hmem : lane ∈ s.down w := (s.down_perm w).mem_iff.mpr (List.mem_range.mpr (by omega))
      have hnodup : (s.down w).Nodup := (s.down_perm w).nodup_iff.mpr List.nodup_range
      obtain ⟨hleft, hright⟩ := @foldl_downLane _ f _ (treeDown f s.down w tree) _ _
        (show lane < 2 ^ w by omega) hmem hnodup
      have hparent := hinverse (2 ^ w + lane) (by omega) (by omega)
      have hchildren := hproducts (2 ^ w + lane) (by omega) (by omega)
      rw [hchildren, hvalue] at hparent
      rcases Nat.even_or_odd' k with ⟨node, heven | hodd⟩
      · obtain rfl : k = 2 * (2 ^ w + lane) := by omega
        rw [hleft, hvalue, hkeep (2 * (2 ^ w + lane) + 1) (by omega), mul_assoc,
          mul_comm (value (products (2 * (2 ^ w + lane) + 1))), hparent]
      · obtain rfl : k = 2 * (2 ^ w + lane) + 1 := by omega
        rw [hright, hvalue, hkeep (2 * (2 ^ w + lane)) (by omega), mul_assoc, hparent]
    · rw [foldl_downLane_of_ne (fun lane _ hlane => by omega) fun lane _ hlane => by omega]
      exact hkeep k (by omega)

end Values

end MoMiner.ProductTree
