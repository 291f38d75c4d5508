import Mathlib.Data.List.Nodup
import Mathlib.Logic.Relation
import Mathlib.Order.Basic
import Mathlib.Order.Lattice
import MoMiner.Lib.Blocks

/-!
# Perfect trees on aligned blocks

A list of `2 ^ k` elements is a perfect tree: its halves are the subtrees of the root. Exchanging the
halves of aligned blocks gives a class of trees (`Exchange`), and ordering the halves by their first
leaves, from the leaves up, one tree of the class (`canonBy`).

The same is done in place on a sequence, level by level and block by block (`passes`).

Main results:

- `canonBy_eq_of_exchanges` and `ordered_canonBy`: the ordered tree is the only one of its class;
- `ofBlock_passes`: what is done in place is the ordering of the tree.
-/

namespace MoMiner.BlockTrees

open MoMiner.Blocks

variable {α : Type} {k : ℕ}

/-! ## Trees -/

inductive Tree (α : Type) : ℕ → Type
  | leaf (a : α) : Tree α 0
  | node {k : ℕ} (l r : Tree α k) : Tree α (k + 1)

namespace Tree

def first : {k : ℕ} → Tree α k → α
  | _, leaf a => a
  | _, node l _ => l.first

def leaves : {k : ℕ} → Tree α k → List α
  | _, leaf a => [a]
  | _, node l r => l.leaves ++ r.leaves

theorem length_leaves (t : Tree α k) : t.leaves.length = 2 ^ k := by
  induction t with
  | leaf a => rfl
  | node l r ihl ihr => rw [leaves, List.length_append, ihl, ihr, pow_succ, Nat.mul_two]

theorem first_mem_leaves (t : Tree α k) : t.first ∈ t.leaves := by
  induction t with
  | leaf a => exact List.mem_singleton_self a
  | node l r ihl ihr => exact List.mem_append_left _ ihl

theorem leaves_injective {t t' : Tree α k} (h : t.leaves = t'.leaves) : t = t' := by
  induction t with
  | leaf a =>
    cases t' with
    | leaf a' => exact congrArg leaf (List.singleton_inj.mp h)
  | node l r ihl ihr =>
    cases t' with
    | node l' r' =>
      obtain ⟨hl, hr⟩ := List.append_inj h (by rw [length_leaves, length_leaves])
      rw [ihl hl, ihr hr]

end Tree

/-! ## Exchanges -/

/-- One exchange of the two subtrees of a node. -/
inductive Exchange : {k : ℕ} → Tree α k → Tree α k → Prop
  | here {k : ℕ} (l r : Tree α k) : Exchange (.node l r) (.node r l)
  | left {k : ℕ} {l l' : Tree α k} (r : Tree α k) :
    Exchange l l' → Exchange (.node l r) (.node l' r)
  | right {k : ℕ} (l : Tree α k) {r r' : Tree α k} :
    Exchange r r' → Exchange (.node l r) (.node l r')

abbrev Exchanges (t t' : Tree α k) : Prop := Relation.ReflTransGen Exchange t t'

theorem Exchange.symm {t t' : Tree α k} (h : Exchange t t') : Exchange t' t := by
  induction h with
  | here l r => exact .here r l
  | left r _ ih => exact .left r ih
  | right l _ ih => exact .right l ih

theorem Exchange.perm {t t' : Tree α k} (h : Exchange t t') : t.leaves.Perm t'.leaves := by
  induction h with
  | here l r => exact List.perm_append_comm
  | left r _ ih => exact ih.append_right _
  | right l _ ih => exact ih.append_left _

theorem Exchanges.perm {t t' : Tree α k} (h : Exchanges t t') : t.leaves.Perm t'.leaves := by
  induction h with
  | refl => exact .refl _
  | tail _ hstep ih => exact ih.trans hstep.perm

theorem Exchanges.node {l l' r r' : Tree α k} (hl : Exchanges l l') (hr : Exchanges r r') :
    Exchanges (.node l r) (.node l' r') := by
  have hleft : Exchanges (.node l r) (.node l' r) := by
    induction hl with
    | refl => exact .refl
    | tail _ hstep ih => exact ih.tail (.left r hstep)
  refine hleft.trans ?_
  induction hr with
  | refl => exact .refl
  | tail _ hstep ih => exact ih.tail (.right l' hstep)

/-! ## The ordered tree -/

section Canon

-- Whether the subtrees with these first leaves are exchanged.
variable (c : α → α → Bool)

def joinBy (l r : Tree α k) : Tree α (k + 1) :=
  if c l.first r.first then .node r l else .node l r

def canonBy : {k : ℕ} → Tree α k → Tree α k
  | _, .leaf a => .leaf a
  | _, .node l r => joinBy c (canonBy l) (canonBy r)

theorem exchanges_canonBy (t : Tree α k) : Exchanges t (canonBy c t) := by
  induction t with
  | leaf a => exact .refl
  | node l r ihl ihr =>
    refine (Exchanges.node ihl ihr).trans ?_
    rw [canonBy, joinBy]
    split_ifs
    · exact .single (.here _ _)
    · exact .refl

theorem Tree.first_ne {l r : Tree α k} (h : (Tree.node l r).leaves.Nodup) :
    l.first ≠ r.first := by
  rw [Tree.leaves, List.nodup_append'] at h
  intro heq
  exact h.2.2 l.first_mem_leaves (heq ▸ r.first_mem_leaves)

theorem canonBy_first_ne {l r : Tree α k} (h : (Tree.node l r).leaves.Nodup) :
    (canonBy c l).first ≠ (canonBy c r).first := by
  refine Tree.first_ne ?_
  have hperm := (Exchanges.node (exchanges_canonBy c l) (exchanges_canonBy c r)).perm
  exact hperm.nodup_iff.mp h

/-- The smaller first leaf is on the left, at every node. -/
def Tree.Ordered [LT α] : {k : ℕ} → Tree α k → Prop
  | _, .leaf _ => True
  | _, .node l r => l.Ordered ∧ r.Ordered ∧ l.first < r.first

variable {c} [LinearOrder α]

/-- Different first leaves are exchanged if the second one is smaller. -/
def Decides (c : α → α → Bool) : Prop := ∀ x y, x ≠ y → (c x y = true ↔ y < x)

theorem ordered_joinBy (hc : Decides c) {l r : Tree α k} (hl : l.Ordered) (hr : r.Ordered)
    (hne : l.first ≠ r.first) : (joinBy c l r).Ordered := by
  rw [joinBy]
  split_ifs with h
  · exact ⟨hr, hl, (hc _ _ hne).mp h⟩
  · exact ⟨hl, hr, lt_of_le_of_ne (not_lt.mp (mt (hc _ _ hne).mpr h)) hne⟩

theorem joinBy_comm (hc : Decides c) {l r : Tree α k} (hne : l.first ≠ r.first) :
    joinBy c l r = joinBy c r l := by
  have hl := hc _ _ hne
  have hr := hc _ _ hne.symm
  rw [joinBy, joinBy]
  split_ifs with h h' h'
  · exact absurd (hl.mp h) (not_lt.mpr (hr.mp h').le)
  · rfl
  · rfl
  · exact absurd (lt_of_le_of_ne (not_lt.mp (mt hl.mpr h)) hne) (mt hr.mpr h')

theorem ordered_canonBy (hc : Decides c) {t : Tree α k} (h : t.leaves.Nodup) :
    (canonBy c t).Ordered := by
  induction t with
  | leaf a => trivial
  | node l r ihl ihr =>
    have hnodup := List.nodup_append'.mp h
    exact ordered_joinBy hc (ihl hnodup.1) (ihr hnodup.2.1) (canonBy_first_ne c h)

theorem canonBy_eq_of_ordered (hc : Decides c) {t : Tree α k} (h : t.Ordered) :
    canonBy c t = t := by
  induction t with
  | leaf a => rfl
  | node l r ihl ihr =>
    obtain ⟨hl, hr, hlt⟩ := h
    rw [canonBy, ihl hl, ihr hr, joinBy, if_neg]
    rw [hc _ _ hlt.ne]
    exact not_lt.mpr hlt.le

theorem canonBy_eq_of_exchange (hc : Decides c) {t t' : Tree α k} (h : Exchange t t')
    (hnodup : t.leaves.Nodup) : canonBy c t = canonBy c t' := by
  induction h with
  | here l r => exact joinBy_comm hc (canonBy_first_ne c hnodup)
  | left r _ ih => rw [canonBy, canonBy, ih (List.nodup_append'.mp hnodup).1]
  | right l _ ih => rw [canonBy, canonBy, ih (List.nodup_append'.mp hnodup).2.1]

/-- **One ordered tree for a class.** -/
theorem canonBy_eq_of_exchanges (hc : Decides c) {t t' : Tree α k} (h : Exchanges t t')
    (hnodup : t.leaves.Nodup) : canonBy c t = canonBy c t' := by
  induction h with
  | refl => rfl
  | tail hsteps hstep ih =>
    exact ih.trans (canonBy_eq_of_exchange hc hstep ((Exchanges.perm hsteps).nodup_iff.mp hnodup))

theorem canonBy_canonBy (hc : Decides c) {t : Tree α k} (h : t.leaves.Nodup) :
    canonBy c (canonBy c t) = canonBy c t := canonBy_eq_of_ordered hc (ordered_canonBy hc h)

/-- Decisions that differ only for equal first leaves order distinct leaves alike. -/
theorem canonBy_congr {c' : α → α → Bool} (hc : Decides c) (hc' : Decides c') {t : Tree α k}
    (h : t.leaves.Nodup) : canonBy c t = canonBy c' t := by
  have hexchanges := exchanges_canonBy c' t
  rw [canonBy_eq_of_exchanges hc hexchanges h]
  exact canonBy_eq_of_ordered hc (ordered_canonBy hc' h)

end Canon

/-! ## Lists of leaves -/

section Lists

/-- One exchange of the halves of an aligned block of a list. -/
def Exchanged (l l' : List α) : Prop :=
  ∃ (s : ℕ) (front a b back : List α), a.length = 2 ^ s ∧ b.length = 2 ^ s ∧
    2 ^ (s + 1) ∣ front.length ∧ l = front ++ (a ++ b) ++ back ∧ l' = front ++ (b ++ a) ++ back

theorem Exchanged.symm {l l' : List α} (h : Exchanged l l') : Exchanged l' l := by
  obtain ⟨s, front, a, b, back, ha, hb, hfront, hl, hl'⟩ := h
  exact ⟨s, front, b, a, back, hb, ha, hfront, hl', hl⟩

theorem exchanged_leaves {t t' : Tree α k} (h : Exchange t t') : Exchanged t.leaves t'.leaves := by
  induction h with
  | @here k l r =>
    exact ⟨k, [], l.leaves, r.leaves, [], l.length_leaves, r.length_leaves, Nat.dvd_zero _,
      by simp [Tree.leaves], by simp [Tree.leaves]⟩
  | left r _ ih =>
    obtain ⟨s, front, a, b, back, ha, hb, hfront, hl, hl'⟩ := ih
    exact ⟨s, front, a, b, back ++ r.leaves, ha, hb, hfront, by simp [Tree.leaves, hl],
      by simp [Tree.leaves, hl']⟩
  | @right k l r r' _ ih =>
    obtain ⟨s, front, a, b, back, ha, hb, hfront, hr, hr'⟩ := ih
    have hlength := congrArg List.length hr
    simp only [Tree.length_leaves, List.length_append, ha, hb] at hlength
    have hle : 2 ^ (s + 1) ≤ 2 ^ k := by
      rw [pow_succ]
      omega
    refine ⟨s, l.leaves ++ front, a, b, back, ha, hb, ?_, by simp [Tree.leaves, hr],
      by simp [Tree.leaves, hr']⟩
    rw [List.length_append, Tree.length_leaves]
    exact Nat.dvd_add (Nat.pow_dvd_pow 2 ((Nat.pow_le_pow_iff_right (by decide)).mp hle)) hfront

/-- Where a list is cut in two ways, the longer first part begins with the shorter one. -/
theorem exists_of_append_eq {xs ys zs ws : List α} (h : xs ++ ys = zs ++ ws)
    (hle : zs.length ≤ xs.length) : ∃ m, xs = zs ++ m ∧ ws = m ++ ys := by
  rcases List.append_eq_append_iff.mp h with ⟨m, hzs, hys⟩ | ⟨m, hxs, hws⟩
  · have hm : m = [] := by
      have hlength := congrArg List.length hzs
      rw [List.length_append] at hlength
      exact List.length_eq_zero_iff.mp (by omega)
    subst hm
    exact ⟨[], by simp [hzs], by simp [hys]⟩
  · exact ⟨m, hxs, hws⟩

/-- An aligned block of the leaves is the block of a node. -/
theorem exists_exchange {t : Tree α k} {l : List α} (h : Exchanged t.leaves l) :
    ∃ t', Exchange t t' ∧ t'.leaves = l := by
  obtain ⟨s, front, a, b, back, ha, hb, hfront, ht, rfl⟩ := h
  induction t generalizing front back with
  | leaf x =>
    have hlength := congrArg List.length ht
    have hpos := Nat.two_pow_pos s
    simp only [Tree.length_leaves, List.length_append, ha, hb] at hlength
    omega
  | @node k l r ihl ihr =>
    have hlength := congrArg List.length ht
    simp only [Tree.length_leaves, List.length_append, ha, hb] at hlength
    have hs : s + 1 ≤ k + 1 := by
      rw [← Nat.pow_le_pow_iff_right (show 1 < 2 by decide), pow_succ 2 s]
      omega
    rw [pow_succ] at hlength
    rcases (Nat.le_of_succ_le_succ hs).eq_or_lt with rfl | hs
    · -- The block is the whole list.
      obtain rfl : front = [] := List.length_eq_zero_iff.mp (by omega)
      obtain rfl : back = [] := List.length_eq_zero_iff.mp (by omega)
      rw [List.nil_append, List.append_nil] at ht
      obtain ⟨rfl, rfl⟩ := List.append_inj ht (by rw [Tree.length_leaves, ha])
      exact ⟨.node r l, .here l r, by simp [Tree.leaves]⟩
    · obtain ⟨m, hm⟩ := hfront
      obtain ⟨n, hn⟩ : 2 ^ (s + 1) ∣ 2 ^ k := Nat.pow_dvd_pow 2 (Nat.succ_le_of_lt hs)
      have hpow : 2 ^ (s + 1) = 2 ^ s + 2 ^ s := by rw [pow_succ, Nat.mul_two]
      rcases Nat.lt_or_ge m n with hmn | hmn
      · -- The block ends in the left half.
        have hend : 2 ^ (s + 1) * (m + 1) ≤ 2 ^ (s + 1) * n := Nat.mul_le_mul_left _ hmn
        obtain ⟨back', hl, rfl⟩ := exists_of_append_eq ht (by
          simp only [Tree.length_leaves, List.length_append, ha, hb]
          rw [Nat.mul_succ] at hend
          omega)
        obtain ⟨l', hexchange, hl'⟩ := ihl front back' ⟨m, hm⟩ hl
        exact ⟨.node l' r, .left r hexchange, by simp [Tree.leaves, hl']⟩
      · -- The block begins in the right half.
        have hbegin : 2 ^ (s + 1) * n ≤ 2 ^ (s + 1) * m := Nat.mul_le_mul_left _ hmn
        rw [Tree.leaves, List.append_assoc] at ht
        obtain ⟨front', rfl, hr⟩ := exists_of_append_eq ht.symm (by
          rw [Tree.length_leaves]
          omega)
        have hfront : 2 ^ (s + 1) ∣ front'.length := by
          rw [List.length_append, Tree.length_leaves, hn] at hm
          exact ⟨m - n, by rw [Nat.mul_sub]; omega⟩
        obtain ⟨r', hexchange, hr'⟩ := ihr front' back hfront (by rw [hr]; simp)
        exact ⟨.node l r', .right l hexchange, by simp [Tree.leaves, hr']⟩

theorem exists_exchanges {t : Tree α k} {l : List α}
    (h : Relation.ReflTransGen Exchanged t.leaves l) : ∃ t', Exchanges t t' ∧ t'.leaves = l := by
  induction h with
  | refl => exact ⟨t, .refl, rfl⟩
  | tail _ hstep ih =>
    obtain ⟨t₁, hsteps, rfl⟩ := ih
    obtain ⟨t₂, hexchange, hl⟩ := exists_exchange hstep
    exact ⟨t₂, hsteps.tail hexchange, hl⟩

theorem exchanged_leaves_of_exchanges {t t' : Tree α k} (h : Exchanges t t') :
    Relation.ReflTransGen Exchanged t.leaves t'.leaves := by
  induction h with
  | refl => exact .refl
  | tail _ hstep ih => exact ih.tail (exchanged_leaves hstep)

end Lists

/-! ## Sequences -/

/-- The tree over `2 ^ k` elements of a sequence. -/
def ofBlock (f : ℕ → α) : (b k : ℕ) → Tree α k
  | b, 0 => .leaf (f b)
  | b, k + 1 => .node (ofBlock f b k) (ofBlock f (b + 2 ^ k) k)

theorem first_ofBlock (f : ℕ → α) (b k : ℕ) : (ofBlock f b k).first = f b := by
  induction k generalizing b with
  | zero => rfl
  | succ k ih => exact ih b

theorem leaves_ofBlock (f : ℕ → α) (b k : ℕ) :
    (ofBlock f b k).leaves = (List.range (2 ^ k)).map fun i => f (b + i) := by
  induction k generalizing b with
  | zero => rfl
  | succ k ih =>
    rw [ofBlock, Tree.leaves, ih, ih, pow_succ, Nat.mul_two, List.range_add, List.map_append,
      List.map_map]
    simp only [Function.comp_def, Nat.add_assoc]

theorem ofBlock_congr {f g : ℕ → α} {b b' : ℕ} (h : ∀ i < 2 ^ k, f (b + i) = g (b' + i)) :
    ofBlock f b k = ofBlock g b' k := by
  induction k generalizing b b' with
  | zero => exact congrArg Tree.leaf (h 0 (by simp))
  | succ k ih =>
    have hpow : 2 ^ (k + 1) = 2 ^ k + 2 ^ k := by rw [pow_succ, Nat.mul_two]
    rw [ofBlock, ofBlock, ih fun i hi => h i (by omega), ih fun i hi => ?_]
    rw [Nat.add_assoc, Nat.add_assoc]
    exact h (2 ^ k + i) (by omega)

theorem ordered_ofBlock [LT α] (f : ℕ → α) (b k : ℕ) :
    (ofBlock f b k).Ordered ↔ AllBlocks (fun b s => f b < f (b + 2 ^ s)) b k := by
  induction k generalizing b with
  | zero => exact iff_of_true trivial allBlocks_zero
  | succ k ih => rw [ofBlock, Tree.Ordered, ih, ih, first_ofBlock, first_ofBlock, allBlocks_succ]

/-! ## Ordering in place -/

section Passes

/-- Exchange two elements. -/
def swapAt (f : ℕ → α) (p q : ℕ) : ℕ → α := Function.update (Function.update f p (f q)) q (f p)

theorem swapAt_apply (f : ℕ → α) (p q t : ℕ) :
    swapAt f p q t = if t = q then f p else if t = p then f q else f t := by
  simp only [swapAt, Function.update_apply]

/-- Exchange two neighbouring blocks, element by element. -/
def swapHalves (f : ℕ → α) (b span : ℕ) : ℕ → α :=
  (List.range span).foldl (fun f i => swapAt f (b + i) (b + span + i)) f

theorem swapHalves_apply (f : ℕ → α) (b span t : ℕ) :
    swapHalves f b span t =
      if b ≤ t ∧ t < b + span then f (t + span)
      else if b + span ≤ t ∧ t < b + span + span then f (t - span)
      else f t := by
  have hstep : ∀ n ≤ span, (List.range n).foldl
      (fun f i => swapAt f (b + i) (b + span + i)) f t =
        if b ≤ t ∧ t < b + n then f (t + span)
        else if b + span ≤ t ∧ t < b + span + n then f (t - span)
        else f t := by
    intro n hn
    induction n generalizing t with
    | zero => simp [show ¬ (b ≤ t ∧ t < b) by omega, show ¬ (b + span ≤ t ∧ t < b + span) by omega]
    | succ n ih =>
      have hleft := ih (b + n) (by omega)
      have hright := ih (b + span + n) (by omega)
      rw [if_neg (by omega), if_neg (by omega)] at hleft hright
      rw [List.range_succ, List.foldl_append, List.foldl_cons, List.foldl_nil, swapAt_apply, hleft,
        hright, ih t (by omega)]
      by_cases hq : t = b + span + n
      · rw [if_pos hq, if_neg (by omega), if_pos (by omega), hq]
        congr 1
        omega
      by_cases hp : t = b + n
      · rw [if_neg hq, if_pos hp, if_pos (by omega), hp]
        congr 1
        omega
      · simp only [hq, hp, if_false, show t < b + (n + 1) ↔ t < b + n by omega,
          show t < b + span + (n + 1) ↔ t < b + span + n by omega]
  exact hstep span le_rfl

variable (c : α → α → Bool)

/-- Exchange the halves of a block if their first elements say so. -/
def orderBlock (s : ℕ) (f : ℕ → α) (b : ℕ) : ℕ → α :=
  if c (f b) (f (b + 2 ^ s)) then swapHalves f b (2 ^ s) else f

/-- Order a number of neighbouring blocks. -/
def passBlocks (s m : ℕ) (f : ℕ → α) (b : ℕ) : ℕ → α :=
  (List.range m).foldl (fun f j => orderBlock c s f (b + j * 2 ^ (s + 1))) f

/-- Order the blocks of `n` levels, the smallest blocks first. -/
def passes (k n : ℕ) (f : ℕ → α) (b : ℕ) : ℕ → α :=
  (List.range n).foldl (fun f s => passBlocks c s (2 ^ (k - 1 - s)) f b) f

variable {c} {f : ℕ → α} {s b m n t : ℕ}

theorem orderBlock_of_outside (h : t < b ∨ b + 2 ^ (s + 1) ≤ t) : orderBlock c s f b t = f t := by
  rw [pow_succ, Nat.mul_two] at h
  rw [orderBlock]
  split_ifs
  · rw [swapHalves_apply, if_neg (by omega), if_neg (by omega)]
  · rfl

theorem passBlocks_of_outside (h : t < b ∨ b + m * 2 ^ (s + 1) ≤ t) :
    passBlocks c s m f b t = f t := by
  induction m with
  | zero => rfl
  | succ m ih =>
    have hpos := Nat.two_pow_pos (s + 1)
    rw [Nat.add_one_mul] at h
    rw [passBlocks, List.range_succ, List.foldl_append, List.foldl_cons, List.foldl_nil,
      orderBlock_of_outside (by omega)]
    exact ih (by omega)

/-- The blocks of a range are those of its first part, and then those of the rest. -/
theorem passBlocks_add (f : ℕ → α) (s b m n : ℕ) :
    passBlocks c s (m + n) f b = passBlocks c s n (passBlocks c s m f b) (b + m * 2 ^ (s + 1)) := by
  simp only [passBlocks, List.range_add, List.foldl_append, List.foldl_map, Nat.add_mul,
    Nat.add_assoc]

/-- Exchange the subtrees of all nodes of a level. -/
def fixAt (c : α → α → Bool) (s : ℕ) : {k : ℕ} → Tree α k → Tree α k
  | _, .leaf a => .leaf a
  | _, @Tree.node _ k l r => if s = k then joinBy c l r else .node (fixAt c s l) (fixAt c s r)

theorem ofBlock_orderBlock (f : ℕ → α) (s b : ℕ) :
    ofBlock (orderBlock c s f b) b (s + 1) = joinBy c (ofBlock f b s) (ofBlock f (b + 2 ^ s) s) := by
  rw [joinBy, first_ofBlock, first_ofBlock, orderBlock]
  split_ifs
  · rw [ofBlock]
    congr 1
    · refine ofBlock_congr fun i hi => ?_
      rw [swapHalves_apply, if_pos (by omega)]
      congr 1
      omega
    · refine ofBlock_congr fun i hi => ?_
      rw [swapHalves_apply, if_neg (by omega), if_pos (by omega)]
      congr 1
      omega
  · rfl

/-- **One level in place.** -/
theorem ofBlock_passBlocks (f : ℕ → α) {s k : ℕ} (hs : s < k) (b : ℕ) :
    ofBlock (passBlocks c s (2 ^ (k - 1 - s)) f b) b k = fixAt c s (ofBlock f b k) := by
  induction k, Nat.succ_le_of_lt hs using Nat.le_induction generalizing f b with
  | base =>
    have hone : passBlocks c s (2 ^ (s + 1 - 1 - s)) f b = orderBlock c s f b := by
      simp [passBlocks]
    rw [Nat.succ_eq_add_one, hone, ofBlock_orderBlock, ofBlock, fixAt, if_pos rfl]
  | succ k hk ih =>
    have hlevel : 2 ^ (k - 1 - s) * 2 ^ (s + 1) = 2 ^ k := by
      rw [← pow_add]
      congr 1
      omega
    have hhalves : 2 ^ (k + 1 - 1 - s) = 2 ^ (k - 1 - s) + 2 ^ (k - 1 - s) := by
      rw [show k + 1 - 1 - s = k - 1 - s + 1 by omega, pow_succ, Nat.mul_two]
    rw [hhalves, passBlocks_add, hlevel, ofBlock, ofBlock, fixAt, if_neg (by omega), ih _ hk,
      ← ih f hk b]
    congr 1
    · refine ofBlock_congr fun i hi => passBlocks_of_outside ?_
      omega
    · congr 1
      refine ofBlock_congr fun i hi => passBlocks_of_outside ?_
      omega

theorem foldl_fixAt_node (l r : Tree α k) (hn : n ≤ k) :
    (List.range n).foldl (fun t s => fixAt c s t) (Tree.node l r) =
      .node ((List.range n).foldl (fun t s => fixAt c s t) l)
        ((List.range n).foldl (fun t s => fixAt c s t) r) := by
  induction n with
  | zero => rfl
  | succ n ih =>
    simp only [List.range_succ, List.foldl_append, List.foldl_cons, List.foldl_nil]
    rw [ih (by omega), fixAt, if_neg (by omega)]

/-- Level by level from the leaves up, a tree is ordered. -/
theorem foldl_fixAt (t : Tree α k) :
    (List.range k).foldl (fun t s => fixAt c s t) t = canonBy c t := by
  induction t with
  | leaf a => rfl
  | @node k l r ihl ihr =>
    rw [List.range_succ, List.foldl_append, List.foldl_cons, List.foldl_nil,
      foldl_fixAt_node l r le_rfl, ihl, ihr, fixAt, if_pos rfl, canonBy]

/-- **Ordering in place.** The passes order the tree of the block. -/
theorem ofBlock_passes (f : ℕ → α) (b k : ℕ) :
    ofBlock (passes c k k f b) b k = canonBy c (ofBlock f b k) := by
  have hn : ∀ n ≤ k, ofBlock (passes c k n f b) b k =
      (List.range n).foldl (fun t s => fixAt c s t) (ofBlock f b k) := by
    intro n hn
    induction n with
    | zero => rfl
    | succ n ih =>
      rw [passes, List.range_succ, List.foldl_append, List.foldl_cons, List.foldl_nil,
        ofBlock_passBlocks _ (by omega), ← passes, ih (by omega), List.foldl_append,
        List.foldl_cons, List.foldl_nil]
  rw [hn k le_rfl, foldl_fixAt]

/-- Nothing else is changed. -/
theorem passes_of_outside (hn : n ≤ k) (h : t < b ∨ b + 2 ^ k ≤ t) : passes c k n f b t = f t := by
  induction n with
  | zero => rfl
  | succ n ih =>
    have hlevel : 2 ^ (k - 1 - n) * 2 ^ (n + 1) = 2 ^ k := by
      rw [← pow_add]
      congr 1
      omega
    rw [passes, List.range_succ, List.foldl_append, List.foldl_cons, List.foldl_nil,
      passBlocks_of_outside (by omega)]
    exact ih (by omega)

end Passes

/-! ## Collisions -/

section Collisions

/-- The exclusive or over the leaves of a tree. -/
def Tree.xor (g : α → ℕ) : {k : ℕ} → Tree α k → ℕ
  | _, .leaf a => g a
  | _, .node l r => l.xor g ^^^ r.xor g

/-- The subtrees of a node have the same exclusive or in the field of the node's level. -/
def Tree.Collides (row : α → ℕ → ℕ) : {k : ℕ} → Tree α k → Prop
  | _, .leaf _ => True
  | _, @Tree.node _ k l r => l.Collides row ∧ r.Collides row ∧
      l.xor (fun a => row a k) = r.xor fun a => row a k

variable {row : α → ℕ → ℕ} {t t' : Tree α k}

theorem Exchange.xor_eq (h : Exchange t t') (g : α → ℕ) : t.xor g = t'.xor g := by
  induction h with
  | here l r => exact Nat.xor_comm _ _
  | left r _ ih => rw [Tree.xor, Tree.xor, ih]
  | right l _ ih => rw [Tree.xor, Tree.xor, ih]

theorem Exchange.collides (h : Exchange t t') (ht : t.Collides row) : t'.Collides row := by
  induction h with
  | here l r => exact ⟨ht.2.1, ht.1, ht.2.2.symm⟩
  | left r hl ih => exact ⟨ih ht.1, ht.2.1, (hl.xor_eq _).symm.trans ht.2.2⟩
  | right l hr ih => exact ⟨ht.1, ih ht.2.1, ht.2.2.trans (hr.xor_eq _)⟩

theorem Exchanges.xor_eq (h : Exchanges t t') (g : α → ℕ) : t.xor g = t'.xor g := by
  induction h with
  | refl => rfl
  | tail _ hstep ih => exact ih.trans (hstep.xor_eq g)

theorem Exchanges.collides (h : Exchanges t t') (ht : t.Collides row) : t'.Collides row := by
  induction h with
  | refl => exact ht
  | tail _ hstep ih => exact hstep.collides ih

theorem xor_ofBlock (g : α → ℕ) (f : ℕ → α) (b k : ℕ) :
    (ofBlock f b k).xor g = xorRange (fun i => g (f i)) b (2 ^ k) := by
  induction k generalizing b with
  | zero => rw [pow_zero, xorRange_one, ofBlock, Tree.xor]
  | succ k ih => rw [ofBlock, Tree.xor, ih, ih, pow_succ, Nat.mul_two, xorRange_add]

theorem collides_ofBlock (f : ℕ → α) (b k : ℕ) :
    (ofBlock f b k).Collides row ↔
      AllBlocks (fun b s => xorRange (fun i => row (f i) s) b (2 ^ (s + 1)) = 0) b k := by
  induction k generalizing b with
  | zero => exact iff_of_true trivial allBlocks_zero
  | succ k ih =>
    rw [ofBlock, Tree.Collides, ih, ih, xor_ofBlock, xor_ofBlock, allBlocks_succ, pow_succ,
      Nat.mul_comm _ 2, xorRange_double]

end Collisions

end MoMiner.BlockTrees
