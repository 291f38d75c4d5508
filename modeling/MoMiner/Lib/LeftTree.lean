import Mathlib.Data.List.Basic
import Mathlib.Data.List.Induction
import Mathlib.Data.Nat.Log
import Mathlib.Tactic.Ring

/-!
# Trees with a full left half

The binary tree over a sequence of leaves whose left half is as large a power of two as can be, short
of all leaves. The nodes of a level, the layers made by pairing neighbours and carrying an odd last
node, and the stack of a binary counter are all expressed by the subtrees of one definition.

Main results: `pairUp_layer`, `root_eq_nodes` and `exists_counterStack`.
-/

namespace MoMiner.LeftTree

/-- The size of the left half: the largest power of two below `n`. -/
def half (n : ℕ) : ℕ := 2 ^ Nat.log 2 (n - 1)

theorem half_eq {n k : ℕ} (h : 2 ^ k < n) (h' : n ≤ 2 ^ (k + 1)) : half n = 2 ^ k := by
  have hpos := Nat.two_pow_pos k
  rw [half, Nat.log_eq_of_pow_le_of_lt_pow (show 2 ^ k ≤ n - 1 by omega) (by omega)]

theorem exists_pow {n : ℕ} (hn : 2 ≤ n) : ∃ k, 2 ^ k < n ∧ n ≤ 2 ^ (k + 1) := by
  refine ⟨Nat.log 2 (n - 1), ?_, ?_⟩
  · have := Nat.pow_log_le_self 2 (show n - 1 ≠ 0 by omega)
    omega
  · have := Nat.lt_pow_succ_log_self (show 1 < 2 by decide) (n - 1)
    rw [Nat.succ_eq_add_one] at this
    omega

theorem half_pos (n : ℕ) : 0 < half n := Nat.two_pow_pos _

theorem half_lt {n : ℕ} (hn : 2 ≤ n) : half n < n := by
  obtain ⟨k, hk, hk'⟩ := exists_pow hn
  rw [half_eq hk hk']
  exact hk

section Subtree

variable {α β : Type} (f : α → α → α) (leaf : ℕ → α)

/-- The value of the tree over `n` leaves from `lo` on. -/
def subtree (lo n : ℕ) : α :=
  if _h : 2 ≤ n then f (subtree lo (half n)) (subtree (lo + half n) (n - half n)) else leaf lo
termination_by n
decreasing_by
  · exact half_lt _h
  · have := half_pos n
    omega

/-- The value of the whole tree, where the topmost node is computed by `g`. -/
def root (g : α → α → β) (n : ℕ) : β :=
  g (subtree f leaf 0 (half n)) (subtree f leaf (half n) (n - half n))

/-- The `i`-th node of a level over `n` leaves. -/
def node (n level i : ℕ) : α :=
  subtree f leaf (i * 2 ^ level) (min (2 ^ level) (n - i * 2 ^ level))

variable {f leaf} {lo n level i : ℕ}

theorem subtree_one (hn : n ≤ 1) : subtree f leaf lo n = leaf lo := by
  rw [subtree, dif_neg (by omega)]

theorem subtree_split (hn : 2 ≤ n) : subtree f leaf lo n =
    f (subtree f leaf lo (half n)) (subtree f leaf (lo + half n) (n - half n)) := by
  rw [subtree, dif_pos hn]

theorem subtree_map {γ : Type} {h : α → γ} {f' : γ → γ → γ} (hf : ∀ a b, h (f a b) = f' (h a) (h b))
    (lo n : ℕ) : h (subtree f leaf lo n) = subtree f' (fun i => h (leaf i)) lo n := by
  induction n using Nat.strong_induction_on generalizing lo with
  | _ n ih =>
    by_cases hn : 2 ≤ n
    · have := half_pos n
      rw [subtree_split hn, subtree_split hn, hf, ih _ (half_lt hn), ih _ (by omega)]
    · rw [subtree_one (by omega), subtree_one (by omega)]

/-- A tree over images, with the topmost node computed on the images. -/
theorem root_map {γ : Type} {h : α → γ} {f' : γ → γ → γ} {g : α → α → β} {g' : γ → γ → β}
    (hf : ∀ a b, h (f a b) = f' (h a) (h b)) (hg : ∀ a b, g a b = g' (h a) (h b)) (n : ℕ) :
    root f leaf g n = root f' (fun i => h (leaf i)) g' n := by
  rw [root, root, hg, subtree_map hf, subtree_map hf]

theorem node_zero : node f leaf n 0 i = leaf i := by
  rw [node, pow_zero, Nat.mul_one, subtree_one (by omega)]

/-- **A level from the one below.** Neighbours are joined. -/
theorem node_succ (h : (2 * i + 1) * 2 ^ level < n) :
    node f leaf n (level + 1) i = f (node f leaf n level (2 * i)) (node f leaf n level (2 * i + 1)) := by
  have hpos := Nat.two_pow_pos level
  have hpow : 2 ^ (level + 1) = 2 * 2 ^ level := pow_succ' 2 level
  have hlo : i * 2 ^ (level + 1) = 2 * i * 2 ^ level := by
    rw [hpow, Nat.mul_left_comm, Nat.mul_assoc]
  have hmid : (2 * i + 1) * 2 ^ level = 2 * i * 2 ^ level + 2 ^ level := by
    rw [Nat.add_mul, Nat.one_mul]
  rw [node, node, node, hlo, hmid]
  rw [hmid] at h
  have hhalf : half (min (2 ^ (level + 1)) (n - 2 * i * 2 ^ level)) = 2 ^ level :=
    half_eq (by omega) (by omega)
  rw [subtree_split (by omega), hhalf]
  congr 2
  · omega
  · omega

/-- An odd last node is carried. -/
theorem node_carry (h : n ≤ (2 * i + 1) * 2 ^ level) :
    node f leaf n (level + 1) i = node f leaf n level (2 * i) := by
  have hpow : 2 ^ (level + 1) = 2 * 2 ^ level := pow_succ' 2 level
  have hlo : i * 2 ^ (level + 1) = 2 * i * 2 ^ level := by
    rw [hpow, Nat.mul_left_comm, Nat.mul_assoc]
  rw [Nat.add_mul, Nat.one_mul] at h
  rw [node, node, hlo]
  congr 1
  omega

/-- **The root from the last level of two nodes.** -/
theorem root_eq_nodes {g : α → α → β} (h : 2 ^ level < n) (h' : n ≤ 2 ^ (level + 1)) :
    root f leaf g n = g (node f leaf n level 0) (node f leaf n level 1) := by
  have hpow : 2 ^ (level + 1) = 2 * 2 ^ level := pow_succ' 2 level
  rw [root, half_eq h h', node, node, Nat.zero_mul, Nat.one_mul]
  congr 2
  · omega
  · omega

theorem root_two {g : α → α → β} : root f leaf g 2 = g (leaf 0) (leaf 1) := by
  have hlevel : root f leaf g 2 = g (node f leaf 2 0 0) (node f leaf 2 0 1) :=
    root_eq_nodes (by decide) (by decide)
  rw [hlevel, node_zero, node_zero]

/-! ## Layers -/

/-- Join neighbours and carry an odd last node. -/
def pairUp (f : α → α → α) : List α → List α
  | [] => []
  | [last] => [last]
  | left :: right :: rest => f left right :: pairUp f rest

theorem length_pairUp (l : List α) : (pairUp f l).length = (l.length + 1) / 2 := by
  induction l using List.twoStepInduction with
  | nil => simp [pairUp]
  | singleton last => simp [pairUp]
  | cons_cons left right rest ih =>
    rw [pairUp, List.length_cons, ih, List.length_cons, List.length_cons]
    omega

/-- The number of nodes of a level over `n` leaves. -/
def width (n level : ℕ) : ℕ := (n + (2 ^ level - 1)) / 2 ^ level

/-- The nodes of a level over `n` leaves. -/
def layer (f : α → α → α) (leaf : ℕ → α) (n level : ℕ) : List α :=
  (List.range (width n level)).map (node f leaf n level)

theorem lt_width : i < width n level ↔ i * 2 ^ level < n := by
  have hpos := Nat.two_pow_pos level
  rw [width, Nat.lt_iff_add_one_le, Nat.le_div_iff_mul_le hpos, Nat.succ_mul]
  omega

theorem two_lt_width : 2 < width n level ↔ 2 ^ (level + 1) < n := by
  rw [lt_width, ← pow_succ']

theorem width_eq_two (h : 2 ^ level < n) (h' : n ≤ 2 ^ (level + 1)) : width n level = 2 := by
  have hlow : 1 < width n level := by rwa [lt_width, Nat.one_mul]
  have hhigh : ¬ 2 < width n level := by
    rw [two_lt_width]
    exact Nat.not_lt.mpr h'
  omega

theorem width_zero : width n 0 = n := by
  simp [width]

theorem width_succ : width n (level + 1) = (width n level + 1) / 2 := by
  refine eq_of_forall_lt_iff fun i => ?_
  have hmul : i * 2 ^ (level + 1) = 2 * i * 2 ^ level := by
    rw [pow_succ', Nat.mul_left_comm, Nat.mul_assoc]
  rw [lt_width, hmul, ← lt_width]
  omega

theorem layer_zero : layer f leaf n 0 = (List.range n).map leaf := by
  rw [layer, width_zero]
  exact List.map_congr_left fun i _ => node_zero

theorem length_layer : (layer f leaf n level).length = width n level := by
  rw [layer, List.length_map, List.length_range]

theorem getElem?_layer :
    (layer f leaf n level)[i]? = if i < width n level then some (node f leaf n level i) else none := by
  rw [layer, List.getElem?_map]
  split_ifs with h
  · rw [List.getElem?_range h, Option.map_some]
  · rw [List.getElem?_eq_none (by rw [List.length_range]; omega), Option.map_none]

theorem getElem?_pairUp (l : List α) (i : ℕ) : (pairUp f l)[i]? =
    l[2 * i]?.map fun left => l[2 * i + 1]?.elim left (f left) := by
  induction l using List.twoStepInduction generalizing i with
  | nil => rfl
  | singleton last =>
    cases i with
    | zero => rfl
    | succ i => rfl
  | cons_cons left right rest ih =>
    cases i with
    | zero => rfl
    | succ i => exact ih i

/-- **A layer from the one below.** -/
theorem pairUp_layer : pairUp f (layer f leaf n level) = layer f leaf n (level + 1) := by
  refine List.ext_getElem? fun i => ?_
  rw [getElem?_pairUp, getElem?_layer, getElem?_layer, getElem?_layer, width_succ]
  by_cases hright : 2 * i + 1 < width n level
  · rw [if_pos hright, if_pos (show 2 * i < width n level by omega), if_pos (by omega),
      node_succ (lt_width.mp hright)]
    rfl
  · rw [if_neg hright]
    by_cases hleft : 2 * i < width n level
    · rw [lt_width, Nat.not_lt] at hright
      rw [if_pos hleft, if_pos (by omega), node_carry hright]
      rfl
    · rw [if_neg hleft, if_neg (by omega)]
      rfl

/-! ## Binary counters -/

variable (f leaf)

/-- The trees on the stack of a counter after `n` leaves from `lo` on, one for each binary digit of
`n`; the largest is at the end. -/
def counterStack (lo n : ℕ) : List α :=
  if n = 0 then []
  else counterStack (lo + 2 ^ Nat.log 2 n) (n - 2 ^ Nat.log 2 n) ++
    [subtree f leaf lo (2 ^ Nat.log 2 n)]
termination_by n
decreasing_by
  have := Nat.two_pow_pos (Nat.log 2 n)
  omega

variable {f leaf}

@[simp] theorem counterStack_zero : counterStack f leaf lo 0 = [] := by
  rw [counterStack, if_pos rfl]

theorem counterStack_add {k m : ℕ} (hm : m < 2 ^ k) : counterStack f leaf lo (2 ^ k + m) =
    counterStack f leaf (lo + 2 ^ k) m ++ [subtree f leaf lo (2 ^ k)] := by
  have hpos := Nat.two_pow_pos k
  have hlog : Nat.log 2 (2 ^ k + m) = k := by
    refine Nat.log_eq_of_pow_le_of_lt_pow (by omega) ?_
    rw [pow_succ]
    omega
  rw [counterStack, if_neg (by omega), hlog, Nat.add_sub_cancel_left]

/-- Every positive number is a power of two and something smaller. -/
theorem exists_add {n : ℕ} (hn : n ≠ 0) : ∃ k m, m < 2 ^ k ∧ n = 2 ^ k + m := by
  have hle := Nat.pow_log_le_self 2 hn
  have hlt := Nat.lt_pow_succ_log_self (show 1 < 2 by decide) n
  rw [Nat.succ_eq_add_one, pow_succ] at hlt
  exact ⟨Nat.log 2 n, n - 2 ^ Nat.log 2 n, by omega, by omega⟩

theorem length_counterStack_le {d : ℕ} (hn : n < 2 ^ d) :
    (counterStack f leaf lo n).length ≤ d := by
  induction n using Nat.strong_induction_on generalizing lo d with
  | _ n ih =>
    by_cases hzero : n = 0
    · rw [hzero, counterStack_zero]
      exact Nat.zero_le d
    · obtain ⟨k, m, hm, rfl⟩ := exists_add hzero
      have hk : k < d := (Nat.pow_lt_pow_iff_right (show 1 < 2 by decide)).mp (by omega)
      have hpos := Nat.two_pow_pos k
      rw [counterStack_add hm, List.length_append, List.length_singleton]
      have hrest : (counterStack f leaf (lo + 2 ^ k) m).length ≤ k := ih m (by omega) hm
      omega

/-- Folding the stack over a last leaf gives the tree over all leaves. -/
theorem foldl_counterStack (lo n : ℕ) :
    (counterStack f leaf lo n).foldl (fun acc s => f s acc) (leaf (lo + n)) =
      subtree f leaf lo (n + 1) := by
  induction n using Nat.strong_induction_on generalizing lo with
  | _ n ih =>
    by_cases hzero : n = 0
    · rw [hzero, counterStack_zero, subtree_one (by omega)]
      rfl
    · obtain ⟨k, m, hm, rfl⟩ := exists_add hzero
      have hpos := Nat.two_pow_pos k
      have hhalf : half (2 ^ k + m + 1) = 2 ^ k := half_eq (by omega) (by rw [pow_succ]; omega)
      have hwhole : subtree f leaf lo (2 ^ k + m + 1) =
          f (subtree f leaf lo (2 ^ k)) (subtree f leaf (lo + 2 ^ k) (m + 1)) := by
        rw [subtree_split (by omega), hhalf, show 2 ^ k + m + 1 - 2 ^ k = m + 1 by omega]
      rw [counterStack_add hm, List.foldl_append, hwhole, ← Nat.add_assoc, ih m (by omega)]
      rfl

/-- **The root from the stack of a counter.** The last step of the fold computes the root. -/
theorem exists_counterStack {g : α → α → β} (hn : n ≠ 0) : ∃ rest bottom,
    counterStack f leaf 0 n = rest ++ [bottom] ∧
      g bottom (rest.foldl (fun acc s => f s acc) (leaf n)) = root f leaf g (n + 1) := by
  obtain ⟨k, m, hm, rfl⟩ := exists_add hn
  have hpos := Nat.two_pow_pos k
  have hhalf : half (2 ^ k + m + 1) = 2 ^ k := half_eq (by omega) (by rw [pow_succ]; omega)
  have hfold : (counterStack f leaf (2 ^ k) m).foldl (fun acc s => f s acc) (leaf (2 ^ k + m)) =
      subtree f leaf (2 ^ k) (m + 1) := foldl_counterStack (2 ^ k) m
  refine ⟨counterStack f leaf (0 + 2 ^ k) m, subtree f leaf 0 (2 ^ k), counterStack_add hm, ?_⟩
  rw [root, hhalf, Nat.zero_add, hfold, show 2 ^ k + m + 1 - 2 ^ k = m + 1 by omega]

end Subtree

end MoMiner.LeftTree
