import MoMiner.C29.Dense

/-!
# What the dense finder returns

Main results: every solution is a simple cycle of listed edges (`findCycles_sound`), and a cycle
that is alone in its component is returned each time its closing edge is listed
(`findCycles_isolated`).

Dense numbers have 32 bits and the largest is the sentinel, so both need fewer than `2 ^ 32`
endpoints. With `2 ^ 32` of them the finder takes one endpoint for a missing parent, and one more
endpoint gets the number of the first one. The list `diagonal` fills the dense numbers up.
-/

namespace MoMiner.C29

open SimpleGraph CycleSearch Links

/-! ## Soundness -/

/-- All paths are within the cap, and the cycle is the only one of its component. -/
structure Isolated (edges : List Edge) {v : Vertex} (w : (graph edges).Walk v v) : Prop where
  short : ∀ {a b} (p : (graph edges).Walk a b), p.IsPath → p.support.length < 8192
  cycle : w.IsCycle
  unique : ∀ u (w' : (graph edges).Walk u u), w'.IsCycle → (graph edges).Reachable v u →
    w'.edges.Perm w.edges

/-- How often a cycle is among the solutions. -/
def returned (edges : List Edge) {v : Vertex} (w : (graph edges).Walk v v) : ℕ :=
  (findCycles edges w.length).countP fun sol => (sol.map Edge.link).Perm w.edges

/-- **An isolated cycle is returned as often as its closing edge is listed**, the edge of the cycle
that the list reaches last. -/
theorem findCycles_isolated (edges : List Edge) (hcount : edges.length < 2 ^ 32)
    (hfits : (endpoints edges).card < 2 ^ 32) (v : Vertex) (w : (graph edges).Walk v v)
    (hw : Isolated edges w) :
    ∃ e₀ ∈ edges, e₀.link ∈ w.edges ∧
      (∀ e ∈ edges, e.link ∈ w.edges → edges.idxOf e ≤ edges.idxOf e₀) ∧
      returned edges w = edges.count e₀ := by
  obtain ⟨e₀, hmem, hon, hlast⟩ := exists_closing hw.cycle
  refine ⟨e₀, hmem, hon, hlast, ?_⟩
  rw [returned, findCycles_eq hfits, Nat.mod_eq_of_lt hcount, List.take_length]
  exact count_cycles hw.short hw.cycle rfl hw.unique hmem hon hlast

/-! ## Squares

A graph of loops `(i, i)` and the two edges between `0` and `m` has one cycle, of four edges.
-/

section Square

variable {edges : List Edge} {a b v : Vertex} {m : UInt32}

/-- A walk has an even number of steps exactly when it ends on the side where it starts. -/
theorem even_length (w : (graph edges).Walk a b) :
    b.isLeft = if w.length % 2 = 0 then a.isLeft else !a.isLeft := by
  induction w with
  | nil => rfl
  | @cons a c b hac w ih =>
    rw [ih, isLeft_ne_of_adj hac, Walk.length_cons]
    rcases Nat.mod_two_eq_zero_or_one w.length with h | h
    · rw [if_pos h, if_neg (by omega)]
    · rw [if_neg (by omega), if_pos (by omega), Bool.not_not]

/-- A cycle within four edges takes them all. -/
theorem perm_of_subset_four {w : (graph edges).Walk v v} (hw : w.IsCycle) {c : List (Sym2 Vertex)}
    (hc : c.length = 4) (hsub : w.edges ⊆ c) : w.edges.Perm c := by
  have hthree := hw.three_le_length
  have heven := even_length w
  have hfour : c.length ≤ w.edges.length := by
    rw [hc, Walk.length_edges]
    by_contra hlt
    have hlen : w.length = 3 := by omega
    rw [hlen] at heven
    revert heven
    cases v.isLeft <;> simp
  exact (List.subperm_of_subset hw.edges_nodup hsub).perm_of_length_le hfour

/-- The part of the graph that an endpoint is in. -/
def label (m : UInt32) (v : Vertex) : UInt32 := if number v = m then 0 else number v

theorem label_inl {x : UInt32} : label m (.inl x) = if x = m then 0 else x := rfl

theorem label_inr {x : UInt32} : label m (.inr x) = if x = m then 0 else x := rfl

/-- The edges stay in one part. -/
theorem label_ends {e : Edge} (h : e.x = e.y ∨ e = ⟨0, m⟩ ∨ e = ⟨m, 0⟩) :
    label m (.inl e.x) = label m (.inr e.y) := by
  rw [label_inl, label_inr]
  rcases h with h | rfl | rfl
  · rw [h]
  · rw [if_pos (rfl : m = m), ite_self]
  · rw [if_pos (rfl : m = m), ite_self]

theorem label_support (hedges : ∀ e ∈ edges, e.x = e.y ∨ e = ⟨0, m⟩ ∨ e = ⟨m, 0⟩)
    (w : (graph edges).Walk a b) : ∀ v ∈ w.support, label m v = label m a := by
  induction w with
  | nil => simp
  | @cons a c b hac w ih =>
    have hstep : label m c = label m a := by
      obtain ⟨e, he, heq⟩ := graph_adj.mp hac
      have hends := label_ends (hedges e he)
      rcases Sym2.eq_iff.mp heq with ⟨rfl, rfl⟩ | ⟨rfl, rfl⟩
      · exact hends.symm
      · exact hends
    intro v hv
    rw [Walk.support_cons, List.mem_cons] at hv
    rcases hv with rfl | hv
    · rfl
    · rw [ih v hv, hstep]

theorem number_of_label (h : label m v = label m a) :
    number v = number a ∨ number v = 0 ∨ number v = m := by
  unfold label at h
  split at h
  · exact .inr (.inr ‹_›)
  · split at h
    · exact .inr (.inl h)
    · exact .inl h

def squareLinks (m : UInt32) : List (Sym2 Vertex) :=
  [s(.inl 0, .inr 0), s(.inr 0, .inl m), s(.inl m, .inr m), s(.inr m, .inl 0)]

/-- The square is isolated. -/
theorem isolated_square (edges : List Edge) (hm : m ≠ 0)
    (hedges : ∀ e ∈ edges, e.x = e.y ∨ e = ⟨0, m⟩ ∨ e = ⟨m, 0⟩)
    (hsquare : ∀ e ∈ [(⟨0, 0⟩ : Edge), ⟨m, 0⟩, ⟨m, m⟩, ⟨0, m⟩], e ∈ edges) :
    ∃ w : (graph edges).Walk (.inl 0) (.inl 0),
      Isolated edges w ∧ w.length = 4 ∧ w.edges = squareLinks m := by
  have h₁ : (graph edges).Adj (.inl 0) (.inr 0) :=
    graph_adj_ends (e := ⟨0, 0⟩) (hsquare _ (by simp))
  have h₂ : (graph edges).Adj (.inr 0) (.inl m) :=
    (graph_adj_ends (e := ⟨m, 0⟩) (hsquare _ (by simp))).symm
  have h₃ : (graph edges).Adj (.inl m) (.inr m) :=
    graph_adj_ends (e := ⟨m, m⟩) (hsquare _ (by simp))
  have h₄ : (graph edges).Adj (.inr m) (.inl 0) :=
    (graph_adj_ends (e := ⟨0, m⟩) (hsquare _ (by simp))).symm
  refine ⟨.cons h₁ (.cons h₂ (.cons h₃ (.cons h₄ .nil))), ⟨?_, ?_, ?_⟩, rfl, rfl⟩
  · intro a b p hp
    let part : List Vertex :=
      [.inl (number a), .inr (number a), .inl 0, .inr 0, .inl m, .inr m]
    have hsub : p.support ⊆ part := by
      intro v hv
      have hnumber := number_of_label (label_support hedges p v hv)
      rcases v with x | y
      · have hx : x = number a ∨ x = 0 ∨ x = m := hnumber
        simpa [part] using hx
      · have hy : y = number a ∨ y = 0 ∨ y = m := hnumber
        simpa [part] using hy
    have hle : p.support.length ≤ 6 := (List.subperm_of_subset hp.support_nodup hsub).length_le
    omega
  · rw [Walk.cons_isCycle_iff]
    simp [hm, hm.symm]
  · intro u w' hw' hreach
    obtain ⟨p⟩ := hreach
    refine perm_of_subset_four hw' (c := squareLinks m) rfl fun z hz => ?_
    obtain ⟨e, he, rfl⟩ := mem_edgeSet_graph.mp (w'.edges_subset_edgeSet hz)
    -- Both ends are in the part of `0`.
    have hu := label_support hedges p u p.end_mem_support
    have hx := label_support hedges w' _ (w'.fst_mem_support_of_mem_edges hz)
    have hy := label_support hedges w' _ (w'.snd_mem_support_of_mem_edges hz)
    rw [hu] at hx hy
    have hx' : e.x = 0 ∨ e.x = m := by simpa [number] using number_of_label hx
    have hy' : e.y = 0 ∨ e.y = m := by simpa [number] using number_of_label hy
    rcases hx' with hx | hx <;> rcases hy' with hy | hy <;>
      simp [squareLinks, Edge.link, hx, hy]

end Square

theorem findCycles_isolated_square :
    ∃ w : (graph [⟨0, 0⟩, ⟨1, 0⟩, ⟨1, 1⟩, ⟨0, 1⟩]).Walk (.inl 0) (.inl 0), Isolated _ w ∧
      ∃ e₀ ∈ [(⟨0, 0⟩ : Edge), ⟨1, 0⟩, ⟨1, 1⟩, ⟨0, 1⟩],
        returned _ w = [(⟨0, 0⟩ : Edge), ⟨1, 0⟩, ⟨1, 1⟩, ⟨0, 1⟩].count e₀ := by
  obtain ⟨w, hw, -, -⟩ := isolated_square (m := 1)
    [⟨0, 0⟩, ⟨1, 0⟩, ⟨1, 1⟩, ⟨0, 1⟩] (by decide) (by decide) (by decide)
  obtain ⟨e₀, hmem, -, -, hcount⟩ :=
    findCycles_isolated [⟨0, 0⟩, ⟨1, 0⟩, ⟨1, 1⟩, ⟨0, 1⟩] (by decide) (by decide) _ w hw
  exact ⟨w, hw, e₀, hmem, hcount⟩

/-! ## A full table of dense numbers -/

/-- The edges `(i, i)` for `i < k`. -/
def diagonal (k : ℕ) : List Edge :=
  (List.range k).map fun i => ⟨UInt32.ofNat i, UInt32.ofNat i⟩

/-- The numbering after the edges `(i, i)`: the two ends of an edge get neighbouring numbers. -/
structure DiagonalNumbering (n : Numbering) (k : ℕ) : Prop where
  get : ∀ v, n.get v =
    if (number v).toNat < k then some (2 * (number v).toNat + (side v).toNat) else none
  raw : ∀ i < k, n.rawIdByDense[2 * i]? = some (UInt32.ofNat i) ∧
    n.rawIdByDense[2 * i + 1]? = some (UInt32.ofNat i)
  size : n.rawIdByDense.length = 2 * k

theorem internEdges_append (n : Numbering) (es es' : List Edge) :
    internEdges n (es ++ es') = ((internEdges (internEdges n es).1 es').1,
      (internEdges n es).2 ++ (internEdges (internEdges n es).1 es').2) := by
  induction es generalizing n with
  | nil => rfl
  | cons e es ih => simp only [List.cons_append, internEdges, ih]

theorem diagonalNumbering_internEdge {n : Numbering} {k : ℕ} (hn : DiagonalNumbering n k)
    (hk : k < 2 ^ 31) :
    DiagonalNumbering (internEdge n ⟨UInt32.ofNat k, UInt32.ofNat k⟩).1 (k + 1) ∧
      (internEdge n ⟨UInt32.ofNat k, UInt32.ofNat k⟩).2 = ⟨2 * k, 2 * k + 1⟩ := by
  have hnat : (UInt32.ofNat k).toNat = k :=
    UInt32.toNat_ofNat_of_lt (by rw [show UInt32.size = 2 ^ 32 from rfl]; omega)
  have hnew : ∀ v, (number v).toNat = k → n.get v = none := fun v hv => by
    rw [hn.get, if_neg (by omega)]
  have hsize := hn.size
  obtain ⟨hd₁, hraw₁, hget₁⟩ := intern_of_none (hnew (.inl (UInt32.ofNat k)) hnat)
  rw [show n.rawIdByDense.length % 2 ^ 32 = 2 * k by omega] at hd₁ hget₁
  set n₁ := (intern n (side (.inl (UInt32.ofNat k))) (number (.inl (UInt32.ofNat k)))).1 with hn₁
  have hsize₁ : n₁.rawIdByDense.length = 2 * k + 1 := by
    rw [hraw₁, List.length_append, List.length_singleton, hsize]
  have hnew₁ : n₁.get (.inr (UInt32.ofNat k)) = none := by
    rw [hget₁, if_neg Sum.inr_ne_inl, hnew (.inr (UInt32.ofNat k)) hnat]
  obtain ⟨hd₂, hraw₂, hget₂⟩ := intern_of_none hnew₁
  rw [show n₁.rawIdByDense.length % 2 ^ 32 = 2 * k + 1 by omega] at hd₂ hget₂
  refine ⟨⟨fun v => ?_, fun i hi => ?_, ?_⟩, ?_⟩
  · refine (hget₂ v).trans ?_
    rw [hget₁, hn.get]
    have hother : (number v).toNat ≠ k →
        v ≠ .inr (UInt32.ofNat k) ∧ v ≠ .inl (UInt32.ofNat k) := fun hne =>
      ⟨fun h => hne (h ▸ hnat), fun h => hne (h ▸ hnat)⟩
    rcases lt_trichotomy (number v).toNat k with h | h | h
    · rw [if_neg (hother h.ne).1, if_neg (hother h.ne).2, if_pos h, if_pos (by omega)]
    · have hnumber : number v = UInt32.ofNat k := by rw [← UInt32.toNat_inj, h, hnat]
      rw [if_pos (show (number v).toNat < k + 1 by omega), h]
      rcases v with x | y
      · have hx : x = UInt32.ofNat k := hnumber
        rw [if_neg Sum.inl_ne_inr, if_pos (congrArg Sum.inl hx)]
        rfl
      · have hy : y = UInt32.ofNat k := hnumber
        rw [if_pos (congrArg Sum.inr hy)]
        rfl
    · rw [if_neg (hother h.ne').1, if_neg (hother h.ne').2, if_neg (by omega), if_neg (by omega)]
  · have hraw : (internEdge n ⟨UInt32.ofNat k, UInt32.ofNat k⟩).1.rawIdByDense =
        n.rawIdByDense ++ [UInt32.ofNat k, UInt32.ofNat k] := by
      refine hraw₂.trans ?_
      rw [hraw₁, List.append_assoc]
      rfl
    rw [hraw]
    rcases Nat.lt_succ_iff_lt_or_eq.mp hi with h | rfl
    · rw [List.getElem?_append_left (by omega), List.getElem?_append_left (by omega)]
      exact hn.raw i h
    · rw [List.getElem?_append_right (by omega), List.getElem?_append_right (by omega), hsize]
      simp
  · refine (congrArg List.length hraw₂).trans ?_
    rw [List.length_append, List.length_singleton, hsize₁]
    omega
  · exact congrArg₂ DenseEdge.mk hd₁ hd₂

theorem diagonal_succ (k : ℕ) :
    diagonal (k + 1) = diagonal k ++ [⟨UInt32.ofNat k, UInt32.ofNat k⟩] := by
  rw [diagonal, diagonal, List.range_succ, List.map_append]
  rfl

/-- The dense numbers of the edges `(i, i)`. -/
def pairs (k : ℕ) : List DenseEdge := (List.range k).map fun i => ⟨2 * i, 2 * i + 1⟩

theorem pairs_succ (k : ℕ) : pairs (k + 1) = pairs k ++ [⟨2 * k, 2 * k + 1⟩] := by
  rw [pairs, pairs, List.range_succ, List.map_append]
  rfl

theorem internEdges_diagonal {k : ℕ} (hk : k ≤ 2 ^ 31) :
    DiagonalNumbering (numbering (diagonal k)) k ∧ denseEdges (diagonal k) = pairs k := by
  induction k with
  | zero => exact ⟨⟨fun v => by simp [numbering, diagonal, internEdges, Numbering.get],
      by simp, rfl⟩, rfl⟩
  | succ k ih =>
    obtain ⟨hn, hdense⟩ := ih (by omega)
    obtain ⟨hn', hpair⟩ := diagonalNumbering_internEdge hn (by omega)
    have happ := internEdges_append ⟨fun _ => none, []⟩ (diagonal k)
      [⟨UInt32.ofNat k, UInt32.ofNat k⟩]
    rw [numbering, denseEdges, diagonal_succ, happ, pairs_succ, ← hdense, ← hpair]
    exact ⟨hn', rfl⟩

/-! The parents after the edges `(i, i)`. -/

theorem createPath_root {parent : ℕ → ℕ} {v : ℕ} (h : parent v = kNoParent) :
    createPath parent v = [v] := by
  rw [createPath, maxPathLength, extendPath, if_pos h]

theorem createPath_link {parent : ℕ → ℕ} {v w : ℕ} (hv : parent v = w) (hne : w ≠ kNoParent)
    (hw : parent w = kNoParent) : createPath parent v = [v, w] := by
  rw [createPath, maxPathLength, extendPath, hv, if_neg hne, extendPath, if_pos hw]

/-- Each first number below `2 * k` points to its neighbour. -/
def diagonalParent (k v : ℕ) : ℕ := if v % 2 = 0 ∧ v < 2 * k then v + 1 else kNoParent

section Diagonal

variable {raw : ℕ → UInt32} {target k : ℕ} {sols : List (List Edge)}

theorem diagonalParent_root {v : ℕ} (h : v % 2 = 1 ∨ 2 * k ≤ v) :
    diagonalParent k v = kNoParent := if_neg (by omega)

theorem join_singleton {v w : ℕ} (h : v ≠ w) : join [v] [w] = none := by
  simp [join, maxPathLength, suffixJoin, h]

/-- An edge `(i, i)` links its ends. -/
theorem processEdge_pair (hk : 2 * k + 1 < kNoParent) :
    processEdge raw target ⟨diagonalParent k, sols⟩ ⟨2 * k, 2 * k + 1⟩ =
      ⟨diagonalParent (k + 1), sols⟩ := by
  have hfirst : diagonalParent k (2 * k) = kNoParent := diagonalParent_root (by omega)
  have hsecond : diagonalParent k (2 * k + 1) = kNoParent := diagonalParent_root (by omega)
  have hskip : ¬ (diagonalParent k (2 * k) = 2 * k + 1 ∨ diagonalParent k (2 * k + 1) = 2 * k) := by
    rw [hfirst, hsecond]
    omega
  have hparent : Function.update (diagonalParent k) (2 * k) (2 * k + 1) = diagonalParent (k + 1) := by
    funext v
    by_cases hv : v = 2 * k
    · rw [hv, Function.update_self, diagonalParent, if_pos (by omega)]
    · rw [Function.update_of_ne hv, diagonalParent, diagonalParent]
      congr 1
      exact propext (by omega)
  rw [processEdge, if_neg hskip]
  simp only [createPath_root hfirst, createPath_root hsecond, join_singleton (Nat.succ_ne_self _).symm,
    reversePath, List.length_singleton, lt_irrefl, if_false, hparent]

theorem foldl_pairs (hk : 2 * k ≤ kNoParent) :
    (pairs k).foldl (processEdge raw target) ⟨fun _ => kNoParent, []⟩ =
      ⟨diagonalParent k, []⟩ := by
  induction k with
  | zero =>
    have hempty : diagonalParent 0 = fun _ => kNoParent := by
      funext v
      exact diagonalParent_root (by omega)
    rw [hempty]
    rfl
  | succ k ih =>
    rw [pairs_succ, List.foldl_append, ih (by omega), List.foldl_cons, List.foldl_nil,
      processEdge_pair (by omega)]

/-- With all dense numbers given away, the last second number is taken for a missing parent, and the
last edge `(i, i)` is skipped. -/
theorem foldl_pairs_full (hk : k + 1 = 2 ^ 31) :
    (pairs (k + 1)).foldl (processEdge raw target) ⟨fun _ => kNoParent, []⟩ =
      ⟨diagonalParent k, []⟩ := by
  have hlast : 2 * k + 1 = kNoParent := by
    rw [kNoParent]
    omega
  have hroot : diagonalParent k (2 * k) = 2 * k + 1 := by
    rw [hlast]
    exact diagonalParent_root (.inr le_rfl)
  rw [pairs_succ, List.foldl_append, foldl_pairs (by omega), List.foldl_cons, List.foldl_nil,
    processEdge, if_pos (.inl hroot)]

end Diagonal

theorem internEdge_of_some {n : Numbering} {e : Edge} {d d' : ℕ} (hx : n.get (.inl e.x) = some d)
    (hy : n.get (.inr e.y) = some d') : internEdge n e = (n, ⟨d, d'⟩) := by
  have hfirst : intern n 0 e.x = (n, d) := intern_of_some (v := .inl e.x) hx
  have hsecond : intern n 1 e.y = (n, d') := intern_of_some (v := .inr e.y) hy
  rw [internEdge, hfirst]
  simp only [hsecond]

theorem length_pairs (k : ℕ) : (pairs k).length = k := by simp [pairs]

section Full

variable {k : ℕ} (hk : k + 1 = 2 ^ 31) {rest : List Edge} {dense : List DenseEdge}

include hk

/-- The solutions of a list that starts with the full diagonal. -/
theorem findCycles_diagonal (target : ℕ) (hrest : rest.length = 2) (hlen : dense.length = 2)
    (hdense : (internEdges (numbering (diagonal (k + 1))) rest).2 = dense) :
    findCycles (diagonal (k + 1) ++ rest) target =
      (dense.foldl (processEdge (rawIdByDense (diagonal (k + 1) ++ rest)) target)
        ⟨diagonalParent k, []⟩).solutions := by
  have hall : denseEdges (diagonal (k + 1) ++ rest) = pairs (k + 1) ++ dense := by
    rw [denseEdges, internEdges_append, ← (internEdges_diagonal hk.le).2, ← hdense]
    rfl
  have hcount : (diagonal (k + 1) ++ rest).length = 2 ^ 31 + 2 := by
    rw [List.length_append, hrest, diagonal, List.length_map, List.length_range, hk]
  have htake : (pairs (k + 1) ++ dense).length ≤ (2 ^ 31 + 2) % 2 ^ 32 := by
    rw [List.length_append, length_pairs, hlen]
    omega
  rw [findCycles, run, hall, hcount, List.take_of_length_le htake, List.foldl_append,
    foldl_pairs_full hk]

theorem get_diagonal {v : Vertex} {d : ℕ} (hv : (number v).toNat < 2 ^ 31)
    (hd : 2 * (number v).toNat + (side v).toNat = d) :
    (numbering (diagonal (k + 1))).get v = some d := by
  rw [(internEdges_diagonal hk.le).1.get, if_pos (by omega), hd]

end Full

theorem mem_diagonal {k : ℕ} {e : Edge} (he : e ∈ diagonal k) : e.x = e.y := by
  obtain ⟨i, -, rfl⟩ := List.mem_map.mp he
  rfl

theorem exists_full : ∃ k : ℕ, k + 1 = 2 ^ 31 := ⟨2 ^ 31 - 1, by omega⟩

section Runs

variable {raw : ℕ → UInt32} {k : ℕ}

theorem diagonalParent_zero (hk : 0 < k) : diagonalParent k 0 = 1 := if_pos (by omega)

/-- The number that is taken for a missing parent hides a cycle. -/
theorem foldl_hidden (hk : k + 1 = 2 ^ 31) :
    ([⟨0, kNoParent⟩, ⟨2 * k, 1⟩].foldl (processEdge raw 4) ⟨diagonalParent k, []⟩).solutions =
      [] := by
  have hlast : 2 * k + 1 = kNoParent := by
    rw [kNoParent]
    omega
  have h₀ := diagonalParent_zero (k := k) (by omega)
  have h₁ : diagonalParent k 1 = kNoParent := diagonalParent_root (by omega)
  have hx : diagonalParent k (2 * k) = kNoParent := diagonalParent_root (by omega)
  have hy : diagonalParent k kNoParent = kNoParent := diagonalParent_root (by omega)
  have hfirst : processEdge raw 4 ⟨diagonalParent k, []⟩ ⟨0, kNoParent⟩ =
      ⟨Function.update (diagonalParent k) kNoParent 0, []⟩ := by
    have hskip : ¬ (diagonalParent k 0 = kNoParent ∨ diagonalParent k kNoParent = 0) := by
      rw [h₀, hy]
      decide
    have hjoin : join [0, 1] [kNoParent] = none := by decide
    rw [processEdge, if_neg hskip]
    simp [createPath_link h₀ (by decide) h₁, createPath_root hy, hjoin, reversePath]
  have hup : ∀ v, v ≠ kNoParent →
      Function.update (diagonalParent k) kNoParent 0 v = diagonalParent k v :=
    fun v hv => Function.update_of_ne hv _ _
  have hx' : Function.update (diagonalParent k) kNoParent 0 (2 * k) = kNoParent := by
    rw [hup _ (by omega), hx]
  have hy' : Function.update (diagonalParent k) kNoParent 0 1 = kNoParent := by
    rw [hup 1 (by decide), h₁]
  have hskip : ¬ (Function.update (diagonalParent k) kNoParent 0 (2 * k) = 1 ∨
      Function.update (diagonalParent k) kNoParent 0 1 = 2 * k) := by
    rw [hx', hy']
    omega
  have hjoin := join_singleton (show 2 * k ≠ 1 by omega)
  rw [List.foldl_cons, List.foldl_cons, List.foldl_nil, hfirst, processEdge, if_neg hskip]
  simp [createPath_root hx', createPath_root hy', hjoin, reversePath]

end Runs

/-- With as many endpoints as dense numbers, the finder misses a square at the last ones. -/
theorem returned_hidden {k : ℕ} (hk : k + 1 = 2 ^ 31) :
    ∃ w : (graph (diagonal (k + 1) ++ [⟨0, 2147483647⟩, ⟨2147483647, 0⟩])).Walk (.inl 0) (.inl 0),
      Isolated _ w ∧ returned _ w = 0 := by
  have hmem : ∀ i < k + 1, (⟨UInt32.ofNat i, UInt32.ofNat i⟩ : Edge) ∈ diagonal (k + 1) :=
    fun i hi => List.mem_map.mpr ⟨i, List.mem_range.mpr hi, rfl⟩
  have hlast : UInt32.ofNat k = 2147483647 := by
    rw [show k = 2147483647 by omega]
    rfl
  obtain ⟨w, hw, hlen, -⟩ := isolated_square (m := 2147483647)
    (diagonal (k + 1) ++ [⟨0, 2147483647⟩, ⟨2147483647, 0⟩]) (by decide)
    (fun e he => by
      rcases List.mem_append.mp he with h | h
      · exact .inl (mem_diagonal h)
      · simp only [List.mem_cons, List.not_mem_nil, or_false] at h
        exact .inr h)
    (fun e he => by
      simp only [List.mem_cons, List.not_mem_nil, or_false] at he
      rcases he with rfl | rfl | rfl | rfl
      · exact List.mem_append_left _ (hmem 0 (by omega))
      · simp
      · exact List.mem_append_left _ (hlast ▸ hmem k (by omega))
      · simp)
  have hlastNat : 2 * (2147483647 : UInt32).toNat = 2 * k := by
    rw [show k = 2147483647 by omega]
    rfl
  have hfirst : internEdge (numbering (diagonal (k + 1))) ⟨0, 2147483647⟩ =
      (numbering (diagonal (k + 1)), ⟨0, kNoParent⟩) :=
    internEdge_of_some (get_diagonal hk (by decide) (by decide))
      (get_diagonal hk (by decide) (by decide))
  have hsecond : internEdge (numbering (diagonal (k + 1))) ⟨2147483647, 0⟩ =
      (numbering (diagonal (k + 1)), ⟨2 * k, 1⟩) :=
    internEdge_of_some (get_diagonal hk (by decide) hlastNat)
      (get_diagonal hk (by decide) (by decide))
  have hrest : (internEdges (numbering (diagonal (k + 1)))
      [⟨0, 2147483647⟩, ⟨2147483647, 0⟩]).2 = [⟨0, kNoParent⟩, ⟨2 * k, 1⟩] := by
    simp only [internEdges, hfirst, hsecond]
  refine ⟨w, hw, ?_⟩
  rw [returned, hlen, findCycles_diagonal hk _ rfl rfl hrest, foldl_hidden hk]
  rfl

/-- A list of `2 ^ 32` edges is counted as empty. -/
theorem returned_uncounted {k : ℕ} (hk : k + 3 = 2 ^ 32) :
    ∃ w : (graph (List.replicate k ⟨0, 0⟩ ++ [⟨1, 0⟩, ⟨1, 1⟩, ⟨0, 1⟩])).Walk (.inl 0) (.inl 0),
      Isolated _ w ∧ returned _ w = 0 := by
  obtain ⟨w, hw, -, -⟩ := isolated_square (m := 1)
    (List.replicate k ⟨0, 0⟩ ++ [⟨1, 0⟩, ⟨1, 1⟩, ⟨0, 1⟩]) (by decide)
    (fun e he => by
      rcases List.mem_append.mp he with h | h
      · rw [(List.mem_replicate.mp h).2]
        exact .inl rfl
      · clear he
        revert e
        decide)
    (fun e he => by
      simp only [List.mem_cons, List.not_mem_nil, or_false] at he
      rcases he with rfl | rfl | rfl | rfl
      · exact List.mem_append_left _ (List.mem_replicate.mpr ⟨by omega, rfl⟩)
      all_goals simp)
  have hcount :
      (List.replicate k ⟨0, 0⟩ ++ [⟨1, 0⟩, ⟨1, 1⟩, ⟨0, 1⟩] : List Edge).length % 2 ^ 32 = 0 := by
    rw [List.length_append, List.length_replicate]
    exact (congrArg (· % 2 ^ 32) hk).trans (Nat.mod_self _)
  refine ⟨w, hw, ?_⟩
  rw [returned, findCycles, hcount, run, List.take_zero]
  rfl

/-- A cycle whose closing edge is listed twice is returned twice. -/
theorem returned_repeated :
    ∃ w : (graph [⟨0, 0⟩, ⟨1, 0⟩, ⟨1, 1⟩, ⟨0, 1⟩, ⟨0, 1⟩]).Walk (.inl 0) (.inl 0),
      Isolated _ w ∧ returned _ w = 2 := by
  obtain ⟨w, hw, hlen, hedges⟩ := isolated_square (m := 1)
    [⟨0, 0⟩, ⟨1, 0⟩, ⟨1, 1⟩, ⟨0, 1⟩, ⟨0, 1⟩] (by decide) (by decide) (by decide)
  refine ⟨w, hw, ?_⟩
  rw [returned, hlen, hedges]
  decide +kernel

/-- An isolated cycle need not be returned once: not where its closing edge is listed again, not
where the edges are more than 32 bits count, and not where the dense numbers are used up. -/
theorem findCycles_isolated_not_once :
    (∃ w : (graph [⟨0, 0⟩, ⟨1, 0⟩, ⟨1, 1⟩, ⟨0, 1⟩, ⟨0, 1⟩]).Walk (.inl 0) (.inl 0),
      Isolated _ w ∧ returned _ w ≠ 1) ∧
    (∃ w : (graph (List.replicate (2 ^ 32 - 3) ⟨0, 0⟩ ++ [⟨1, 0⟩, ⟨1, 1⟩, ⟨0, 1⟩])).Walk
      (.inl 0) (.inl 0), Isolated _ w ∧ returned _ w = 0) ∧
    ∃ w : (graph (diagonal (2 ^ 31) ++ [⟨0, 2147483647⟩, ⟨2147483647, 0⟩])).Walk
      (.inl 0) (.inl 0), Isolated _ w ∧ returned _ w = 0 := by
  refine ⟨?_, ?_, ?_⟩
  · obtain ⟨w, hw, htwice⟩ := returned_repeated
    exact ⟨w, hw, by omega⟩
  · exact returned_uncounted (by omega)
  · obtain ⟨k, hk⟩ := exists_full
    rw [← hk]
    exact returned_hidden hk

end MoMiner.C29
