import MoMiner.Lib.CycleComplete

/-!
# The bipartite graph of the trimmed edges

A trimmed edge joins a number of the first side to a number of the second side, and the numbers of
the two sides overlap. `cycles` is what both cycle finders compute: the cycles of one length that
the search of `Lib.CycleSearch` reports with walks of at most 8192 vertices, as lists of edges.

`cycles_sound`: each of them is a simple cycle of the graph made of listed edges.
`count_cycles`: the only cycle of a component is found as often as its closing edge is listed.
-/

namespace MoMiner.C29

open SimpleGraph CycleSearch

/-! ## Edges and endpoints -/

/-- An edge by its endpoint numbers on the two sides. -/
structure Edge where
  x : UInt32
  y : UInt32
deriving DecidableEq

/-- An endpoint: a number of the first or of the second side. -/
abbrev Vertex := UInt32 ⊕ UInt32

/-- The number of an endpoint on its side. -/
def number : Vertex → UInt32 := Sum.elim id id

def Edge.ends (e : Edge) : Vertex × Vertex := (.inl e.x, .inr e.y)

def Edge.link (e : Edge) : Sym2 Vertex := s(.inl e.x, .inr e.y)

/-- The graph of a list of edges. -/
def graph (edges : List Edge) : SimpleGraph Vertex := fromEdgeSet {z | ∃ e ∈ edges, e.link = z}

/-- The distinct endpoints of a list of edges. -/
def endpoints (edges : List Edge) : Finset Vertex :=
  (edges.flatMap fun e => [.inl e.x, .inr e.y]).toFinset

/-- The edge between two endpoints of different sides. -/
def orient (a b : Vertex) : Edge :=
  if a.isLeft then ⟨number a, number b⟩ else ⟨number b, number a⟩

/-- The edges along a list of endpoints. -/
def legs (path : List Vertex) : List Edge := path.zipWith orient path.tail

/-- The edges of a reported cycle, in the order in which they are emitted. -/
def solution (f : Found Vertex) : List Edge :=
  ⟨number f.edge.1, number f.edge.2⟩ :: (legs f.first ++ legs f.second)

/-- The cap of the parent walks. -/
def maxPathLength : ℕ := 8192

/-- The reported cycles of the target length. -/
def cycles (edges : List Edge) (target : ℕ) : List (List Edge) :=
  ((search maxPathLength (fun _ => none) (edges.map Edge.ends)).filter
    (fun f => f.edges.length = target)).map solution

/-! ## Sides -/

variable {edges : List Edge} {target : ℕ} {a b : Vertex} {e : Edge}

theorem link_injective : Function.Injective Edge.link := by
  rintro ⟨x, y⟩ ⟨x', y'⟩ h
  simpa [Edge.link] using h

theorem link_eq_ends : e.link = s(e.ends.1, e.ends.2) := rfl

theorem graph_adj : (graph edges).Adj a b ↔ ∃ e ∈ edges, e.link = s(a, b) := by
  rw [graph, fromEdgeSet_adj]
  refine and_iff_left_of_imp ?_
  rintro ⟨e, -, h⟩ rfl
  obtain ⟨hx, hy⟩ : Sum.inl e.x = a ∧ Sum.inr e.y = a := by simpa [Edge.link] using h
  cases hx.trans hy.symm

theorem mem_edgeSet_graph {z : Sym2 Vertex} :
    z ∈ (graph edges).edgeSet ↔ ∃ e ∈ edges, e.link = z := by
  induction z with
  | _ a b => exact graph_adj

theorem card_endpoints_le : (endpoints edges).card ≤ 2 * edges.length := by
  refine (List.toFinset_card_le _).trans ?_
  rw [List.length_flatMap]
  simp [Nat.mul_comm]

theorem graph_adj_ends (he : e ∈ edges) : (graph edges).Adj e.ends.1 e.ends.2 :=
  graph_adj.mpr ⟨e, he, rfl⟩

/-- Neighbours are on different sides. -/
theorem isLeft_ne_of_adj (h : (graph edges).Adj a b) : b.isLeft = !a.isLeft := by
  obtain ⟨e, -, he⟩ := graph_adj.mp h
  rcases Sym2.eq_iff.mp he with ⟨rfl, rfl⟩ | ⟨rfl, rfl⟩ <;> rfl

theorem link_orient (h : b.isLeft = !a.isLeft) : (orient a b).link = s(a, b) := by
  rcases a with x | x <;> rcases b with y | y
  · cases h
  · rfl
  · exact Sym2.eq_swap
  · cases h

theorem map_link_legs {path : List Vertex} (h : path.IsChain (graph edges).Adj) :
    (legs path).map Edge.link = steps path := by
  induction h with
  | nil => rfl
  | singleton a => rfl
  | cons_cons hab _ ih =>
    rw [steps_cons_cons, ← ih, ← link_orient (isLeft_ne_of_adj hab)]
    rfl

/-- The emitted edges are those of the reported cycle. -/
theorem map_link_solution {f : Found Vertex} (hf : f.Sound (graph edges))
    (he : ∃ e ∈ edges, f.edge = e.ends) : (solution f).map Edge.link = f.edges := by
  obtain ⟨e, -, he⟩ := he
  rw [solution, List.map_cons, List.map_append, map_link_legs hf.first, map_link_legs hf.second,
    Found.edges, he]
  rfl

/-! ## Soundness -/

theorem forall_adj_ends : ∀ e ∈ edges.map Edge.ends, (graph edges).Adj e.1 e.2 := by
  intro e he
  obtain ⟨d, hd, rfl⟩ := List.mem_map.mp he
  exact graph_adj_ends hd

theorem mem_search {f : Found Vertex}
    (hf : f ∈ search maxPathLength (fun _ => none) (edges.map Edge.ends)) :
    (∃ e ∈ edges, f.edge = e.ends) ∧ f.Sound (graph edges) := by
  obtain ⟨he, hsound⟩ := search_sound (by decide) .empty forall_adj_ends hf
  obtain ⟨e, hmem, heq⟩ := List.mem_map.mp he
  exact ⟨⟨e, hmem, heq.symm⟩, hsound⟩

/-- The edges form one simple cycle of the graph. -/
def IsSimpleCycle (edges sol : List Edge) : Prop :=
  ∃ v, ∃ w : (graph edges).Walk v v, w.IsCycle ∧ w.edges.Perm (sol.map Edge.link)

theorem IsSimpleCycle.nodup {sol : List Edge} (h : IsSimpleCycle edges sol) : sol.Nodup := by
  obtain ⟨v, w, hw, hperm⟩ := h
  exact List.Nodup.of_map _ (hperm.nodup_iff.mp hw.edges_nodup)

theorem IsSimpleCycle.mem {sol : List Edge} (h : IsSimpleCycle edges sol) (he : e ∈ sol) :
    e ∈ edges := by
  obtain ⟨v, w, -, hperm⟩ := h
  have hmem : e.link ∈ w.edges := hperm.mem_iff.mpr (List.mem_map_of_mem he)
  obtain ⟨d, hd, heq⟩ := mem_edgeSet_graph.mp (w.edges_subset_edgeSet hmem)
  exact link_injective heq ▸ hd

theorem graph_mono {edges' : List Edge} (h : edges ⊆ edges') : graph edges ≤ graph edges' := by
  intro a b hab
  obtain ⟨e, he, heq⟩ := graph_adj.mp hab
  exact graph_adj.mpr ⟨e, h he, heq⟩

theorem IsSimpleCycle.mono {edges' sol : List Edge} (h : IsSimpleCycle edges sol)
    (hsub : edges ⊆ edges') : IsSimpleCycle edges' sol := by
  obtain ⟨v, w, hw, hperm⟩ := h
  refine ⟨v, w.mapLe (graph_mono hsub), hw.mapLe _, ?_⟩
  rwa [Walk.edges_mapLe_eq_edges]

/-! ## Completeness -/

/-- An edge of the list is the last of those on a cycle to be listed first. -/
theorem exists_closing {v : Vertex} {w : (graph edges).Walk v v} (hw : w.IsCycle) :
    ∃ e₀ ∈ edges, e₀.link ∈ w.edges ∧
      ∀ e ∈ edges, e.link ∈ w.edges → edges.idxOf e ≤ edges.idxOf e₀ := by
  let on : Finset Edge := edges.toFinset.filter fun e => e.link ∈ w.edges
  have hne : on.Nonempty := by
    obtain ⟨z, hz⟩ := List.exists_mem_of_ne_nil w.edges (by
      simpa using hw.not_nil)
    obtain ⟨e, he, rfl⟩ := mem_edgeSet_graph.mp (w.edges_subset_edgeSet hz)
    exact ⟨e, by simp [on, he, hz]⟩
  obtain ⟨e₀, hmem, hmax⟩ := on.exists_max_image edges.idxOf hne
  simp only [on, Finset.mem_filter, List.mem_toFinset] at hmem hmax
  exact ⟨e₀, hmem.1, hmem.2, fun e he hlink => hmax e ⟨he, hlink⟩⟩

theorem countP_cycles {c : List (Sym2 Vertex)} (hlen : c.length = target) :
    (cycles edges target).countP (fun sol => (sol.map Edge.link).Perm c) =
      (search maxPathLength (fun _ => none) (edges.map Edge.ends)).countP
        (fun f => f.edges.Perm c) := by
  rw [cycles, List.countP_map, List.countP_filter]
  refine List.countP_congr fun f hf => ?_
  obtain ⟨hedge, hsound⟩ := mem_search hf
  simp only [Function.comp_apply, map_link_solution hsound hedge, Bool.and_eq_true,
    decide_eq_true_eq, and_iff_left_iff_imp]
  exact fun hperm => hperm.length_eq.trans hlen

theorem countP_ends {e₀ : Edge} :
    (edges.map Edge.ends).countP (fun e => s(e.1, e.2) = s(e₀.ends.1, e₀.ends.2)) =
      edges.count e₀ := by
  rw [List.countP_map, List.count]
  refine List.countP_congr fun e _ => ?_
  simp only [Function.comp_apply, ← link_eq_ends, link_injective.eq_iff, decide_eq_true_eq,
    beq_iff_eq]

/-- **The only cycle of a component is found as often as its closing edge is listed.** -/
theorem count_cycles (hshort : Short (graph edges) maxPathLength) {v : Vertex}
    {w : (graph edges).Walk v v} (hw : w.IsCycle) (hlen : w.length = target)
    (hunique : ∀ u (w' : (graph edges).Walk u u), w'.IsCycle → (graph edges).Reachable v u →
      w'.edges.Perm w.edges) {e₀ : Edge} (hmem : e₀ ∈ edges) (hon : e₀.link ∈ w.edges)
    (hlast : ∀ e ∈ edges, e.link ∈ w.edges → edges.idxOf e ≤ edges.idxOf e₀) :
    (cycles edges target).countP (fun sol => (sol.map Edge.link).Perm w.edges) =
      edges.count e₀ := by
  obtain ⟨pre, post, hsplit, hnew⟩ := List.eq_append_cons_of_mem hmem
  have hothers : ∀ z ∈ w.edges, z ≠ e₀.link → ∃ e ∈ pre, e.link = z := by
    intro z hz hne
    obtain ⟨e, he, rfl⟩ := mem_edgeSet_graph.mp (w.edges_subset_edgeSet hz)
    have hidx := hlast e he hz
    refine ⟨e, ?_, rfl⟩
    by_contra hpre
    have hee : e₀ ≠ e := fun h => hne (h ▸ rfl)
    rw [hsplit, List.idxOf_append_of_notMem hpre, List.idxOf_append_of_notMem hnew,
      List.idxOf_cons_self, List.idxOf_cons_ne _ hee] at hidx
    omega
  have hends : edges.map Edge.ends = pre.map Edge.ends ++ e₀.ends :: post.map Edge.ends := by
    rw [hsplit, List.map_append, List.map_cons]
  rw [countP_cycles (w.length_edges.trans hlen), ← countP_ends, hends]
  refine count_search hshort (hends ▸ forall_adj_ends) hw hunique hon ?_ ?_
  · intro d hd heq
    obtain ⟨e, he, rfl⟩ := List.mem_map.mp hd
    rw [← link_eq_ends, ← link_eq_ends] at heq
    exact hnew (link_injective heq ▸ he)
  · intro z hz hne
    obtain ⟨e, he, rfl⟩ := hothers z hz hne
    exact ⟨e.ends, List.mem_map_of_mem he, rfl⟩

end MoMiner.C29
