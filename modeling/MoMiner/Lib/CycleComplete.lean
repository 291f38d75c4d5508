import MoMiner.Lib.CycleSearch

/-!
# Completeness of the cycle search

Where all paths of the graph are shorter than the bound of the walks, no walk is cut off. The links
are then a spanning forest of the edges inserted so far (`Spanning`), and an edge is reported
exactly when its ends are connected by the links and it is not a link itself.

`count_search`: a cycle that is the only one of its component is reported each time its closing
edge is inserted, the edge of the cycle that is inserted last.
-/

namespace MoMiner.CycleSearch

open SimpleGraph Links

variable {V : Type*} {G : SimpleGraph V} {L : V → Option V} {cap : ℕ} {a b x y : V}

/-! ## The tree of the links -/

/-- The graph of the links. -/
def tree (L : V → Option V) : SimpleGraph V := fromRel fun x y => L x = some y

/-- Every path of the graph has fewer than `cap` vertices. -/
def Short (G : SimpleGraph V) (cap : ℕ) : Prop :=
  ∀ {a b} (w : G.Walk a b), w.IsPath → w.support.length < cap

theorem Forest.adj_tree (hL : Forest G cap L) :
    (tree L).Adj x y ↔ L x = some y ∨ L y = some x := by
  rw [tree, fromRel_adj, and_iff_right_iff_imp]
  rintro (h | h)
  · exact (hL.adj h).ne
  · exact (hL.adj h).ne.symm

theorem Short.pos (hG : Short G cap) (a : V) : 0 < cap := by
  have := hG (Walk.nil (u := a)) .nil
  omega

/-- No walk up is cut off. -/
theorem Forest.length_chain_lt (hL : Forest G cap L) (hG : Short G cap) :
    (chain L cap a).length < cap := by
  obtain ⟨n, hn⟩ : ∃ n, (chain L cap a).length = n + 1 := by
    obtain ⟨k, hk⟩ : ∃ k, cap = k + 1 := ⟨cap - 1, by have := hG.pos a; omega⟩
    exact ⟨_, by rw [hk, chain, List.length_cons]⟩
  obtain ⟨w, hw, -⟩ := hL.exists_path (a := a) (i := n) (List.getElem?_eq_getElem (by omega))
  rw [List.take_of_length_le (by omega)] at hw
  have hpath : w.IsPath := .mk' (by rw [hw]; exact chain_nodup hL.girth)
  exact hw ▸ hG w hpath

theorem Forest.reachable_of_iter (hL : Forest G cap L) {i : ℕ} (hi : iter L i a = some x) :
    (tree L).Reachable a x := by
  induction i generalizing a with
  | zero =>
    rw [iter, Option.some.injEq] at hi
    exact hi ▸ .refl _
  | succ i ih =>
    rw [iter, Option.bind_eq_some_iff] at hi
    obtain ⟨b, hab, hi⟩ := hi
    exact (hL.adj_tree.mpr (.inl hab)).reachable.trans (ih hi)

/-- The vertex `r` is the root above `a`. -/
def Root (L : V → Option V) (a r : V) : Prop := (∃ i, iter L i a = some r) ∧ L r = none

theorem root_link (h : L a = some b) {r : V} : Root L a r ↔ Root L b r := by
  refine and_congr_left fun hr => ⟨?_, ?_⟩
  · rintro ⟨i, hi⟩
    cases i with
    | zero =>
      rw [iter, Option.some.injEq] at hi
      rw [hi, hr] at h
      cases h
    | succ i => exact ⟨i, by rwa [iter, h, Option.bind_some] at hi⟩
  · rintro ⟨i, hi⟩
    exact ⟨i + 1, by rw [iter, h, Option.bind_some, hi]⟩

theorem Forest.root_congr (hL : Forest G cap L) (h : (tree L).Reachable a b) {r : V} :
    Root L a r ↔ Root L b r := by
  rw [reachable_iff_reflTransGen] at h
  induction h with
  | refl => rfl
  | tail _ hadj ih =>
    rcases hL.adj_tree.mp hadj with h | h
    · exact ih.trans (root_link h)
    · exact ih.trans (root_link h).symm

/-- The root above a vertex lies on its walk. -/
theorem Forest.exists_root (hL : Forest G cap L) (hG : Short G cap) (a : V) :
    ∃ r ∈ chain L cap a, Root L a r := by
  obtain ⟨r, hr, hroot⟩ := chain_complete (hL.length_chain_lt hG (a := a))
  have hmem := List.mem_of_getLast? hr
  obtain ⟨i, -, hi⟩ := mem_chain.mp hmem
  exact ⟨r, hmem, ⟨i, hi⟩, hroot⟩

/-- A root of the vertex lies on its walk. -/
theorem Forest.mem_chain_of_root (hL : Forest G cap L) (hG : Short G cap) {r : V}
    (hr : Root L a r) : r ∈ chain L cap a := by
  obtain ⟨⟨i, hi⟩, -⟩ := hr
  refine List.mem_of_getElem? (i := i) ?_
  rw [getElem?_chain_of_length_lt (hL.length_chain_lt hG), hi]

/-- **Two vertices are connected by the links when their walks have a common vertex.** -/
theorem Forest.reachable_iff (hL : Forest G cap L) (hG : Short G cap) :
    (tree L).Reachable a b ↔ ∃ x ∈ chain L cap a, x ∈ chain L cap b := by
  constructor
  · intro h
    obtain ⟨r, hmem, hr⟩ := hL.exists_root hG a
    exact ⟨r, hmem, hL.mem_chain_of_root hG ((hL.root_congr h).mp hr)⟩
  · rintro ⟨x, ha, hb⟩
    obtain ⟨i, -, hi⟩ := mem_chain.mp ha
    obtain ⟨j, -, hj⟩ := mem_chain.mp hb
    exact (hL.reachable_of_iter hi).trans (hL.reachable_of_iter hj).symm

/-! ## Spanning forests -/

/-- The links are a spanning forest of the edges inserted so far. -/
structure Spanning (G : SimpleGraph V) (cap : ℕ) (L : V → Option V) (done : List (V × V)) : Prop
    extends Forest G cap L where
  listed : ∀ {x y}, (tree L).Adj x y → ∃ e ∈ done, s(e.1, e.2) = s(x, y)
  spans : ∀ e ∈ done, (tree L).Reachable e.1 e.2

theorem Spanning.empty : Spanning G cap (fun _ => none) [] where
  toForest := .empty
  listed h := by simp [tree] at h
  spans := by simp

/-- A graph whose neighbours are connected in another one has its connections there. -/
theorem reachable_of_adj {H K : SimpleGraph V} (hadj : ∀ {x y}, H.Adj x y → K.Reachable x y)
    (h : H.Reachable a b) : K.Reachable a b := by
  rw [reachable_iff_reflTransGen] at h
  induction h with
  | refl => rfl
  | tail _ hxy ih => exact ih.trans (hadj hxy)

/-- The other edges of a cycle connect the ends of an edge of it. -/
theorem Spanning.reachable_closing {done : List (V × V)} (hL : Spanning G cap L done) {v : V}
    {w : G.Walk v v} (hw : w.IsCycle) (hab : s(a, b) ∈ w.edges)
    (hothers : ∀ z ∈ w.edges, z ≠ s(a, b) → ∃ e ∈ done, s(e.1, e.2) = z) :
    (tree L).Reachable a b := by
  let H : SimpleGraph V := fromEdgeSet {z | z ∈ w.edges}
  have hwH : ∀ z ∈ w.edges, z ∈ H.edgeSet := fun z hz => by
    rw [edgeSet_fromEdgeSet]
    exact ⟨hz, G.not_isDiag_of_mem_edgeSet (w.edges_subset_edgeSet hz)⟩
  obtain ⟨-, hdel⟩ := adj_and_reachable_delete_edges_iff_exists_cycle.mpr
    ⟨v, w.transfer H hwH, hw.transfer hwH, by rwa [Walk.edges_transfer]⟩
  refine reachable_of_adj (fun {x y} hxy => ?_) hdel
  rw [deleteEdges_adj, fromEdgeSet_adj] at hxy
  obtain ⟨e, he, heq⟩ := hothers _ hxy.1.1 hxy.2
  have hspans := hL.spans e he
  rcases Sym2.eq_iff.mp heq with ⟨h₁, h₂⟩ | ⟨h₁, h₂⟩
  · exact h₁ ▸ h₂ ▸ hspans
  · exact h₁ ▸ h₂ ▸ hspans.symm

/-! ## One insertion -/

variable [DecidableEq V] {e : V × V} {f : Found V}

/-- An edge is reported exactly when the links connect its ends and it is not a link. -/
theorem Forest.insert_isSome (hL : Forest G cap L) (hG : Short G cap) :
    (insert cap L e).2.isSome ↔ ¬ (tree L).Adj e.1 e.2 ∧ (tree L).Reachable e.1 e.2 := by
  rw [hL.adj_tree, hL.reachable_iff hG]
  rcases insert_cases cap L e with ⟨hins, hlink⟩ | ⟨hnew, i, j, hmeet, hins⟩ | ⟨hdisj, hins⟩
  · simp [hins, hlink]
  · obtain ⟨x, hp, hq, -⟩ := meet_eq_some.mp hmeet
    have hcommon : ∃ x ∈ chain L cap e.1, x ∈ chain L cap e.2 :=
      ⟨x, List.mem_of_getElem? hp, List.mem_of_getElem? hq⟩
    rw [hins]
    simp [hnew, hcommon]
  · have hnone : (insert cap L e).2 = none := by rcases hins with hins | hins <;> rw [hins]
    simp only [hnone, Option.isSome_none, Bool.false_eq_true, false_iff, not_and, not_exists]
    exact fun _ => hdisj

theorem Forest.tree_attach (hL : Forest G cap L) (hG : Short G cap) (hab : G.Adj a b)
    (hdisj : ∀ x ∈ chain L cap b, x ∉ chain L cap a) :
    (tree (attach L (chain L cap a) a b)).Adj x y ↔ (tree L).Adj x y ∨ s(x, y) = s(a, b) := by
  rw [(hL.after_attach (hG.pos a) hab hdisj).adj_tree, hL.adj_tree]
  constructor
  · rintro (h | h)
    · rcases attach_cases hL.girth (hG.pos a) h with ⟨rfl, rfl⟩ | h | h
      · exact .inr rfl
      · exact .inl (.inr h)
      · exact .inl (.inl h)
    · rcases attach_cases hL.girth (hG.pos a) h with ⟨rfl, rfl⟩ | h | h
      · exact .inr Sym2.eq_swap
      · exact .inl (.inl h)
      · exact .inl (.inr h)
  · have hself : attach L (chain L cap a) a b a = some b := Function.update_self ..
    rintro ((h | h) | h)
    · exact attach_keeps hL.girth (hL.length_chain_lt hG) h
    · exact (attach_keeps hL.girth (hL.length_chain_lt hG) h).symm
    · rcases Sym2.eq_iff.mp h with ⟨rfl, rfl⟩ | ⟨rfl, rfl⟩
      · exact .inl hself
      · exact .inr hself

/-- An insertion adds the edge to the tree if its ends were not connected. -/
theorem Forest.tree_insert (hL : Forest G cap L) (hG : Short G cap) (he : G.Adj e.1 e.2) :
    (tree (insert cap L e).1).Adj x y ↔
      (tree L).Adj x y ∨ (¬ (tree L).Reachable e.1 e.2 ∧ s(x, y) = s(e.1, e.2)) := by
  rcases insert_cases cap L e with ⟨hins, hlink⟩ | ⟨-, i, j, hmeet, hins⟩ | ⟨hdisj, hins⟩
  · simp [hins, (hL.adj_tree.mpr hlink).reachable]
  · obtain ⟨x, hp, hq, -⟩ := meet_eq_some.mp hmeet
    have hreach : (tree L).Reachable e.1 e.2 :=
      (hL.reachable_iff hG).mpr ⟨x, List.mem_of_getElem? hp, List.mem_of_getElem? hq⟩
    simp [hins, hreach]
  · have hreach : ¬ (tree L).Reachable e.1 e.2 := by
      rw [hL.reachable_iff hG]
      rintro ⟨x, hx, hx'⟩
      exact hdisj x hx hx'
    rcases hins with hins | hins <;> rw [hins]
    · rw [hL.tree_attach hG he.symm hdisj, Sym2.eq_swap (a := e.2)]
      simp [hreach]
    · rw [hL.tree_attach hG he fun x hx hx' => hdisj x hx' hx]
      simp [hreach]

/-! ## Many insertions -/

theorem search_append (es es' : List (V × V)) :
    search cap L (es ++ es') = search cap L es ++ search cap (links cap L es) es' := by
  induction es generalizing L with
  | nil => rfl
  | cons e es ih => rw [List.cons_append, search, ih, search, List.append_assoc]; rfl

theorem Spanning.after_insert {done : List (V × V)} (hL : Spanning G cap L done)
    (hG : Short G cap) (he : G.Adj e.1 e.2) :
    Spanning G cap (insert cap L e).1 (done ++ [e]) where
  toForest := hL.toForest.after_insert (hG.pos e.1) he
  listed h := by
    rcases (hL.tree_insert hG he).mp h with h | ⟨-, h⟩
    · obtain ⟨d, hd, heq⟩ := hL.listed h
      exact ⟨d, List.mem_append_left _ hd, heq⟩
    · exact ⟨e, List.mem_append_right _ (List.mem_singleton_self e), h.symm⟩
  spans d hd := by
    have hmono : tree L ≤ tree (insert cap L e).1 := fun x y h =>
      (hL.tree_insert hG he).mpr (.inl h)
    rcases List.mem_append.mp hd with hd | hd
    · exact (hL.spans d hd).mono hmono
    · rw [List.mem_singleton] at hd
      subst hd
      by_cases hreach : (tree L).Reachable d.1 d.2
      · exact hreach.mono hmono
      · exact Adj.reachable ((hL.tree_insert hG he).mpr (.inr ⟨hreach, rfl⟩))

theorem Spanning.after_links {done : List (V × V)} (hL : Spanning G cap L done)
    (hG : Short G cap) {es : List (V × V)} (hes : ∀ e ∈ es, G.Adj e.1 e.2) :
    Spanning G cap (links cap L es) (done ++ es) := by
  induction es generalizing L done with
  | nil => simpa [links] using hL
  | cons e es ih =>
    have hstep := hL.after_insert hG (hes e List.mem_cons_self)
    have hrest := ih hstep fun e' he' => hes e' (List.mem_cons_of_mem _ he')
    simpa [links] using hrest

/-! ## The only cycle of a component -/

/-- Where only listed edges are searched, only listed edges are reported. -/
theorem listed_of_search {es : List (V × V)} (hcap : 0 < cap) (hes : ∀ e ∈ es, e.1 ≠ e.2)
    (hf : f ∈ search cap (fun _ => none) es) {z : Sym2 V} (hz : z ∈ f.edges) :
    ∃ e ∈ es, s(e.1, e.2) = z := by
  let H : SimpleGraph V := fromEdgeSet {z | ∃ e ∈ es, s(e.1, e.2) = z}
  have hH : ∀ e ∈ es, H.Adj e.1 e.2 := fun e he => by
    rw [fromEdgeSet_adj]
    exact ⟨⟨e, he, rfl⟩, hes e he⟩
  obtain ⟨-, -, -, w, -, hperm⟩ := search_sound (G := H) hcap .empty hH hf
  have hedge : z ∈ H.edgeSet := w.edges_subset_edgeSet (hperm.mem_iff.mpr hz)
  rw [edgeSet_fromEdgeSet] at hedge
  exact hedge.1

/-- The reported cycle but for its closing edge lies in the tree. -/
theorem Forest.tree_of_found (hL : Forest G cap L) (hf : (insert cap L e).2 = some f)
    {z : Sym2 V} (hz : z ∈ f.edges) : z = s(e.1, e.2) ∨ z ∈ (tree L).edgeSet := by
  rcases insert_cases cap L e with ⟨hins, -⟩ | ⟨-, i, j, -, hins⟩ | ⟨-, hins | hins⟩ <;>
    rw [hins] at hf
  · cases hf
  · obtain rfl := Option.some.inj hf
    rw [Found.edges, List.mem_cons, List.mem_append] at hz
    rcases hz with hz | hz
    · exact .inl hz
    · have hlink : ∃ a b, z = s(a, b) ∧ L a = some b := by
        rcases hz with hz | hz <;> exact mem_steps (isChain_chain.take _) hz
      obtain ⟨a, b, rfl, hab⟩ := hlink
      exact .inr (hL.adj_tree.mpr (.inl hab))
  · cases hf
  · cases hf

section Closing

variable {e₀ : V × V} {c : List (Sym2 V)}

/-- Once the links connect the ends of the closing edge, the cycle is reported whenever the closing
edge comes. -/
theorem count_search_closing (hG : Short G cap) {es : List (V × V)} (hL : Forest G cap L)
    (hes : ∀ e ∈ es, G.Adj e.1 e.2) (hc : s(e₀.1, e₀.2) ∈ c)
    (hunique : ∀ e (w : G.Walk e e), w.IsCycle → s(e₀.1, e₀.2) ∈ w.edges → w.edges.Perm c)
    (hreach : (tree L).Reachable e₀.1 e₀.2) (hadj : ¬ (tree L).Adj e₀.1 e₀.2) :
    (search cap L es).countP (fun f => f.edges.Perm c) =
      es.countP (fun e => s(e.1, e.2) = s(e₀.1, e₀.2)) := by
  induction es generalizing L with
  | nil => rfl
  | cons e es ih =>
    have he := hes e List.mem_cons_self
    have hadj' : ¬ (tree (insert cap L e).1).Adj e₀.1 e₀.2 := by
      rw [hL.tree_insert hG he]
      rintro (h | ⟨hn, heq⟩)
      · exact hadj h
      · rcases Sym2.eq_iff.mp heq with ⟨h₁, h₂⟩ | ⟨h₁, h₂⟩
        · exact hn (h₁ ▸ h₂ ▸ hreach)
        · exact hn (h₁ ▸ h₂ ▸ hreach.symm)
    have hreach' : (tree (insert cap L e).1).Reachable e₀.1 e₀.2 :=
      hreach.mono fun x y h => (hL.tree_insert hG he).mpr (.inl h)
    have hrest := ih (hL.after_insert (hG.pos e.1) he)
      (fun e' he' => hes e' (List.mem_cons_of_mem _ he')) hreach' hadj'
    have hhead : (insert cap L e).2.toList.countP (fun f => f.edges.Perm c) =
        if s(e.1, e.2) = s(e₀.1, e₀.2) then 1 else 0 := by
      by_cases heq : s(e.1, e.2) = s(e₀.1, e₀.2)
      · have hsome : (insert cap L e).2.isSome := by
          rw [hL.insert_isSome hG]
          rcases Sym2.eq_iff.mp heq with ⟨h₁, h₂⟩ | ⟨h₁, h₂⟩
          · exact h₁ ▸ h₂ ▸ ⟨hadj, hreach⟩
          · exact h₁ ▸ h₂ ▸ ⟨fun h => hadj h.symm, hreach.symm⟩
        obtain ⟨f, hf⟩ := Option.isSome_iff_exists.mp hsome
        obtain ⟨hfe, -, -, w, hw, hperm⟩ := insert_sound hL he hf
        have hmem : s(e₀.1, e₀.2) ∈ w.edges := by
          rw [hperm.mem_iff, Found.edges, hfe, heq]
          exact List.mem_cons_self
        have hfc : f.edges.Perm c := hperm.symm.trans (hunique _ w hw hmem)
        simp [hf, heq, hfc]
      · cases hf : (insert cap L e).2 with
        | none => simp [heq]
        | some f =>
          have hfc : ¬ f.edges.Perm c := by
            intro hperm
            rcases hL.tree_of_found hf (hperm.mem_iff.mpr hc) with h | h
            · exact heq h.symm
            · exact hadj h
          simp [heq, hfc]
    rw [search, List.countP_append, hhead, hrest, List.countP_cons, Nat.add_comm]
    simp

/-- **The only cycle of a component is reported each time its closing edge is inserted.** -/
theorem count_search (hG : Short G cap) {pre post : List (V × V)}
    (hes : ∀ e ∈ pre ++ e₀ :: post, G.Adj e.1 e.2) {v : V} {w : G.Walk v v} (hw : w.IsCycle)
    (hunique : ∀ x (w' : G.Walk x x), w'.IsCycle → G.Reachable v x → w'.edges.Perm w.edges)
    (hclosing : s(e₀.1, e₀.2) ∈ w.edges) (hpre : ∀ e ∈ pre, s(e.1, e.2) ≠ s(e₀.1, e₀.2))
    (hothers : ∀ z ∈ w.edges, z ≠ s(e₀.1, e₀.2) → ∃ e ∈ pre, s(e.1, e.2) = z) :
    (search cap (fun _ => none) (pre ++ e₀ :: post)).countP (fun f => f.edges.Perm w.edges) =
      (pre ++ e₀ :: post).countP (fun e => s(e.1, e.2) = s(e₀.1, e₀.2)) := by
  have hpre_adj : ∀ e ∈ pre, G.Adj e.1 e.2 := fun e he => hes e (List.mem_append_left _ he)
  have hspan : Spanning G cap (links cap (fun _ => none) pre) pre := by
    simpa using Spanning.empty.after_links hG hpre_adj
  have hbefore : (search cap (fun _ => none) pre).countP (fun f => f.edges.Perm w.edges) = 0 := by
    refine List.countP_eq_zero.mpr fun f hf hperm => ?_
    have hmem := (of_decide_eq_true hperm).mem_iff.mpr hclosing
    obtain ⟨e, he, heq⟩ := listed_of_search (hG.pos v) (fun e he => (hpre_adj e he).ne) hf hmem
    exact hpre e he heq
  have hadj : ¬ (tree (links cap (fun _ => none) pre)).Adj e₀.1 e₀.2 := by
    intro h
    obtain ⟨e, he, heq⟩ := hspan.listed h
    exact hpre e he heq
  have hreach := hspan.reachable_closing hw hclosing hothers
  have hcycles : ∀ x (w' : G.Walk x x), w'.IsCycle → s(e₀.1, e₀.2) ∈ w'.edges →
      w'.edges.Perm w.edges := fun x w' hw' hmem => by
    refine hunique x w' hw' ?_
    have hv := (w.takeUntil _ (w.fst_mem_support_of_mem_edges hclosing)).reachable
    have hx := (w'.takeUntil _ (w'.fst_mem_support_of_mem_edges hmem)).reachable
    exact hv.trans hx.symm
  have hafter := count_search_closing hG hspan.toForest
    (fun e he => hes e (List.mem_append_right _ he)) hclosing hcycles hreach hadj
  have hnone : pre.countP (fun e => decide (s(e.1, e.2) = s(e₀.1, e₀.2))) = 0 :=
    List.countP_eq_zero.mpr fun e he h => hpre e he (of_decide_eq_true h)
  rw [search_append, List.countP_append, hbefore, hafter, List.countP_append, hnone]

end Closing

end MoMiner.CycleSearch
