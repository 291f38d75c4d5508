import Mathlib.Combinatorics.SimpleGraph.Connectivity.Connected
import MoMiner.Lib.Links

/-!
# Searching cycles with parent links

The edges of a graph are inserted one after the other into a forest of parent links. An edge whose
ends have a common vertex above them closes a cycle, which is reported; another edge joins two
trees. The walks to the common vertex are bounded, so on long ways two trees may be joined that
are one: the links then have long cycles, but no short ones (`Links.Girth`).

`search_sound`: every reported cycle is a simple cycle of the graph, whatever the bound.
-/

namespace MoMiner.CycleSearch

open SimpleGraph Links

variable {V : Type*}

/-! ## The steps of a list of vertices -/

/-- The pairs of neighbours in a list. -/
def steps (l : List V) : List (Sym2 V) := l.zipWith (s(·, ·)) l.tail

variable {G : SimpleGraph V} {L : V → Option V} {cap : ℕ} {a b x y : V}

theorem steps_cons_cons {l : List V} : steps (a :: b :: l) = s(a, b) :: steps (b :: l) := rfl

theorem length_steps (l : List V) : (steps l).length = l.length - 1 := by
  rw [steps, List.length_zipWith, List.length_tail]
  omega

theorem mem_steps {r : V → V → Prop} {l : List V} (hchain : l.IsChain r) {z : Sym2 V}
    (hz : z ∈ steps l) : ∃ a b, z = s(a, b) ∧ r a b := by
  induction hchain with
  | nil => simp [steps] at hz
  | singleton a => simp [steps] at hz
  | cons_cons hab _ ih =>
    rw [steps_cons_cons, List.mem_cons] at hz
    rcases hz with rfl | hz
    · exact ⟨_, _, rfl, hab⟩
    · exact ih hz

/-- A chain of neighbours is a walk. -/
theorem exists_walk {l : List V} (hchain : l.IsChain G.Adj) (hhead : l.head? = some a)
    (hlast : l.getLast? = some b) : ∃ w : G.Walk a b, w.support = l ∧ w.edges = steps l := by
  induction hchain generalizing a with
  | nil => simp at hhead
  | singleton c =>
    simp only [List.head?_cons, List.getLast?_singleton, Option.some.injEq] at hhead hlast
    subst hhead hlast
    exact ⟨.nil, rfl, rfl⟩
  | @cons_cons c d l hcd _ ih =>
    rw [List.head?_cons, Option.some.injEq] at hhead
    subst hhead
    rw [List.getLast?_cons_cons] at hlast
    obtain ⟨w, hsupport, hedges⟩ := ih rfl hlast
    exact ⟨.cons hcd w, by rw [Walk.support_cons, hsupport],
      by rw [Walk.edges_cons, hedges, steps_cons_cons]⟩

/-! ## The invariant -/

/-- The links are edges of the graph, and no cycle of them is within the bound of the walks. -/
structure Forest (G : SimpleGraph V) (cap : ℕ) (L : V → Option V) : Prop where
  adj : ∀ {x y}, L x = some y → G.Adj x y
  girth : Girth L cap

theorem Forest.empty : Forest G cap fun _ => none where
  adj := by simp
  girth v i hi _ := by
    obtain ⟨j, rfl⟩ : ∃ j, i = j + 1 := ⟨i - 1, by omega⟩
    simp [iter]

/-- The way from a vertex up to another one of its chain is a path along the links. -/
theorem Forest.exists_path (hL : Forest G cap L) {i : ℕ} (hx : (chain L cap a)[i]? = some x) :
    ∃ w : G.Walk a x, w.support = (chain L cap a).take (i + 1) ∧
      w.edges = steps ((chain L cap a).take (i + 1)) := by
  have hlt : i < (chain L cap a).length := (List.getElem?_eq_some_iff.mp hx).1
  refine exists_walk ((isChain_chain.take (i + 1)).imp fun _ _ => hL.adj) ?_ ?_
  · rw [List.head?_take, if_neg (Nat.succ_ne_zero i), List.head?_eq_getElem?,
      getElem?_chain (by have := length_chain_le (L := L) (v := a) (k := cap); omega)]
    rfl
  · rw [List.getLast?_take, if_neg (Nat.succ_ne_zero i), Nat.add_sub_cancel, hx]
    rfl

/-! ## The search -/

variable [DecidableEq V]

/-- A reported cycle: the closing edge and the ways up from its ends to their common vertex. -/
structure Found (V : Type*) where
  edge : V × V
  first : List V
  second : List V

/-- The edges of a reported cycle. -/
def Found.edges (f : Found V) : List (Sym2 V) :=
  s(f.edge.1, f.edge.2) :: (steps f.first ++ steps f.second)

/-- The indices of the first vertex of `p` that lies on `q`. -/
def meet (p q : List V) : Option (ℕ × ℕ) :=
  (p.findIdx? (· ∈ q)).bind fun i => p[i]?.map fun x => (i, q.idxOf x)

/-- Insert an edge into the links, and report the cycle that it closes. -/
def insert (cap : ℕ) (L : V → Option V) (e : V × V) : (V → Option V) × Option (Found V) :=
  if L e.1 = some e.2 ∨ L e.2 = some e.1 then (L, none)
  else
    let p := chain L cap e.1
    let q := chain L cap e.2
    match meet p q with
    | some (i, j) => (L, some ⟨e, p.take (i + 1), q.take (j + 1)⟩)
    | none =>
      if q.length < p.length then (attach L q e.2 e.1, none) else (attach L p e.1 e.2, none)

/-- Insert the edges of a list one after the other and collect the reports. -/
def search (cap : ℕ) : (V → Option V) → List (V × V) → List (Found V)
  | _, [] => []
  | L, e :: es => (insert cap L e).2.toList ++ search cap (insert cap L e).1 es

/-- The links after inserting the edges of a list. -/
def links (cap : ℕ) (L : V → Option V) (es : List (V × V)) : V → Option V :=
  es.foldl (fun L e => (insert cap L e).1) L

/-! ## Meeting -/

theorem findIdx?_mem {p q : List V} {i : ℕ} : p.findIdx? (· ∈ q) = some i ↔
    ∃ x ∈ q, p[i]? = some x ∧ ∀ y ∈ p.take i, y ∉ q := by
  rw [List.findIdx?_eq_some_iff_getElem]
  constructor
  · rintro ⟨hlt, hx, hbefore⟩
    refine ⟨p[i], by simpa using hx, List.getElem?_eq_getElem hlt, fun y hy => ?_⟩
    obtain ⟨m, hm, rfl⟩ := List.mem_iff_getElem.mp hy
    rw [List.length_take] at hm
    rw [List.getElem_take]
    simpa using hbefore m (by omega)
  · rintro ⟨x, hx, hi, hbefore⟩
    obtain ⟨hlt, rfl⟩ := List.getElem?_eq_some_iff.mp hi
    refine ⟨hlt, by simpa using hx, fun m hm => ?_⟩
    have hmem : p.get ⟨m, by omega⟩ ∈ p.take i :=
      List.mem_take_iff_getElem.mpr ⟨m, by omega, rfl⟩
    simpa using hbefore _ hmem

theorem meet_eq_none {p q : List V} : meet p q = none ↔ ∀ x ∈ p, x ∉ q := by
  constructor
  · intro h x hx hq
    cases hi : p.findIdx? (· ∈ q) with
    | none =>
      rw [List.findIdx?_eq_none_iff] at hi
      simpa [hq] using hi x hx
    | some i =>
      obtain ⟨y, -, hy, -⟩ := findIdx?_mem.mp hi
      simp [meet, hi, hy] at h
  · intro h
    have hi : p.findIdx? (· ∈ q) = none := by
      rw [List.findIdx?_eq_none_iff]
      exact fun x hx => by simpa using h x hx
    simp [meet, hi]

/-- The meeting vertex is the first of `p` on `q`, at its first place there. -/
theorem meet_eq_some {p q : List V} {i j : ℕ} : meet p q = some (i, j) ↔
    ∃ x, p[i]? = some x ∧ q[j]? = some x ∧ (∀ y ∈ p.take i, y ∉ q) ∧ x ∉ q.take j := by
  constructor
  · intro h
    simp only [meet, Option.bind_eq_some_iff, Option.map_eq_some_iff, Prod.mk.injEq] at h
    obtain ⟨_, hi, x, hx, rfl, rfl⟩ := h
    obtain ⟨y, hy, hiy, hbefore⟩ := findIdx?_mem.mp hi
    cases hx.symm.trans hiy
    refine ⟨x, hx, List.getElem?_idxOf hy, hbefore, fun hmem => ?_⟩
    exact absurd ((List.mem_take_iff_idxOf_lt hy).mp hmem) (lt_irrefl _)
  · rintro ⟨x, hi, hj, hbefore, hfirst⟩
    have hmem : x ∈ q := List.mem_of_getElem? hj
    have hidx : q.idxOf x = j := by
      refine le_antisymm ?_ (not_lt.mp fun hlt => ?_)
      · have hin : x ∈ q.take (j + 1) := by
          refine List.mem_of_getElem? (i := j) ?_
          rw [List.getElem?_take_of_lt (Nat.lt_succ_self j), hj]
        exact Nat.lt_succ_iff.mp ((List.mem_take_iff_idxOf_lt hmem).mp hin)
      · exact hfirst ((List.mem_take_iff_idxOf_lt hmem).mpr hlt)
    simp [meet, findIdx?_mem.mpr ⟨x, hmem, hi, hbefore⟩, hi, hidx]

/-- A search over the places of `p` that finds the place on `q`, if there is one, meets. -/
theorem findSome?_eq_meet {p q : List V} {place : ℕ → Option ℕ} (hq : q.Nodup)
    (hsound : ∀ i j, i < p.length → place i = some j → ∃ x, p[i]? = some x ∧ q[j]? = some x)
    (hcomplete : ∀ i x, p[i]? = some x → x ∈ q → (place i).isSome) :
    (List.range p.length).findSome? (fun i => (place i).map fun j => (i, j)) = meet p q := by
  cases hmeet : meet p q with
  | none =>
    rw [List.findSome?_eq_none_iff]
    intro i hi
    cases hj : place i with
    | none => rfl
    | some j =>
      obtain ⟨x, hp, hq⟩ := hsound i j (List.mem_range.mp hi) hj
      exact absurd (List.mem_of_getElem? hq)
        (meet_eq_none.mp hmeet x (List.mem_of_getElem? hp))
  | some ij =>
    obtain ⟨i, j⟩ := ij
    obtain ⟨x, hpx, hqx, hbefore, -⟩ := meet_eq_some.mp hmeet
    have hi : i < p.length := (List.getElem?_eq_some_iff.mp hpx).1
    obtain ⟨m, hm⟩ := Option.isSome_iff_exists.mp (hcomplete i x hpx (List.mem_of_getElem? hqx))
    have hmj : m = j := by
      obtain ⟨y, hpy, hqy⟩ := hsound i m hi hm
      obtain rfl := Option.some.inj (hpx.symm.trans hpy)
      have hlt : m < q.length := (List.getElem?_eq_some_iff.mp hqy).1
      exact (List.getElem?_inj hlt hq).mp (hqy.trans hqx.symm)
    refine List.findSome?_eq_some_iff.mpr
      ⟨List.range i, i, List.range' (i + 1) (p.length - (i + 1)), ?_, by rw [hm, hmj]; rfl, ?_⟩
    · have hlen : p.length = i + (p.length - (i + 1) + 1) := by omega
      rw [List.range_eq_range', List.range_eq_range', ← List.range'_succ, hlen,
        ← List.range'_append_1, Nat.zero_add, ← hlen]
    · intro n hn
      have hn : n < i := List.mem_range.mp hn
      cases hp : place n with
      | none => rfl
      | some k =>
        obtain ⟨y, hpy, hqy⟩ := hsound n k (by omega) hp
        refine absurd (List.mem_of_getElem? hqy) (hbefore y ?_)
        exact List.mem_of_getElem? (by rw [List.getElem?_take_of_lt hn, hpy])

/-! ## One insertion -/

variable {e : V × V} {f : Found V}

theorem Forest.after_attach (hL : Forest G cap L) (hcap : 0 < cap) (hab : G.Adj a b)
    (hdisj : ∀ x ∈ chain L cap b, x ∉ chain L cap a) :
    Forest G cap (attach L (chain L cap a) a b) where
  adj h := by
    rcases attach_cases hL.girth hcap h with ⟨rfl, rfl⟩ | hback | hsame
    · exact hab
    · exact (hL.adj hback).symm
    · exact hL.adj hsame
  girth := girth_attach hL.girth hdisj

/-- The length of the cycle by the places of the common vertex. -/
theorem length_edges {p q : List V} {i j : ℕ} (h : meet p q = some (i, j)) :
    (Found.edges ⟨e, p.take (i + 1), q.take (j + 1)⟩).length = 1 + i + j := by
  obtain ⟨x, hp, hq, -⟩ := meet_eq_some.mp h
  have hi := (List.getElem?_eq_some_iff.mp hp).1
  have hj := (List.getElem?_eq_some_iff.mp hq).1
  rw [Found.edges, List.length_cons, List.length_append, length_steps, length_steps,
    List.length_take, List.length_take]
  omega

/-- What inserting an edge can do: skip it, report a cycle, or attach one end below the other. -/
theorem insert_cases (cap : ℕ) (L : V → Option V) (e : V × V) :
    (insert cap L e = (L, none) ∧ (L e.1 = some e.2 ∨ L e.2 = some e.1)) ∨
    (¬ (L e.1 = some e.2 ∨ L e.2 = some e.1) ∧ ∃ i j,
      meet (chain L cap e.1) (chain L cap e.2) = some (i, j) ∧ insert cap L e =
        (L, some ⟨e, (chain L cap e.1).take (i + 1), (chain L cap e.2).take (j + 1)⟩)) ∨
    ((∀ x ∈ chain L cap e.1, x ∉ chain L cap e.2) ∧
      (insert cap L e = (attach L (chain L cap e.2) e.2 e.1, none) ∨
        insert cap L e = (attach L (chain L cap e.1) e.1 e.2, none))) := by
  by_cases hskip : L e.1 = some e.2 ∨ L e.2 = some e.1
  · exact .inl ⟨by rw [insert, if_pos hskip], hskip⟩
  cases hmeet : meet (chain L cap e.1) (chain L cap e.2) with
  | some ij => exact .inr (.inl ⟨hskip, ij.1, ij.2, rfl, by simp [insert, hskip, hmeet]⟩)
  | none =>
    refine .inr (.inr ⟨meet_eq_none.mp hmeet, ?_⟩)
    by_cases hlen : (chain L cap e.2).length < (chain L cap e.1).length
    · exact .inl (by simp [insert, hskip, hmeet, hlen])
    · exact .inr (by simp [insert, hskip, hmeet, hlen])

theorem Forest.after_insert (hL : Forest G cap L) (hcap : 0 < cap) (he : G.Adj e.1 e.2) :
    Forest G cap (insert cap L e).1 := by
  rcases insert_cases cap L e with ⟨hins, -⟩ | ⟨-, i, j, -, hins⟩ | ⟨hdisj, hins | hins⟩ <;>
    rw [hins]
  · exact hL
  · exact hL
  · exact hL.after_attach hcap he.symm hdisj
  · exact hL.after_attach hcap he fun x hx hx' => hdisj x hx' hx

theorem Forest.after_links (hL : Forest G cap L) (hcap : 0 < cap) {es : List (V × V)}
    (hes : ∀ e ∈ es, G.Adj e.1 e.2) : Forest G cap (links cap L es) := by
  induction es generalizing L with
  | nil => exact hL
  | cons e es ih =>
    exact ih (hL.after_insert hcap (hes e List.mem_cons_self))
      fun e' he' => hes e' (List.mem_cons_of_mem _ he')

/-! ## Soundness -/

/-- The ways of the report run along edges and are a simple cycle with its closing edge. -/
structure Found.Sound (G : SimpleGraph V) (f : Found V) : Prop where
  first : f.first.IsChain G.Adj
  second : f.second.IsChain G.Adj
  cycle : ∃ w : G.Walk f.edge.1 f.edge.1, w.IsCycle ∧ w.edges.Perm f.edges

/-- **An edge that is reported closes a simple cycle with the ways to the common vertex.** -/
theorem insert_sound (hL : Forest G cap L) (he : G.Adj e.1 e.2)
    (hf : (insert cap L e).2 = some f) : f.edge = e ∧ f.Sound G := by
  rcases insert_cases cap L e with ⟨hins, -⟩ | ⟨hnew, i, j, hmeet, hins⟩ | ⟨-, hins | hins⟩ <;>
    rw [hins] at hf
  · cases hf
  · obtain rfl := Option.some.inj hf
    obtain ⟨x, hpx, hqx, hbefore, -⟩ := meet_eq_some.mp hmeet
    obtain ⟨wp, hps, hpe⟩ := hL.exists_path hpx
    obtain ⟨wq, hqs, hqe⟩ := hL.exists_path hqx
    have hways : ∀ v n, ((chain L cap v).take n).IsChain G.Adj := fun v n =>
      (isChain_chain.take n).imp fun _ _ => hL.adj
    refine ⟨rfl, hways _ _, hways _ _, .cons he (wq.append wp.reverse), ?_, ?_⟩
    · rw [Walk.cons_isCycle_iff, Walk.isPath_def, Walk.support_append, Walk.support_reverse, hps,
        hqs]
      have hnodup : ∀ v, (chain L cap v).Nodup := fun v => chain_nodup hL.girth
      refine ⟨?_, ?_⟩
      · have htail : ((chain L cap e.1).take (i + 1)).reverse.tail =
            ((chain L cap e.1).take i).reverse := by
          rw [List.take_add_one, hpx]
          simp
        rw [htail, List.nodup_append', List.nodup_reverse]
        refine ⟨(hnodup _).take, (hnodup _).take, fun y hq hp => ?_⟩
        exact hbefore y (List.mem_reverse.mp hp) (List.mem_of_mem_take hq)
      · intro hmem
        rw [Walk.edges_append, Walk.edges_reverse, List.mem_append, List.mem_reverse, hpe, hqe]
          at hmem
        -- Both ways consist of links, and the edge is none of them.
        have hlink : ∃ a b, s(e.1, e.2) = s(a, b) ∧ L a = some b := by
          rcases hmem with hmem | hmem <;> exact mem_steps (isChain_chain.take _) hmem
        obtain ⟨a, b, heq, hab⟩ := hlink
        rcases Sym2.eq_iff.mp heq with ⟨rfl, rfl⟩ | ⟨rfl, rfl⟩
        · exact hnew (.inl hab)
        · exact hnew (.inr hab)
    · rw [Walk.edges_cons, Walk.edges_append, Walk.edges_reverse, hpe, hqe]
      refine List.Perm.cons _ (List.perm_append_comm.trans ?_)
      exact List.Perm.append (List.reverse_perm _) (List.Perm.refl _)
  · cases hf
  · cases hf

/-- **Every reported cycle is a simple cycle of the graph.** -/
theorem search_sound (hcap : 0 < cap) {es : List (V × V)} (hL : Forest G cap L)
    (hes : ∀ e ∈ es, G.Adj e.1 e.2) (hf : f ∈ search cap L es) :
    f.edge ∈ es ∧ f.Sound G := by
  induction es generalizing L with
  | nil => cases hf
  | cons e es ih =>
    have he := hes e List.mem_cons_self
    rw [search, List.mem_append, Option.mem_toList] at hf
    rcases hf with hf | hf
    · obtain ⟨rfl, hw⟩ := insert_sound hL he hf
      exact ⟨List.mem_cons_self, hw⟩
    · obtain ⟨hmem, hw⟩ :=
        ih (hL.after_insert hcap he) (fun e' he' => hes e' (List.mem_cons_of_mem _ he')) hf
      exact ⟨List.mem_cons_of_mem _ hmem, hw⟩

end MoMiner.CycleSearch
