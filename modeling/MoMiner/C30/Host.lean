import MoMiner.C29.Dense

/-!
# The map-based cycle finder

The C30 host keeps the parents of the two sides in two maps, follows them in turn, and looks for the
first match of opposite parity. It returns the first cycle of 42 edges.

Both finders run the same search, so it returns what the dense finder returns first
(`findCycleGraph_eq`).
-/

namespace MoMiner.C30

open C29 SimpleGraph CycleSearch Links

/-! ## The parent maps -/

/-- The parents of the endpoints of both sides. -/
structure Graphs where
  u : UInt32 → Option UInt32
  v : UInt32 → Option UInt32

def Graphs.on (g : Graphs) (inU : Bool) : UInt32 → Option UInt32 := if inU then g.u else g.v

/-- Set or erase one parent on a side. -/
def Graphs.set (g : Graphs) (inU : Bool) (x : UInt32) (link : Option UInt32) : Graphs :=
  if inU then { g with u := Function.update g.u x link }
  else { g with v := Function.update g.v x link }

/-- The rest of a path after `back`, at most `room` more. -/
def extendPath (g : Graphs) : Bool → ℕ → UInt32 → List UInt32
  | _, 0, _ => []
  | inU, room + 1, back => match g.on inU back with
    | none => []
    | some next => next :: extendPath g (!inU) room next

def createPath (g : Graphs) (startsInU : Bool) (start : UInt32) : List UInt32 :=
  start :: extendPath g startsInU (maxPathLength - 1) start

def reversePath (g : Graphs) : List UInt32 → Bool → Graphs
  | a :: b :: rest, startsInU =>
    ((reversePath g (b :: rest) (!startsInU)).set startsInU a none).set (!startsInU) b (some a)
  | _, _ => g

/-! ## The finder -/

def kProofSize : ℕ := 42

/-- The first match among the places of opposite parity. -/
def joinPaths (pathU pathV : List UInt32) : Option (ℕ × ℕ) :=
  (List.range pathU.length).findSome? fun i =>
    ((List.range' (1 - i % 2) ((pathV.length + i % 2) / 2) 2).find? fun j =>
      pathV[j]? = pathU[i]?).map fun j => (i, j)

/-- The first `count` edges of a path that starts on the `u` side. -/
def edgesFromU (path : List UInt32) (count : ℕ) : List Edge :=
  (List.range count).map fun i =>
    if i % 2 = 1 then ⟨path.getD (i + 1) 0, path.getD i 0⟩
    else ⟨path.getD i 0, path.getD (i + 1) 0⟩

/-- The first `count` edges of a path that starts on the `v` side. -/
def edgesFromV (path : List UInt32) (count : ℕ) : List Edge :=
  (List.range count).map fun i =>
    if i % 2 = 1 then ⟨path.getD i 0, path.getD (i + 1) 0⟩
    else ⟨path.getD (i + 1) 0, path.getD i 0⟩

/-- The loop body: the maps after an edge, and the cycle if it is returned. -/
def processEdge (g : Graphs) (e : Edge) : Graphs × Option (List Edge) :=
  if g.u e.x = some e.y ∨ g.v e.y = some e.x then (g, none)
  else
    let pathU := createPath g true e.x
    let pathV := createPath g false e.y
    match joinPaths pathU pathV with
    | some (i, j) =>
      if 1 + i + j ≠ kProofSize then (g, none)
      else (g, some (e :: (edgesFromU pathU i ++ edgesFromV pathV j)))
    | none =>
      if pathU.length > pathV.length then
        ((reversePath g pathV false).set false e.y (some e.x), none)
      else ((reversePath g pathU true).set true e.x (some e.y), none)

def findCycleFrom (g : Graphs) : List Edge → Option (List Edge)
  | [] => none
  | e :: es => (processEdge g e).2.or (findCycleFrom (processEdge g e).1 es)

def findCycleGraph (edges : List Edge) : Option (List Edge) :=
  if edges.length > 2 ^ 22 then none else findCycleFrom ⟨fun _ => none, fun _ => none⟩ edges

/-! ## The maps hold the links -/

/-- The endpoint of a number on a side. -/
def vertex (inU : Bool) (x : UInt32) : Vertex := if inU then .inl x else .inr x

/-- The maps are the links, by sides. -/
def Holds (g : Graphs) (L : Vertex → Option Vertex) : Prop :=
  ∀ inU x, L (vertex inU x) = (g.on inU x).map (vertex (!inU))

variable {g : Graphs} {L : Vertex → Option Vertex} {inU : Bool} {x : UInt32}

@[simp] theorem number_vertex : number (vertex inU x) = x := by cases inU <;> rfl

@[simp] theorem isLeft_vertex : (vertex inU x).isLeft = inU := by cases inU <;> rfl

theorem vertex_isLeft_number (v : Vertex) : vertex v.isLeft (number v) = v := by
  rcases v with x | y <;> rfl

theorem vertex_inj {inU' : Bool} {x' : UInt32} :
    vertex inU x = vertex inU' x' ↔ inU = inU' ∧ x = x' := by
  constructor
  · intro h
    exact ⟨by simpa using congrArg Sum.isLeft h, by simpa using congrArg number h⟩
  · rintro ⟨rfl, rfl⟩
    rfl

theorem Holds.extendPath (hg : Holds g L) (k : ℕ) :
    x :: extendPath g inU k x = (chain L (k + 1) (vertex inU x)).map number := by
  induction k generalizing inU x with
  | zero =>
    rw [C30.extendPath, chain]
    cases L (vertex inU x) <;> simp [chain]
  | succ k ih =>
    rw [C30.extendPath, chain, hg inU x]
    cases g.on inU x with
    | none => simp
    | some y =>
      simp only [Option.map_some, List.map_cons, number_vertex]
      rw [ih]

theorem Holds.createPath (hg : Holds g L) :
    createPath g inU x = (chain L maxPathLength (vertex inU x)).map number :=
  hg.extendPath (maxPathLength - 1)

theorem on_set {inU' : Bool} {x' : UInt32} {link : Option UInt32} :
    (g.set inU x link).on inU' x' = if inU' = inU ∧ x' = x then link else g.on inU' x' := by
  cases inU <;> cases inU' <;> by_cases h : x' = x <;> simp [Graphs.set, Graphs.on, h]

theorem Holds.set (hg : Holds g L) (inU : Bool) (x : UInt32) (link : Option UInt32) :
    Holds (g.set inU x link)
      (Function.update L (vertex inU x) (link.map (vertex (!inU)))) := by
  intro inU' x'
  rw [on_set]
  by_cases h : inU' = inU ∧ x' = x
  · rw [if_pos h, h.1, h.2, Function.update_self]
  · rw [if_neg h, Function.update_of_ne fun heq => h (vertex_inj.mp heq), hg]

theorem Holds.reversePath (hg : Holds g L) (inU : Bool) {path : List Vertex}
    (halt : path.IsChain fun a b => b.isLeft = !a.isLeft)
    (hstart : ∀ v ∈ path.head?, v.isLeft = inU) :
    Holds (reversePath g (path.map number) inU) (reroot L path) := by
  induction halt generalizing inU with
  | nil => exact hg
  | singleton a => exact hg
  | @cons_cons a b rest hab _ ih =>
    have ha : a.isLeft = inU := hstart a rfl
    have hb : b.isLeft = !inU := by rw [hab, ha]
    have hrest := ih (!inU) fun v hv => Option.some.inj hv ▸ hb
    have hset := (hrest.set inU (number a) none).set (!inU) (number b) (some (number a))
    rw [Option.map_none, Option.map_some, Bool.not_not, ← hb, vertex_isLeft_number, ← ha,
      vertex_isLeft_number] at hset
    rw [← ha, List.map_cons, List.map_cons, C30.reversePath, ← hab, ← List.map_cons]
    exact hset

/-! ## The join and the edges -/

section Forest

variable {edges : List Edge} {cap : ℕ} {a b w : Vertex}

theorem isLeft_chain (hL : Forest (graph edges) cap L) {k i : ℕ}
    (h : (chain L k a)[i]? = some w) : w.isLeft = if i % 2 = 0 then a.isLeft else !a.isLeft := by
  have hi := (List.getElem?_eq_some_iff.mp h).1
  rw [getElem?_chain (hi.trans_le length_chain_le)] at h
  exact isLeft_iter hL h

/-- The first match of opposite parity meets. -/
theorem joinPaths_eq_meet (hL : Forest (graph edges) cap L) (hab : b.isLeft = !a.isLeft) :
    joinPaths ((chain L cap a).map number) ((chain L cap b).map number) =
      meet (chain L cap a) (chain L cap b) := by
  rw [joinPaths, List.length_map, List.length_map]
  refine findSome?_eq_meet (chain_nodup hL.girth) (fun i j hi hplace => ?_)
    (fun i x hx hmem => ?_)
  · have hfound := List.find?_some hplace
    have hrange := List.mem_of_find?_eq_some hplace
    rw [List.mem_range'] at hrange
    obtain ⟨m, -, hj⟩ := hrange
    obtain ⟨z, hz⟩ : ∃ z, (chain L cap a)[i]? = some z := ⟨_, List.getElem?_eq_getElem hi⟩
    rw [decide_eq_true_eq, List.getElem?_map, List.getElem?_map, hz, Option.map_some,
      Option.map_eq_some_iff] at hfound
    obtain ⟨y, hy, hnumber⟩ := hfound
    have hside : y.isLeft = z.isLeft := by
      rw [isLeft_chain hL hy, isLeft_chain hL hz, hab]
      rcases Nat.mod_two_eq_zero_or_one i with h | h
      · rw [if_neg (by omega), if_pos h, Bool.not_not]
      · rw [if_pos (by omega), if_neg (by omega)]
    have heq : y = z := by
      rw [← vertex_isLeft_number y, hside, hnumber, vertex_isLeft_number]
    exact ⟨z, hz, heq ▸ hy⟩
  · obtain ⟨j, hj⟩ := List.mem_iff_getElem?.mp hmem
    have hparity := parity_of_common hL hab hx hj
    have hlt := (List.getElem?_eq_some_iff.mp hj).1
    rw [List.find?_isSome]
    refine ⟨j, List.mem_range'.mpr ⟨j / 2, by omega, by omega⟩, ?_⟩
    simp [hx, hj]

theorem getElem?_legs {path : List Vertex} {k : ℕ} (ha : path[k]? = some a)
    (hb : path[k + 1]? = some b) : (legs path)[k]? = some (orient a b) := by
  rw [legs, List.getElem?_zipWith, ha, List.getElem?_tail, hb]

theorem length_legs (path : List Vertex) : (legs path).length = path.length - 1 := by
  rw [legs, List.length_zipWith, List.length_tail]
  omega

/-- The edges along the first part of a path, place by place. -/
theorem legs_take {path : List Vertex} {i : ℕ} {leg : ℕ → Edge} (hi : i < path.length)
    (hleg : ∀ k a b, path[k]? = some a → path[k + 1]? = some b → leg k = orient a b) :
    legs (path.take (i + 1)) = (List.range i).map leg := by
  refine List.ext_getElem? fun k => ?_
  by_cases hk : k < i
  · have hka := List.getElem?_eq_getElem (show k < path.length by omega)
    have hkb := List.getElem?_eq_getElem (show k + 1 < path.length by omega)
    rw [getElem?_legs (by rw [List.getElem?_take_of_lt (by omega), hka])
      (by rw [List.getElem?_take_of_lt (by omega), hkb]), List.getElem?_map,
      List.getElem?_range hk, Option.map_some, hleg k _ _ hka hkb]
  · rw [List.getElem?_eq_none_iff.mpr, List.getElem?_eq_none_iff.mpr]
    · simpa using hk
    · rw [length_legs, List.length_take]
      omega

theorem edgesFromU_eq_legs (hL : Forest (graph edges) cap L) {i : ℕ}
    (hi : i < (chain L cap (.inl x)).length) :
    edgesFromU ((chain L cap (.inl x)).map number) i =
      legs ((chain L cap (.inl x)).take (i + 1)) := by
  refine (legs_take hi fun k a b ha hb => ?_).symm
  have hside := isLeft_chain hL ha
  simp only [List.getD_eq_getElem?_getD, List.getElem?_map, ha, hb, Option.map_some,
    Option.getD_some, orient, hside]
  rcases Nat.mod_two_eq_zero_or_one k with hk | hk <;> simp [hk]

theorem edgesFromV_eq_legs (hL : Forest (graph edges) cap L) {i : ℕ}
    (hi : i < (chain L cap (.inr x)).length) :
    edgesFromV ((chain L cap (.inr x)).map number) i =
      legs ((chain L cap (.inr x)).take (i + 1)) := by
  refine (legs_take hi fun k a b ha hb => ?_).symm
  have hside := isLeft_chain hL ha
  simp only [List.getD_eq_getElem?_getD, List.getElem?_map, ha, hb, Option.map_some,
    Option.getD_some, orient, hside]
  rcases Nat.mod_two_eq_zero_or_one k with hk | hk <;> simp [hk]

/-! ## The finder -/

/-- **One step of the finder is one insertion.** -/
theorem processEdge_sim (hL : Forest (graph edges) maxPathLength L) (hg : Holds g L) (e : Edge) :
    Holds (processEdge g e).1 (insert maxPathLength L e.ends).1 ∧
      (processEdge g e).2 = (((insert maxPathLength L e.ends).2.toList.filter
        (fun f => f.edges.length = kProofSize)).map solution).head? := by
  have hu : g.u e.x = some e.y ↔ L (.inl e.x) = some (.inr e.y) := by
    rw [show L (.inl e.x) = (g.u e.x).map Sum.inr from hg true e.x]
    exact (Option.map_injective Sum.inr_injective).eq_iff.symm
  have hv : g.v e.y = some e.x ↔ L (.inr e.y) = some (.inl e.x) := by
    rw [show L (.inr e.y) = (g.v e.y).map Sum.inl from hg false e.y]
    exact (Option.map_injective Sum.inl_injective).eq_iff.symm
  have hpu : createPath g true e.x = (chain L maxPathLength (.inl e.x)).map number :=
    hg.createPath
  have hpv : createPath g false e.y = (chain L maxPathLength (.inr e.y)).map number :=
    hg.createPath
  have halt : ∀ v, (chain L maxPathLength v).IsChain fun a b => b.isLeft = !a.isLeft := fun v =>
    isChain_chain.imp fun _ _ h => isLeft_ne_of_adj (hL.adj h)
  rw [processEdge, CycleSearch.insert, Edge.ends]
  simp only [hu, hv, hpu, hpv, joinPaths_eq_meet hL (a := .inl e.x) (b := .inr e.y) rfl,
    List.length_map]
  split
  · exact ⟨hg, rfl⟩
  cases hmeet : meet (chain L maxPathLength (.inl e.x)) (chain L maxPathLength (.inr e.y)) with
  | some ij =>
    obtain ⟨i, j⟩ := ij
    obtain ⟨x, hpx, hqx, -⟩ := meet_eq_some.mp hmeet
    have hi := (List.getElem?_eq_some_iff.mp hpx).1
    have hj := (List.getElem?_eq_some_iff.mp hqx).1
    have hlen := length_edges (e := (Sum.inl e.x, Sum.inr e.y)) hmeet
    dsimp only
    rw [edgesFromU_eq_legs hL hi, edgesFromV_eq_legs hL hj]
    by_cases hsize : 1 + i + j = kProofSize
    · simp [hsize, hlen, hg, solution, number]
    · simp [hsize, hlen, hg]
  | none =>
    by_cases hshort : (chain L maxPathLength (.inr e.y)).length <
        (chain L maxPathLength (.inl e.x)).length
    · simp only [gt_iff_lt, hshort, if_true]
      exact ⟨(hg.reversePath false (halt (.inr e.y))
        fun v hv => Option.some.inj hv ▸ rfl).set false e.y (some e.x), rfl⟩
    · simp only [gt_iff_lt, hshort, if_false]
      exact ⟨(hg.reversePath true (halt (.inl e.x))
        fun v hv => Option.some.inj hv ▸ rfl).set true e.x (some e.y), rfl⟩

/-- A run of the finder returns the first report of the search that has 42 edges. -/
theorem findCycleFrom_eq {es : List Edge} (hL : Forest (graph edges) maxPathLength L)
    (hg : Holds g L) (hes : es ⊆ edges) :
    findCycleFrom g es = (((search maxPathLength L (es.map Edge.ends)).filter
      (fun f => f.edges.length = kProofSize)).map solution).head? := by
  induction es generalizing g L with
  | nil => rfl
  | cons e es ih =>
    obtain ⟨he, hes⟩ := List.cons_subset.mp hes
    obtain ⟨hg', hreturn⟩ := processEdge_sim hL hg e
    have hL' := hL.after_insert (e := e.ends) (by decide) (graph_adj_ends he)
    rw [findCycleFrom, hreturn, ih hL' hg' hes, List.map_cons, search, List.filter_append,
      List.map_append, List.head?_append]

end Forest

/-- **The map-based finder returns the first of the cycles.** -/
theorem findCycleGraph_eq {edges : List Edge} (hlen : edges.length ≤ 2 ^ 22) :
    findCycleGraph edges = (cycles edges kProofSize).head? := by
  rw [findCycleGraph, if_neg (by omega)]
  exact findCycleFrom_eq .empty (fun inU x => by cases inU <;> rfl) (List.Subset.refl edges)

/-- At any time of the dense finder's run, all ways to join the paths of an edge agree. -/
theorem join_run {edges : List Edge} (hfits : (endpoints edges).card < 2 ^ 32) {target count : ℕ}
    {d : DenseEdge} (hd : (denseEdges edges)[count]? = some d) {p q : List ℕ}
    (hp : p = C29.createPath (run edges target count).parent d.first)
    (hq : q = C29.createPath (run edges target count).parent d.second) :
    join p q = firstMatch p q ∧
      join p q = joinPaths (p.map (rawIdByDense edges)) (q.map (rawIdByDense edges)) := by
  have hc := coded_numbering hfits
  have hL := forest_links edges count
  obtain ⟨hcodes, -⟩ := run_sim hfits target count
  rw [(numbers_numbering hfits).2, List.getElem?_map, Option.map_eq_some_iff] at hd
  obtain ⟨e, he, rfl⟩ := hd
  have hmem := List.mem_of_getElem? he
  have hx : Sum.inl e.x ∈ endpoints edges := mem_endpoints.mpr ⟨e, hmem, .inl rfl⟩
  have hy : Sum.inr e.y ∈ endpoints edges := mem_endpoints.mpr ⟨e, hmem, .inr rfl⟩
  have hraw : ∀ {v : Vertex}, v ∈ endpoints edges → ∀ {path : List Vertex},
      path = chain (links maxPathLength (fun _ => none) ((edges.take count).map Edge.ends))
        maxPathLength v →
      (path.map (numbering edges).num).map (rawIdByDense edges) = path.map number := by
    intro v hv path hpath
    rw [List.map_map]
    refine List.map_congr_left fun w hw => hc.raw w ?_
    exact mem_endpoints_of_chain hL hv (hpath ▸ hw)
  rw [denseEdge, hcodes.createPath hc hL hx] at hp
  rw [denseEdge, hcodes.createPath hc hL hy] at hq
  rw [hp, hq, join_eq_meet hc hL rfl hx hy, firstMatch_eq_meet hc hL rfl hx hy, hraw hx rfl,
    hraw hy rfl, joinPaths_eq_meet hL rfl]
  exact ⟨rfl, rfl⟩

/-- **The two finders agree.** The map-based finder returns the first solution of the dense one, and
at every edge the dense finder's join is the first match of its paths and of the host's. -/
theorem finders_agree (edges : List Edge) (hlen : edges.length ≤ 2 ^ 22) :
    findCycleGraph edges = (findCycles edges kProofSize).head? ∧
      ∀ count d, (denseEdges edges)[count]? = some d →
        ∀ p q, p = C29.createPath (run edges kProofSize count).parent d.first →
          q = C29.createPath (run edges kProofSize count).parent d.second →
          join p q = firstMatch p q ∧
            join p q = joinPaths (p.map (rawIdByDense edges)) (q.map (rawIdByDense edges)) := by
  have hfits : (endpoints edges).card < 2 ^ 32 := by
    have : (endpoints edges).card ≤ 2 * edges.length := card_endpoints_le
    omega
  refine ⟨?_, fun count d hd p q hp hq => join_run hfits hd hp hq⟩
  rw [findCycles_eq hfits, Nat.mod_eq_of_lt (by omega), List.take_length, findCycleGraph_eq hlen]

/-- A ring of 42 edges. -/
def ring : List Edge := (List.range 21).flatMap fun i =>
  [⟨UInt32.ofNat i, UInt32.ofNat i⟩, ⟨UInt32.ofNat ((i + 1) % 21), UInt32.ofNat i⟩]

theorem finders_agree_ring : ring.length ≤ 2 ^ 22 ∧ (findCycleGraph ring).isSome ∧
    findCycleGraph ring = (findCycles ring kProofSize).head? :=
  ⟨by decide, by decide +kernel, (finders_agree ring (by decide)).1⟩

end MoMiner.C30
