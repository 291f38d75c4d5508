import MoMiner.C29.Cycle

/-!
# The dense finder computes the search

The dense numbers of the endpoints are different, and below `kNoParent`, as long as there are fewer
than `2 ^ 32` endpoints (`numbers_internEdges`). The parents are then the links of the search under
another name (`Sim`), and one step of the finder is one insertion (`processEdge_sim`).

`findCycles_eq`: the finder returns the cycles of the edges that it counts.
-/

namespace MoMiner.C29

open SimpleGraph CycleSearch Links

/-! ## Numbering -/

def side : Vertex → UInt32 := Sum.elim (fun _ => 0) (fun _ => 1)

theorem key_toNat (v : Vertex) :
    (key (side v) (number v)).toNat = (side v).toNat * 2 ^ 32 + (number v).toNat := by
  have hlt : (number v).toNat < 2 ^ 32 := (number v).toNat_lt
  have hsides : ∀ s : UInt32, s = 0 ∨ s = 1 → (s.toUInt64 <<< 32).toNat = s.toNat <<< 32 := by
    rintro s (rfl | rfl) <;> decide
  have hshift := hsides (side v) (by rcases v with x | y <;> simp [side])
  rw [key, UInt64.toNat_or, hshift, UInt32.toNat_toUInt64, ← Nat.shiftLeft_add_eq_or_of_lt hlt,
    Nat.shiftLeft_eq]

theorem key_injective : Function.Injective fun v => key (side v) (number v) := by
  intro v w h
  have heq := congrArg UInt64.toNat h
  simp only [key_toNat] at heq
  have hv : (number v).toNat < 2 ^ 32 := (number v).toNat_lt
  have hw : (number w).toNat < 2 ^ 32 := (number w).toNat_lt
  have hside : (side v).toNat = (side w).toNat := by omega
  have hnumber : number v = number w := UInt32.toNat_inj.mp (by omega)
  rcases v with x | x <;> rcases w with y | y
  · exact congrArg Sum.inl hnumber
  · cases hside
  · cases hside
  · exact congrArg Sum.inr hnumber

/-- The dense number of an endpoint, if it has one. -/
def Numbering.get (n : Numbering) (v : Vertex) : Option ℕ :=
  n.vertexDictionary (key (side v) (number v))

/-- The numbering of a set of endpoints. -/
structure Numbers (n : Numbering) (S : Finset Vertex) : Prop where
  domain : ∀ v, (n.get v).isSome ↔ v ∈ S
  size : n.rawIdByDense.length = S.card
  raw : ∀ {v d}, n.get v = some d → n.rawIdByDense[d]? = some (number v)
  inj : ∀ {v w d}, n.get v = some d → n.get w = some d → v = w

variable {n : Numbering} {S : Finset Vertex} {v : Vertex}

theorem intern_of_some {d : ℕ} (h : n.get v = some d) : intern n (side v) (number v) = (n, d) := by
  have hget : n.vertexDictionary (key (side v) (number v)) = some d := h
  rw [intern, hget]

/-- A new endpoint gets the next dense number, as far as it fits 32 bits. -/
theorem intern_of_none (h : n.get v = none) :
    (intern n (side v) (number v)).2 = n.rawIdByDense.length % 2 ^ 32 ∧
      (intern n (side v) (number v)).1.rawIdByDense = n.rawIdByDense ++ [number v] ∧
      ∀ w, (intern n (side v) (number v)).1.get w =
        if w = v then some (n.rawIdByDense.length % 2 ^ 32) else n.get w := by
  have hget : n.vertexDictionary (key (side v) (number v)) = none := h
  rw [intern, hget]
  refine ⟨rfl, rfl, fun w => ?_⟩
  by_cases hw : w = v
  · subst hw
    simp [Numbering.get]
  · have hne : key (side w) (number w) ≠ key (side v) (number v) := fun h => hw (key_injective h)
    simp [Numbering.get, hw, hne]

/-- Interning numbers the endpoint and keeps the numbers there are. -/
theorem numbers_intern (hn : Numbers n S) (hfits : (insert v S).card < 2 ^ 32) :
    Numbers (intern n (side v) (number v)).1 (insert v S) ∧
      (intern n (side v) (number v)).1.get v = some (intern n (side v) (number v)).2 ∧
      ∀ {w d}, n.get w = some d → (intern n (side v) (number v)).1.get w = some d := by
  cases hv : n.get v with
  | some d =>
    have hmem : v ∈ S := (hn.domain v).mp (by rw [hv]; rfl)
    rw [intern_of_some hv, Finset.insert_eq_of_mem hmem]
    exact ⟨hn, hv, id⟩
  | none =>
    have hmem : v ∉ S := fun h => by simpa [hv] using (hn.domain v).mpr h
    have hdense : n.rawIdByDense.length % 2 ^ 32 = n.rawIdByDense.length := by
      rw [Finset.card_insert_of_notMem hmem] at hfits
      exact Nat.mod_eq_of_lt (by have := hn.size; omega)
    obtain ⟨hsnd, hraw, hget⟩ := intern_of_none hv
    rw [hdense] at hsnd hget
    have hlt : ∀ {w d}, n.get w = some d → d < n.rawIdByDense.length := fun h =>
      (List.getElem?_eq_some_iff.mp (hn.raw h)).1
    refine ⟨⟨?_, ?_, ?_, ?_⟩, ?_, ?_⟩
    · intro w
      rw [hget, Finset.mem_insert, ← hn.domain w]
      by_cases hw : w = v <;> simp [hw]
    · rw [hraw, List.length_append, List.length_singleton, hn.size,
        Finset.card_insert_of_notMem hmem]
    · intro w d h
      rw [hraw]
      rw [hget] at h
      split at h
      · next hw =>
        obtain rfl := Option.some.inj h
        rw [hw, List.getElem?_concat_length]
      · rw [List.getElem?_append_left (hlt h), hn.raw h]
    · intro w u d hw hu
      rw [hget] at hw hu
      split at hw <;> split at hu
      · next h h' => exact h.trans h'.symm
      · exact absurd (hlt hu) (by obtain rfl := Option.some.inj hw; exact lt_irrefl _)
      · exact absurd (hlt hw) (by obtain rfl := Option.some.inj hu; exact lt_irrefl _)
      · exact hn.inj hw hu
    · rw [hget, if_pos rfl, hsnd]
    · intro w d h
      have hw : w ≠ v := fun hw => by
        rw [hw, hv] at h
        cases h
      rw [hget, if_neg hw, h]

theorem endpoints_cons {e : Edge} {edges : List Edge} :
    endpoints (e :: edges) = insert (.inl e.x) (insert (.inr e.y) (endpoints edges)) := by
  simp [endpoints]

/-- The dense number of an endpoint. -/
def Numbering.num (n : Numbering) (v : Vertex) : ℕ := (n.get v).getD 0

def denseEdge (n : Numbering) (e : Edge) : DenseEdge := ⟨n.num (.inl e.x), n.num (.inr e.y)⟩

theorem numbers_internEdge {e : Edge} (hn : Numbers n S)
    (hfits : (insert (.inr e.y) (insert (.inl e.x) S)).card < 2 ^ 32) :
    Numbers (internEdge n e).1 (insert (.inr e.y) (insert (.inl e.x) S)) ∧
      (∀ {w d}, n.get w = some d → (internEdge n e).1.get w = some d) ∧
      (internEdge n e).1.get (.inl e.x) = some (internEdge n e).2.first ∧
      (internEdge n e).1.get (.inr e.y) = some (internEdge n e).2.second := by
  have hfits₁ := lt_of_le_of_lt (Finset.card_le_card (Finset.subset_insert _ _)) hfits
  obtain ⟨hn₁, hget₁, hkeep₁⟩ := numbers_intern hn hfits₁
  obtain ⟨hn₂, hget₂, hkeep₂⟩ := numbers_intern hn₁ hfits
  exact ⟨hn₂, fun h => hkeep₂ (hkeep₁ h), hkeep₂ hget₁, hget₂⟩

/-- All endpoints are numbered, and the dense edges are those of the final numbering. -/
theorem numbers_internEdges (edges : List Edge) (hn : Numbers n S)
    (hfits : (S ∪ endpoints edges).card < 2 ^ 32) :
    Numbers (internEdges n edges).1 (S ∪ endpoints edges) ∧
      (∀ {w d}, n.get w = some d → (internEdges n edges).1.get w = some d) ∧
      (internEdges n edges).2 = edges.map (denseEdge (internEdges n edges).1) := by
  induction edges generalizing n S with
  | nil => exact ⟨by simpa [internEdges, endpoints] using hn, id, rfl⟩
  | cons e edges ih =>
    have hset : S ∪ endpoints (e :: edges) =
        insert (.inr e.y) (insert (.inl e.x) S) ∪ endpoints edges := by
      rw [endpoints_cons]
      ext w
      simp only [Finset.mem_union, Finset.mem_insert]
      tauto
    rw [hset] at hfits ⊢
    obtain ⟨hn₁, hkeep₁, hx, hy⟩ := numbers_internEdge (e := e) hn
      (lt_of_le_of_lt (Finset.card_le_card Finset.subset_union_left) hfits)
    obtain ⟨hn₂, hkeep₂, hrest⟩ := ih hn₁ hfits
    refine ⟨hn₂, fun h => hkeep₂ (hkeep₁ h), ?_⟩
    have hdense : (internEdge n e).2 = denseEdge (internEdges n (e :: edges)).1 e := by
      have hx₂ : (internEdges n (e :: edges)).1.get (.inl e.x) = _ := hkeep₂ hx
      have hy₂ : (internEdges n (e :: edges)).1.get (.inr e.y) = _ := hkeep₂ hy
      rw [denseEdge, Numbering.num, Numbering.num, hx₂, hy₂]
      rfl
    rw [List.map_cons, ← hdense]
    exact congrArg _ hrest

theorem numbers_empty : Numbers ⟨fun _ => none, []⟩ ∅ where
  domain := by simp [Numbering.get]
  size := rfl
  raw h := by cases h
  inj h := by cases h

/-! ## Joins -/

section Joins

variable {p q : List ℕ} {i j : ℕ}

/-- The walk back stops where the paths differ or one of them begins. -/
theorem suffixJoin_stop (h : ∀ m k, i = m + 1 → j = k + 1 → p[m]? ≠ q[k]?)
    (acc : Option (ℕ × ℕ)) : suffixJoin p q i j acc = acc := by
  cases i with
  | zero => rfl
  | succ m =>
    cases j with
    | zero => rfl
    | succ k => rw [suffixJoin, if_neg (h m k rfl rfl)]

/-- The walk back passes a common part. -/
theorem suffixJoin_common {t : ℕ} (h : ∀ m ≤ t, p[i + m]? = q[j + m]?) (acc : Option (ℕ × ℕ)) :
    suffixJoin p q (i + t + 1) (j + t + 1) acc = suffixJoin p q i j (some (i, j)) := by
  induction t generalizing acc with
  | zero => rw [Nat.add_zero, Nat.add_zero, suffixJoin, if_pos (by simpa using h 0 le_rfl)]
  | succ t ih =>
    rw [suffixJoin, if_pos (h (t + 1) le_rfl)]
    exact ih (fun m hm => h m (by omega)) _

end Joins

/-! ## The links under dense numbers -/

/-- The dense numbers are different, are no sentinel, and remember the endpoint numbers. -/
structure Coded (edges : List Edge) (num : Vertex → ℕ) (raw : ℕ → UInt32) : Prop where
  inj : Set.InjOn num (endpoints edges)
  lt : ∀ v ∈ endpoints edges, num v < kNoParent
  raw : ∀ v ∈ endpoints edges, raw (num v) = number v

/-- The parents are the links under dense numbers. -/
def Codes (edges : List Edge) (num : Vertex → ℕ) (parent : ℕ → ℕ)
    (L : Vertex → Option Vertex) : Prop :=
  ∀ v ∈ endpoints edges, parent (num v) = (L v).elim kNoParent num

section Links

variable {edges : List Edge} {num : Vertex → ℕ} {raw : ℕ → UInt32} {parent : ℕ → ℕ}
  {L : Vertex → Option Vertex} {cap : ℕ} {a b w : Vertex}

theorem mem_endpoints : v ∈ endpoints edges ↔ ∃ e ∈ edges, v = .inl e.x ∨ v = .inr e.y := by
  simp [endpoints]

theorem mem_endpoints_of_adj (h : (graph edges).Adj a b) : a ∈ endpoints edges := by
  obtain ⟨e, he, heq⟩ := graph_adj.mp h
  rcases Sym2.eq_iff.mp heq with ⟨rfl, rfl⟩ | ⟨rfl, rfl⟩
  · exact mem_endpoints.mpr ⟨e, he, .inl rfl⟩
  · exact mem_endpoints.mpr ⟨e, he, .inr rfl⟩

theorem mem_endpoints_of_link (hL : Forest (graph edges) cap L) (h : L a = some b) :
    b ∈ endpoints edges := mem_endpoints_of_adj (hL.adj h).symm

theorem mem_endpoints_of_chain (hL : Forest (graph edges) cap L) {k : ℕ} (ha : a ∈ endpoints edges)
    (h : w ∈ chain L k a) : w ∈ endpoints edges := by
  obtain ⟨i, -, hi⟩ := mem_chain.mp h
  cases i with
  | zero => exact Option.some.inj hi ▸ ha
  | succ i =>
    rw [iter_succ', Option.bind_eq_some_iff] at hi
    obtain ⟨z, -, hz⟩ := hi
    exact mem_endpoints_of_link hL hz

theorem Codes.link (hp : Codes edges num parent L) (hc : Coded edges num raw)
    (hL : Forest (graph edges) cap L) (ha : a ∈ endpoints edges) (hb : b ∈ endpoints edges) :
    parent (num a) = num b ↔ L a = some b := by
  rw [hp a ha]
  cases h : L a with
  | none =>
    have := hc.lt b hb
    simp only [Option.elim_none, reduceCtorEq, iff_false]
    omega
  | some w =>
    rw [Option.elim_some, Option.some.injEq]
    exact hc.inj.eq_iff (mem_endpoints_of_link hL h) hb

theorem Codes.extendPath (hp : Codes edges num parent L) (hc : Coded edges num raw)
    (hL : Forest (graph edges) cap L) (ha : a ∈ endpoints edges) (k : ℕ) :
    num a :: extendPath parent k (num a) = (chain L (k + 1) a).map num := by
  induction k generalizing a with
  | zero =>
    rw [C29.extendPath, chain]
    cases L a <;> rfl
  | succ k ih =>
    rw [C29.extendPath, hp a ha, chain]
    cases h : L a with
    | none => rfl
    | some w =>
      have hw := mem_endpoints_of_link hL h
      have hne : num w ≠ kNoParent := (hc.lt w hw).ne
      rw [Option.elim_some, if_neg hne, ih hw]
      rfl

theorem Codes.createPath (hp : Codes edges num parent L) (hc : Coded edges num raw)
    (hL : Forest (graph edges) maxPathLength L) (ha : a ∈ endpoints edges) :
    createPath parent (num a) = (chain L maxPathLength a).map num :=
  hp.extendPath hc hL ha (maxPathLength - 1)

theorem Codes.update (hp : Codes edges num parent L) (hc : Coded edges num raw)
    (ha : a ∈ endpoints edges) (link : Option Vertex) :
    Codes edges num (Function.update parent (num a) (link.elim kNoParent num))
      (Function.update L a link) := by
  intro v hv
  by_cases h : v = a
  · rw [h, Function.update_self, Function.update_self]
  · have hne : num v ≠ num a := fun heq => h (hc.inj hv ha heq)
    rw [Function.update_of_ne hne, Function.update_of_ne h, hp v hv]

theorem Codes.reversePath (hp : Codes edges num parent L) (hc : Coded edges num raw)
    {path : List Vertex} (hpath : ∀ v ∈ path, v ∈ endpoints edges) :
    Codes edges num (reversePath parent (path.map num)) (reroot L path) := by
  induction path with
  | nil => exact hp
  | cons a path ih =>
    cases path with
    | nil => exact hp
    | cons b rest =>
      have hrest := ih fun v hv => hpath v (List.mem_cons_of_mem _ hv)
      have ha := hpath a List.mem_cons_self
      have hb := hpath b (List.mem_cons_of_mem _ List.mem_cons_self)
      exact (hrest.update hc ha none).update hc hb (some a)

/-! ## The join of two chains -/

/-- The links change the side. -/
theorem isLeft_iter (hL : Forest (graph edges) cap L) {i : ℕ} (h : iter L i a = some w) :
    w.isLeft = if i % 2 = 0 then a.isLeft else !a.isLeft := by
  induction i generalizing w with
  | zero => rw [← Option.some.inj h]; rfl
  | succ i ih =>
    rw [iter_succ', Option.bind_eq_some_iff] at h
    obtain ⟨z, hz, hzw⟩ := h
    rw [isLeft_ne_of_adj (hL.adj hzw), ih hz]
    rcases Nat.mod_two_eq_zero_or_one i with hi | hi
    · rw [if_pos hi, if_neg (by omega)]
    · rw [if_neg (by omega), if_pos (by omega), Bool.not_not]

/-- A common vertex of chains from different sides has places of different parity. -/
theorem parity_of_common (hL : Forest (graph edges) cap L) (hab : b.isLeft = !a.isLeft) {k i j : ℕ}
    (hi : (chain L k a)[i]? = some w) (hj : (chain L k b)[j]? = some w) : i % 2 ≠ j % 2 := by
  have hplace : ∀ {v m}, (chain L k v)[m]? = some w → iter L m v = some w := by
    intro v m h
    have hm := (List.getElem?_eq_some_iff.mp h).1
    rwa [getElem?_chain (hm.trans_le length_chain_le)] at h
  have hwa := isLeft_iter hL (hplace hi)
  have hwb := isLeft_iter hL (hplace hj)
  rw [hwa, hab] at hwb
  intro heq
  rw [heq] at hwb
  revert hwb
  cases a.isLeft <;> rcases Nat.mod_two_eq_zero_or_one j with hj | hj <;> simp [hj]

theorem getElem?_map_eq_iff (hc : Coded edges num raw) {p q : List Vertex}
    (hp : ∀ v ∈ p, v ∈ endpoints edges) (hq : ∀ v ∈ q, v ∈ endpoints edges) {i j : ℕ} :
    (p.map num)[i]? = (q.map num)[j]? ↔ p[i]? = q[j]? := by
  rw [List.getElem?_map, List.getElem?_map]
  cases hi : p[i]? with
  | none => cases q[j]? <;> simp
  | some v =>
    cases hj : q[j]? with
    | none => simp
    | some w =>
      have hv := hp v (List.mem_of_getElem? hi)
      have hw := hq w (List.mem_of_getElem? hj)
      simpa using hc.inj.eq_iff hv hw

/-- **The suffix walk meets.** Chains that reach their roots run together from the first common
vertex on. -/
theorem suffixJoin_eq_meet (hc : Coded edges num raw) (hL : Forest (graph edges) cap L)
    (ha : a ∈ endpoints edges) (hb : b ∈ endpoints edges)
    (hpa : (chain L cap a).length < cap) (hpb : (chain L cap b).length < cap) :
    suffixJoin ((chain L cap a).map num) ((chain L cap b).map num) (chain L cap a).length
      (chain L cap b).length none = meet (chain L cap a) (chain L cap b) := by
  have hcode := fun i j => getElem?_map_eq_iff hc (i := i) (j := j)
    (fun v => mem_endpoints_of_chain hL (k := cap) ha)
    (fun v => mem_endpoints_of_chain hL (k := cap) hb)
  cases hmeet : meet (chain L cap a) (chain L cap b) with
  | none =>
    -- The last vertices differ.
    refine suffixJoin_stop (fun m k hm hk => ?_) _
    rw [Ne, hcode]
    intro heq
    have hlt : m < (chain L cap a).length := by omega
    have hmem : (chain L cap a).get ⟨m, hlt⟩ ∈ chain L cap b :=
      List.mem_of_getElem? (heq.symm.trans (List.getElem?_eq_getElem hlt))
    exact meet_eq_none.mp hmeet _ (List.get_mem _ _) hmem
  | some ij =>
    obtain ⟨i, j⟩ := ij
    obtain ⟨x, hpx, hqx, hbefore, -⟩ := meet_eq_some.mp hmeet
    have hcommon := getElem?_chain_add hpa hpb hpx hqx
    have hi := (List.getElem?_eq_some_iff.mp hpx).1
    have hj := (List.getElem?_eq_some_iff.mp hqx).1
    obtain ⟨t, ht⟩ : ∃ t, (chain L cap a).length = i + t + 1 :=
      ⟨(chain L cap a).length - i - 1, by omega⟩
    have htb : (chain L cap b).length = j + t + 1 := by
      have hend := hcommon (t + 1)
      rw [List.getElem?_eq_none_iff.mpr (by omega)] at hend
      have hlast := hcommon t
      rw [List.getElem?_eq_getElem (by omega)] at hlast
      have h₁ := List.getElem?_eq_none_iff.mp hend.symm
      have h₂ := (List.getElem?_eq_some_iff.mp hlast.symm).1
      omega
    rw [ht, htb, suffixJoin_common fun m _ => (hcode _ _).mpr (hcommon m)]
    -- The vertex before the first common one is on one chain only.
    refine suffixJoin_stop (fun m k hm hk => ?_) _
    rw [Ne, hcode]
    intro heq
    have hlt : m < (chain L cap a).length := by omega
    refine hbefore ((chain L cap a).get ⟨m, hlt⟩)
      (List.mem_take_iff_getElem.mpr ⟨m, by omega, rfl⟩) ?_
    exact List.mem_of_getElem? (heq.symm.trans (List.getElem?_eq_getElem hlt))

/-- The first match of opposite parity meets. -/
theorem firstMatch_eq_meet (hc : Coded edges num raw) (hL : Forest (graph edges) cap L)
    (hab : b.isLeft = !a.isLeft) (ha : a ∈ endpoints edges) (hb : b ∈ endpoints edges) :
    firstMatch ((chain L cap a).map num) ((chain L cap b).map num) =
      meet (chain L cap a) (chain L cap b) := by
  have hcode := fun i j => getElem?_map_eq_iff hc (i := i) (j := j)
    (fun v => mem_endpoints_of_chain hL (k := cap) ha)
    (fun v => mem_endpoints_of_chain hL (k := cap) hb)
  rw [firstMatch, List.length_map, List.length_map]
  refine findSome?_eq_meet (chain_nodup hL.girth) (fun i j hi hplace => ?_)
    (fun i x hx hmem => ?_)
  · have hfound := List.find?_some hplace
    simp only [hcode, decide_eq_true_eq] at hfound
    exact ⟨_, List.getElem?_eq_getElem hi, hfound.2.symm.trans (List.getElem?_eq_getElem hi)⟩
  · obtain ⟨j, hj⟩ := List.mem_iff_getElem?.mp hmem
    rw [List.find?_isSome]
    refine ⟨j, List.mem_range.mpr (List.getElem?_eq_some_iff.mp hj).1, ?_⟩
    simp only [hcode, decide_eq_true_eq]
    exact ⟨parity_of_common hL hab hx hj, hx.trans hj.symm⟩

/-- **Both ways to join give the first common vertex.** -/
theorem join_eq_meet (hc : Coded edges num raw) (hL : Forest (graph edges) maxPathLength L)
    (hab : b.isLeft = !a.isLeft) (ha : a ∈ endpoints edges) (hb : b ∈ endpoints edges) :
    join ((chain L maxPathLength a).map num) ((chain L maxPathLength b).map num) =
      meet (chain L maxPathLength a) (chain L maxPathLength b) := by
  rw [join, List.length_map, List.length_map]
  split
  · next h => exact suffixJoin_eq_meet hc hL ha hb h.1 h.2
  · exact firstMatch_eq_meet hc hL hab ha hb

/-! ## Emitting -/

theorem appendPath_eq_legs (hc : Coded edges num raw) {path : List Vertex}
    (hpath : path.IsChain (graph edges).Adj) (hmem : ∀ v ∈ path, v ∈ endpoints edges)
    (inFirst : Bool) (hfirst : ∀ v ∈ path.head?, v.isLeft = inFirst) (count : ℕ) :
    appendPath raw inFirst (path.map num) count = legs (path.take (count + 1)) := by
  induction hpath generalizing inFirst count with
  | nil => rfl
  | singleton a => simp [appendPath, legs]
  | @cons_cons a b rest hab _ ih =>
    cases count with
    | zero => rfl
    | succ count =>
      have ha := hc.raw a (hmem a List.mem_cons_self)
      have hb := hc.raw b (hmem b (List.mem_cons_of_mem _ List.mem_cons_self))
      have hside : a.isLeft = inFirst := hfirst a rfl
      have hrest := ih (fun v hv => hmem v (List.mem_cons_of_mem _ hv)) (!inFirst)
        (fun v hv => by rw [← Option.some.inj hv, ← hside, isLeft_ne_of_adj hab]) count
      rw [List.map_cons, List.map_cons, appendPath, ← List.map_cons, hrest, ha, hb, ← hside]
      rfl

/-! ## The finder -/

/-- **One step of the finder is one insertion.** -/
theorem processEdge_sim (hc : Coded edges num raw) {st : State} (target : ℕ)
    (hL : Forest (graph edges) maxPathLength L) (hp : Codes edges num st.parent L) {e : Edge}
    (he : e ∈ edges) :
    Codes edges num (processEdge raw target st ⟨num (.inl e.x), num (.inr e.y)⟩).parent
        (insert maxPathLength L e.ends).1 ∧
      (processEdge raw target st ⟨num (.inl e.x), num (.inr e.y)⟩).solutions = st.solutions ++
        ((insert maxPathLength L e.ends).2.toList.filter
          (fun f => f.edges.length = target)).map solution := by
  have hx : Sum.inl e.x ∈ endpoints edges := mem_endpoints.mpr ⟨e, he, .inl rfl⟩
  have hy : Sum.inr e.y ∈ endpoints edges := mem_endpoints.mpr ⟨e, he, .inr rfl⟩
  have hskip := or_congr (hp.link hc hL hx hy) (hp.link hc hL hy hx)
  have hchain : ∀ {v : Vertex}, v ∈ endpoints edges →
      ∀ w ∈ chain L maxPathLength v, w ∈ endpoints edges :=
    fun hv w hw => mem_endpoints_of_chain hL hv hw
  rw [processEdge, CycleSearch.insert, Edge.ends]
  simp only [hskip, hp.createPath hc hL hx, hp.createPath hc hL hy,
    join_eq_meet hc hL (a := .inl e.x) (b := .inr e.y) rfl hx hy, List.length_map]
  split
  · exact ⟨hp, (List.append_nil _).symm⟩
  cases hmeet : meet (chain L maxPathLength (.inl e.x)) (chain L maxPathLength (.inr e.y)) with
  | some ij =>
    obtain ⟨i, j⟩ := ij
    have hways : ∀ v, (chain L maxPathLength v).IsChain (graph edges).Adj := fun v =>
      isChain_chain.imp fun _ _ => hL.adj
    have hpath := appendPath_eq_legs hc (hways (.inl e.x)) (hchain hx) true
      (fun v hv => by rw [← Option.some.inj hv]; rfl) i
    have hpath' := appendPath_eq_legs hc (hways (.inr e.y)) (hchain hy) false
      (fun v hv => by rw [← Option.some.inj hv]; rfl) j
    have hlen := length_edges (e := (Sum.inl e.x, Sum.inr e.y)) hmeet
    by_cases htarget : 1 + i + j = target
    · refine ⟨by simpa [htarget] using hp, ?_⟩
      simp [htarget, hlen, hpath, hpath', hc.raw _ hx, hc.raw _ hy, solution]
    · refine ⟨by simpa [htarget] using hp, ?_⟩
      simp [htarget, hlen]
  | none =>
    by_cases hlen : (chain L maxPathLength (.inr e.y)).length <
        (chain L maxPathLength (.inl e.x)).length
    · simp only [gt_iff_lt, hlen, if_true]
      exact ⟨(hp.reversePath hc (hchain hy)).update hc hy (some (.inl e.x)),
        (List.append_nil _).symm⟩
    · simp only [gt_iff_lt, hlen, if_false]
      exact ⟨(hp.reversePath hc (hchain hx)).update hc hx (some (.inr e.y)),
        (List.append_nil _).symm⟩

/-- A run of the finder is a run of the search. -/
theorem foldl_processEdge (hc : Coded edges num raw) (st : State) (target : ℕ)
    (hL : Forest (graph edges) maxPathLength L) (hp : Codes edges num st.parent L)
    {es : List Edge} (hes : es ⊆ edges) :
    Codes edges num ((es.map fun e => (⟨num (.inl e.x), num (.inr e.y)⟩ : DenseEdge)).foldl
        (processEdge raw target) st).parent (links maxPathLength L (es.map Edge.ends)) ∧
      ((es.map fun e => (⟨num (.inl e.x), num (.inr e.y)⟩ : DenseEdge)).foldl
        (processEdge raw target) st).solutions =
      st.solutions ++ ((search maxPathLength L (es.map Edge.ends)).filter
        (fun f => f.edges.length = target)).map solution := by
  induction es generalizing st L with
  | nil => exact ⟨hp, (List.append_nil _).symm⟩
  | cons e es ih =>
    obtain ⟨he, hes⟩ := List.cons_subset.mp hes
    obtain ⟨hp', hsol⟩ := processEdge_sim hc target hL hp he
    have hL' := hL.after_insert (e := e.ends) (by decide) (graph_adj_ends he)
    obtain ⟨hcodes, hrest⟩ := ih _ hL' hp' hes
    refine ⟨hcodes, ?_⟩
    rw [List.map_cons, List.foldl_cons, hrest, hsol, List.map_cons, search,
      List.filter_append, List.map_append, List.append_assoc]

end Links

theorem Numbers.coded {edges : List Edge} (hn : Numbers n (endpoints edges))
    (hfits : (endpoints edges).card < 2 ^ 32) :
    Coded edges n.num (fun id => n.rawIdByDense.getD id 0) := by
  have hnum : ∀ v ∈ endpoints edges, n.get v = some (n.num v) := by
    intro v hv
    obtain ⟨d, hd⟩ := Option.isSome_iff_exists.mp ((hn.domain v).mpr hv)
    rw [Numbering.num, hd]
    rfl
  refine ⟨fun v hv w hw h => ?_, fun v hv => ?_, fun v hv => ?_⟩
  · exact hn.inj (hnum v hv) (by rw [hnum w hw, h])
  · have hlt := (List.getElem?_eq_some_iff.mp (hn.raw (hnum v hv))).1
    rw [hn.size] at hlt
    rw [kNoParent]
    omega
  · rw [List.getD_eq_getElem?_getD, hn.raw (hnum v hv)]
    rfl

section Run

variable {edges : List Edge} (hfits : (endpoints edges).card < 2 ^ 32)

include hfits

theorem numbers_numbering : Numbers (numbering edges) (endpoints edges) ∧
    denseEdges edges = edges.map (denseEdge (numbering edges)) := by
  obtain ⟨hn, -, hdense⟩ := numbers_internEdges edges numbers_empty (by simpa using hfits)
  rw [Finset.empty_union] at hn
  exact ⟨hn, hdense⟩

theorem coded_numbering : Coded edges (numbering edges).num (rawIdByDense edges) :=
  (numbers_numbering hfits).1.coded hfits

/-- Any number of steps of the finder are as many insertions. -/
theorem run_sim (target count : ℕ) :
    Codes edges (numbering edges).num (run edges target count).parent
        (links maxPathLength (fun _ => none) ((edges.take count).map Edge.ends)) ∧
      (run edges target count).solutions = cycles (edges.take count) target := by
  have hsim := foldl_processEdge (coded_numbering hfits) ⟨fun _ => kNoParent, []⟩ target
    (L := fun _ => none) .empty (fun _ _ => rfl) (List.take_subset count edges)
  rw [run, (numbers_numbering hfits).2, ← List.map_take]
  exact hsim

omit hfits in
variable (edges) in
theorem forest_links (count : ℕ) : Forest (graph edges) maxPathLength
    (links maxPathLength (fun _ => none) ((edges.take count).map Edge.ends)) := by
  refine Forest.empty.after_links (by decide) fun e he => forall_adj_ends e ?_
  exact List.map_subset _ (List.take_subset count edges) he

/-- **The finder returns the cycles of the edges that it counts.** -/
theorem findCycles_eq (target : ℕ) :
    findCycles edges target = cycles (edges.take (edges.length % 2 ^ 32)) target :=
  (run_sim hfits target _).2

end Run

end MoMiner.C29
