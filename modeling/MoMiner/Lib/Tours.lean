import MoMiner.Lib.CycleSearch
import Mathlib.Data.Fintype.Card

/-!
# Tours of half-edges

An edge has two halves, each at a vertex; `flip` takes one half to the other. A trail goes on from a
half-edge where its vertex has exactly one other half-edge, its mate: to the other half of the mate.
A tour is a trail that comes back to its start.

Half-edges are on two sides, and the halves of an edge are on different ones. So a tour uses no edge
twice (`Trail.flip_ne`) and meets no vertex twice (`Trail.vert_ne`).

**Main results.** A tour of three half-edges or more is a simple cycle (`Tour.exists_cycle`), and it
uses every edge of its component (`Tour.covers`).
-/

namespace MoMiner.Tours

open SimpleGraph

variable {H V : Type*}

/-- Two half-edges, and no third, are at one vertex. -/
structure Mates (vert : H → V) (a b : H) : Prop where
  ne : a ≠ b
  vert_eq : vert a = vert b
  only : ∀ c, vert c = vert a → c = a ∨ c = b

/-- Half-edges of which each is the other half of the mate of the one before; the first does not
come again. -/
structure Trail (vert : H → V) (flip : H → H) (seq : ℕ → H) (n : ℕ) : Prop where
  mates : ∀ t < n, Mates vert (seq t) (flip (seq (t + 1)))
  first : ∀ t, 0 < t → t ≤ n → seq t ≠ seq 0

/-- A trail whose last half-edge leads to the first. -/
structure Tour (vert : H → V) (flip : H → H) (seq : ℕ → H) (n : ℕ) : Prop
    extends Trail vert flip seq n where
  closing : Mates vert (seq n) (flip (seq 0))

/-- The halves of an edge are on different sides, the half-edges of a vertex on one. -/
structure Sides (vert : H → V) (flip : H → H) (side : H → Bool) : Prop where
  flip_flip : Function.Involutive flip
  side_flip : ∀ a, side (flip a) = !side a
  side_vert : ∀ a b, vert a = vert b → side a = side b

variable {vert : H → V} {flip : H → H} {side : H → Bool} {seq : ℕ → H} {n s t : ℕ} {a b c : H}

theorem Mates.symm (h : Mates vert a b) : Mates vert b a :=
  ⟨h.ne.symm, h.vert_eq.symm, fun c hc => (h.only c (hc.trans h.vert_eq.symm)).symm⟩

theorem Mates.right_unique (hb : Mates vert a b) (hc : Mates vert a c) : b = c := by
  rcases hb.only c hc.vert_eq.symm with h | h
  · exact absurd h.symm hc.ne
  · exact h.symm

theorem Mates.left_unique (ha : Mates vert a c) (hb : Mates vert b c) : a = b :=
  ha.symm.right_unique hb.symm

/-- A half-edge has a mate when two half-edges are at its vertex. -/
theorem exists_mates_iff [Fintype H] [DecidableEq V] :
    (∃ b, Mates vert a b) ↔ (Finset.univ.filter fun c => vert c = vert a).card = 2 := by
  classical
  constructor
  · rintro ⟨b, hb⟩
    have hpair : (Finset.univ.filter fun c => vert c = vert a) = {a, b} := by
      ext c
      rw [Finset.mem_filter, Finset.mem_insert, Finset.mem_singleton]
      refine ⟨fun hc => hb.only c hc.2, ?_⟩
      rintro (rfl | rfl)
      · exact ⟨Finset.mem_univ _, rfl⟩
      · exact ⟨Finset.mem_univ _, hb.vert_eq.symm⟩
    rw [hpair, Finset.card_pair hb.ne]
  · intro hcard
    obtain ⟨x, y, hne, hpair⟩ := Finset.card_eq_two.mp hcard
    have hmem (c : H) : vert c = vert a ↔ c = x ∨ c = y := by
      simpa using Finset.ext_iff.mp hpair c
    rcases (hmem a).mp rfl with rfl | rfl
    · exact ⟨y, hne, ((hmem y).mpr (.inr rfl)).symm, fun c hc => (hmem c).mp hc⟩
    · exact ⟨x, hne.symm, ((hmem x).mpr (.inl rfl)).symm, fun c hc => ((hmem c).mp hc).symm⟩

/-! ## Trails -/

/-- No half-edge comes twice. -/
theorem Trail.seq_ne (h : Trail vert flip seq n) (hst : s < t) (ht : t ≤ n) : seq s ≠ seq t := by
  induction s generalizing t with
  | zero => exact (h.first t hst ht).symm
  | succ s ih =>
    obtain ⟨t, rfl⟩ : ∃ t', t = t' + 1 := ⟨t - 1, by omega⟩
    intro heq
    have hs := h.mates s (by omega)
    rw [heq] at hs
    exact ih (by omega) (by omega) (hs.left_unique (h.mates t (by omega)))

theorem Trail.lt_card [Fintype H] (h : Trail vert flip seq n) : n < Fintype.card H := by
  have hinj : Function.Injective fun t : Fin (n + 1) => seq t := by
    intro s t hst
    rcases lt_trichotomy s t with hlt | heq | hlt
    · exact absurd hst (h.seq_ne hlt (Nat.lt_succ_iff.mp t.isLt))
    · exact heq
    · exact absurd hst.symm (h.seq_ne hlt (Nat.lt_succ_iff.mp s.isLt))
  have hcard := Fintype.card_le_of_injective _ hinj
  rw [Fintype.card_fin] at hcard
  exact hcard

/-- The sides alternate. -/
theorem Trail.side_seq (h : Trail vert flip seq n) (hs : Sides vert flip side) (ht : t ≤ n) :
    side (seq t) = (side (seq 0) ^^ decide (t % 2 = 1)) := by
  induction t with
  | zero => simp
  | succ t ih =>
    have hvert := hs.side_vert _ _ (h.mates t (by omega)).vert_eq
    rw [hs.side_flip, ih (by omega)] at hvert
    rw [← Bool.not_not (side (seq (t + 1))), ← hvert]
    rcases Nat.mod_two_eq_zero_or_one t with h0 | h1
    · simp [h0, show (t + 1) % 2 = 1 by omega]
    · simp [h1, show (t + 1) % 2 = 0 by omega]

/-- No edge is used in both directions. -/
theorem Trail.flip_ne (h : Trail vert flip seq n) (hs : Sides vert flip side) (hst : s ≤ t)
    (ht : t ≤ n) : flip (seq s) ≠ seq t := by
  intro heq
  have hodd : (s + t) % 2 = 1 := by
    have hside := congrArg side heq
    rw [hs.side_flip, h.side_seq hs (hst.trans ht), h.side_seq hs ht] at hside
    rcases Nat.mod_two_eq_zero_or_one s with h0 | h0 <;>
      rcases Nat.mod_two_eq_zero_or_one t with h1 | h1 <;> simp [h0, h1] at hside <;> omega
  -- Both ends move towards each other until they are neighbours.
  induction hd : t - s using Nat.strong_induction_on generalizing s t with
  | _ d ih =>
    obtain ⟨t, rfl⟩ : ∃ t', t = t' + 1 := ⟨t - 1, by omega⟩
    have hback := h.mates t (by omega)
    rw [← heq, hs.flip_flip] at hback
    rcases eq_or_ne s t with rfl | hne
    · exact hback.ne rfl
    · have hforward := h.mates s (by omega)
      exact ih (t - (s + 1)) (by omega) (by omega) (by omega)
        (hforward.right_unique hback.symm) (by omega) rfl

/-- No vertex comes twice. -/
theorem Trail.vert_ne (h : Trail vert flip seq n) (hs : Sides vert flip side) (hst : s < t)
    (ht : t ≤ n) : vert (seq s) ≠ vert (seq t) := by
  intro heq
  rcases (h.mates s (by omega)).only _ heq.symm with hsame | hflip
  · exact h.seq_ne hst ht hsame.symm
  · exact h.flip_ne hs (Nat.succ_le_of_lt hst) ht hflip.symm

/-! ## Tours -/

/-- The half-edges at a vertex of the tour are the one that leaves it and its mate. -/
theorem Tour.at_vertex (h : Tour vert flip seq n) (ht : t ≤ n) (hc : vert c = vert (seq t)) :
    c = seq t ∨ ∃ s ≤ n, c = flip (seq s) := by
  rcases Nat.lt_or_ge t n with hlt | hge
  · exact ((h.mates t hlt).only c hc).imp_right fun heq => ⟨t + 1, hlt, heq⟩
  · obtain rfl := Nat.le_antisymm ht hge
    exact (h.closing.only c hc).imp_right fun heq => ⟨0, Nat.zero_le _, heq⟩

/-- The other half of a half-edge of the tour is at the vertex before. -/
theorem Tour.vert_flip (h : Tour vert flip seq n) (ht : t ≤ n) :
    ∃ s ≤ n, vert (flip (seq t)) = vert (seq s) := by
  cases t with
  | zero => exact ⟨n, le_rfl, h.closing.vert_eq.symm⟩
  | succ t => exact ⟨t, by omega, (h.mates t ht).vert_eq.symm⟩

/-- Every half of an edge of the tour has a mate. -/
theorem Tour.exists_mates (h : Tour vert flip seq n) (ht : t ≤ n) :
    (∃ b, Mates vert (seq t) b) ∧ ∃ b, Mates vert (flip (seq t)) b := by
  constructor
  · rcases Nat.lt_or_ge t n with hlt | hge
    · exact ⟨_, h.mates t hlt⟩
    · obtain rfl := Nat.le_antisymm ht hge
      exact ⟨_, h.closing⟩
  · cases t with
    | zero => exact ⟨_, h.closing.symm⟩
    | succ t => exact ⟨_, (h.mates t ht).symm⟩

variable {G : SimpleGraph V}

/-- **The tour uses every edge of its component.** -/
theorem Tour.covers (h : Tour vert flip seq n) (hflip : Function.Involutive flip)
    (hG : ∀ x y, G.Adj x y → ∃ a, vert a = x ∧ vert (flip a) = y) {a : H}
    (ha : G.Reachable (vert (seq 0)) (vert a)) : ∃ t ≤ n, a = seq t ∨ a = flip (seq t) := by
  have hvertex {x : V} (hx : G.Reachable (vert (seq 0)) x) : ∃ t ≤ n, x = vert (seq t) := by
    rw [reachable_iff_reflTransGen] at hx
    induction hx with
    | refl => exact ⟨0, Nat.zero_le n, rfl⟩
    | tail _ hadj ih =>
      obtain ⟨t, ht, rfl⟩ := ih
      obtain ⟨c, hc, rfl⟩ := hG _ _ hadj
      rcases h.at_vertex ht hc with rfl | ⟨s, hs, rfl⟩
      · exact h.vert_flip ht
      · exact ⟨s, hs, by rw [hflip]⟩
  obtain ⟨t, ht, heq⟩ := hvertex ha
  rcases h.at_vertex ht heq with rfl | ⟨s, hs, rfl⟩
  · exact ⟨t, ht, .inl rfl⟩
  · exact ⟨s, hs, .inr rfl⟩

/-- The edge of a half-edge. -/
def link (vert : H → V) (flip : H → H) (a : H) : Sym2 V := s(vert a, vert (flip a))

/-- **A tour is a simple cycle** through its edges. -/
theorem Tour.exists_cycle (h : Tour vert flip seq n) (hs : Sides vert flip side) (hn : 2 ≤ n)
    (hG : ∀ a, G.Adj (vert a) (vert (flip a))) :
    ∃ v, ∃ w : G.Walk v v, w.IsCycle ∧
      w.edges = (List.range (n + 1)).map fun t => link vert flip (seq t) := by
  have hstep (t : ℕ) (ht : t < n) :
      s(vert (seq t), vert (seq (t + 1))) = link vert flip (seq (t + 1)) := by
    rw [(h.mates t ht).vert_eq, Sym2.eq_swap, link]
  have hchain : ((List.range (n + 1)).map fun t => vert (seq t)).IsChain G.Adj := by
    rw [List.isChain_iff_getElem]
    intro t ht
    rw [List.length_map, List.length_range] at ht
    simp only [List.getElem_map, List.getElem_range]
    rw [(h.mates t (by omega)).vert_eq]
    exact (hG _).symm
  obtain ⟨w, hsupport, hedges⟩ := CycleSearch.exists_walk hchain
    (a := vert (seq 0)) (b := vert (seq n)) (by simp [List.range_succ_eq_map])
    (by simp [List.range_succ])
  have hsteps : w.edges = (List.range n).map fun t => link vert flip (seq (t + 1)) := by
    rw [hedges, CycleSearch.steps]
    refine List.ext_getElem (by simp) fun t ht ht' => ?_
    rw [List.length_map, List.length_range] at ht'
    simp [hstep t ht']
  have hback : G.Adj (vert (seq n)) (vert (seq 0)) := by
    rw [h.closing.vert_eq]
    exact (hG _).symm
  have hclosing : s(vert (seq n), vert (seq 0)) = link vert flip (seq 0) := by
    rw [h.closing.vert_eq, Sym2.eq_swap, link]
  refine ⟨_, .cons hback w, ?_, ?_⟩
  · rw [Walk.cons_isCycle_iff, Walk.isPath_def, hsupport, hsteps]
    refine ⟨List.Nodup.map_on (fun s hs' t ht' heq => ?_) List.nodup_range, fun hmem => ?_⟩
    · rw [List.mem_range] at hs' ht'
      rcases lt_trichotomy s t with hlt | rfl | hlt
      · exact absurd heq (h.vert_ne hs hlt (by omega))
      · rfl
      · exact absurd heq.symm (h.vert_ne hs hlt (by omega))
    · obtain ⟨t, ht, heq⟩ := List.mem_map.mp hmem
      rw [List.mem_range] at ht
      rw [← hstep t ht] at heq
      rcases Sym2.eq_iff.mp heq with ⟨hfirst, -⟩ | ⟨hfirst, hsecond⟩
      · exact h.vert_ne hs ht le_rfl hfirst
      · rcases Nat.eq_zero_or_pos t with rfl | hpos
        · exact h.vert_ne hs (by omega) le_rfl hsecond
        · exact h.vert_ne hs hpos ht.le hfirst.symm
  · rw [Walk.edges_cons, hsteps, hclosing, List.range_succ_eq_map, List.map_cons, List.map_map]
    rfl

end MoMiner.Tours
