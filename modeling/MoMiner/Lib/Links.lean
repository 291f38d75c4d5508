import Mathlib.Data.List.Chain
import Mathlib.Data.List.Nodup
import Mathlib.Logic.Function.Basic

/-!
# Parent links

A graph of parent links gives every vertex at most one parent. `chain` walks the links for a
bounded number of vertices, and `attach` turns the links of a walked chain around and hangs its
first vertex below another one.

A bounded walk cannot tell a long way to the root from a long cycle of links, so the invariant of
`attach` is a bound on the girth: no cycle of links is as short as the bound of the walks
(`girth_attach`). Walks within the bound then never repeat a vertex (`chain_nodup`).
-/

namespace MoMiner.Links

variable {V : Type*}

/-! ## Walking -/

/-- The vertex `k` links above `v`. -/
def iter (L : V → Option V) : ℕ → V → Option V
  | 0, v => some v
  | k + 1, v => (L v).bind (iter L k)

/-- The vertices from `v` upwards, at most `k` of them. -/
def chain (L : V → Option V) : ℕ → V → List V
  | 0, _ => []
  | k + 1, v => v :: match L v with
    | none => []
    | some w => chain L k w

variable {L : V → Option V} {v x y : V} {k m : ℕ}

theorem iter_add : iter L (m + k) v = (iter L m v).bind (iter L k) := by
  induction m generalizing v with
  | zero => simp [iter]
  | succ m ih =>
    rw [Nat.succ_add, iter, iter, Option.bind_assoc]
    exact Option.bind_congr fun w _ => ih

theorem iter_succ' : iter L (k + 1) v = (iter L k v).bind L := by
  rw [iter_add]
  exact Option.bind_congr fun w _ => by simp [iter]

theorem length_chain_le : (chain L k v).length ≤ k := by
  induction k generalizing v with
  | zero => simp [chain]
  | succ k ih =>
    rw [chain]
    cases L v with
    | none => simp
    | some w => simpa using ih

theorem getElem?_chain {i : ℕ} (h : i < k) : (chain L k v)[i]? = iter L i v := by
  induction k generalizing v i with
  | zero => omega
  | succ k ih =>
    rw [chain]
    cases i with
    | zero => rfl
    | succ i =>
      rw [List.getElem?_cons_succ, iter]
      cases L v with
      | none => rfl
      | some w => exact ih (by omega)

theorem mem_chain : x ∈ chain L k v ↔ ∃ i < k, iter L i v = some x := by
  rw [List.mem_iff_getElem?]
  constructor
  · rintro ⟨i, hi⟩
    have hlt : i < k := by
      have := (List.getElem?_eq_some_iff.mp hi).1
      have := length_chain_le (L := L) (v := v) (k := k)
      omega
    exact ⟨i, hlt, by rwa [← getElem?_chain hlt]⟩
  · rintro ⟨i, hlt, hi⟩
    exact ⟨i, by rwa [getElem?_chain hlt]⟩

/-- Neighbours in a chain are linked. -/
theorem isChain_chain : (chain L k v).IsChain (fun x y => L x = some y) := by
  induction k generalizing v with
  | zero => exact .nil
  | succ k ih =>
    rw [chain]
    cases hv : L v with
    | none => exact .singleton v
    | some w =>
      cases k with
      | zero => exact .singleton v
      | succ k => exact List.isChain_cons_cons.mpr ⟨hv, ih⟩

/-- A chain that is shorter than its bound ends at a root. -/
theorem chain_complete (h : (chain L k v).length < k) :
    ∃ r, (chain L k v).getLast? = some r ∧ L r = none := by
  induction k generalizing v with
  | zero => omega
  | succ k ih =>
    rw [chain] at h ⊢
    cases hv : L v with
    | none => exact ⟨v, rfl, hv⟩
    | some w =>
      rw [hv] at h
      obtain ⟨r, hr, hroot⟩ := ih (v := w) (by simpa using h)
      refine ⟨r, ?_, hroot⟩
      rw [List.getLast?_cons, hr]
      rfl

/-- A chain that is shorter than its bound follows all links. -/
theorem getElem?_chain_of_length_lt (h : (chain L k v).length < k) (i : ℕ) :
    (chain L k v)[i]? = iter L i v := by
  by_cases hi : i < k
  · exact getElem?_chain hi
  · have hend : iter L (chain L k v).length v = none := by
      rw [← getElem?_chain h, List.getElem?_eq_none_iff.mpr le_rfl]
    obtain ⟨m, rfl⟩ : ∃ m, i = (chain L k v).length + m := ⟨i - (chain L k v).length, by omega⟩
    rw [List.getElem?_eq_none_iff.mpr (by omega), iter_add, hend, Option.bind_none]

/-- Two chains that are shorter than their bound run together from a common vertex on. -/
theorem getElem?_chain_add {w : V} {i j : ℕ} (hv : (chain L k v).length < k)
    (hw : (chain L k w).length < k) (hi : (chain L k v)[i]? = some x)
    (hj : (chain L k w)[j]? = some x) (t : ℕ) :
    (chain L k v)[i + t]? = (chain L k w)[j + t]? := by
  rw [getElem?_chain_of_length_lt hv] at hi ⊢
  rw [getElem?_chain_of_length_lt hw] at hj ⊢
  rw [iter_add, iter_add, hi, hj]

/-! ## Girth -/

/-- No cycle of links has `k` vertices or fewer. -/
def Girth (L : V → Option V) (k : ℕ) : Prop := ∀ v i, 0 < i → i ≤ k → iter L i v ≠ some v

theorem chain_nodup (hg : Girth L k) : (chain L k v).Nodup := by
  rw [List.nodup_iff_getElem?_ne_getElem?]
  intro i j hij hj
  have hjk : j < k := lt_of_lt_of_le hj length_chain_le
  rw [getElem?_chain (by omega), getElem?_chain hjk]
  intro heq
  have hsome : ∃ x, iter L j v = some x := by
    rw [← getElem?_chain hjk]
    exact ⟨_, List.getElem?_eq_getElem hj⟩
  obtain ⟨x, hx⟩ := hsome
  rw [hx] at heq
  -- The vertex at `i` comes back after `j - i` links.
  have hback : iter L (i + (j - i)) v = some x := by rwa [Nat.add_sub_of_le hij.le]
  rw [iter_add, heq, Option.bind_some] at hback
  exact hg x (j - i) (by omega) (by omega) hback

/-! ## Turning a chain around -/

variable [DecidableEq V]

/-- Turn the links between the vertices of `path` around, from the last pair to the first. -/
def reroot (L : V → Option V) : List V → V → Option V
  | a :: b :: rest => Function.update (Function.update (reroot L (b :: rest)) a none) b (some a)
  | _ => L

/-- Turn the chain of `a` around and make `b` the parent of `a`. -/
def attach (L : V → Option V) (path : List V) (a b : V) : V → Option V :=
  Function.update (reroot L path) a (some b)

theorem reroot_of_notMem {path : List V} (h : x ∉ path) : reroot L path x = L x := by
  induction path with
  | nil => rfl
  | cons a path ih =>
    cases path with
    | nil => rfl
    | cons b rest =>
      simp only [List.mem_cons, not_or] at h ih
      rw [reroot, Function.update_of_ne h.2.1, Function.update_of_ne h.1]
      exact ih h.2

/-- After the turn a vertex of the path points to the one before it. -/
theorem reroot_next {path : List V} (hnodup : path.Nodup) {i : ℕ} {a b : V}
    (ha : path[i]? = some a) (hb : path[i + 1]? = some b) : reroot L path b = some a := by
  induction path generalizing i with
  | nil => simp at ha
  | cons c path ih =>
    cases path with
    | nil => simp at hb
    | cons d rest =>
      rw [reroot]
      cases i with
      | zero =>
        simp only [List.getElem?_cons_zero, Option.some.injEq, List.getElem?_cons_succ] at ha hb
        rw [← ha, ← hb, Function.update_self]
      | succ i =>
        rw [List.getElem?_cons_succ] at ha hb
        have hmem : b ∈ rest := List.mem_iff_getElem?.mpr ⟨i, by simpa using hb⟩
        obtain ⟨hc, hnodup'⟩ := List.nodup_cons.mp hnodup
        have hbc : b ≠ c := fun h => hc (h ▸ List.mem_cons_of_mem _ hmem)
        have hbd : b ≠ d := fun h => (List.nodup_cons.mp hnodup').1 (h ▸ hmem)
        rw [Function.update_of_ne hbd, Function.update_of_ne hbc]
        exact ih hnodup' ha hb

section Attach

variable {a b : V}

theorem attach_of_notMem (hk : 0 < k) (h : x ∉ chain L k a) :
    attach L (chain L k a) a b x = L x := by
  have hne : x ≠ a := fun hx => h (hx ▸ mem_chain.mpr ⟨0, hk, rfl⟩)
  rw [attach, Function.update_of_ne hne, reroot_of_notMem h]

theorem reroot_chain (hg : Girth L k) {i : ℕ} {z : V} (hi : i + 1 < k) (hz : iter L i a = some z)
    (hzx : L z = some x) : reroot L (chain L k a) x = some z := by
  refine reroot_next (chain_nodup hg) (i := i) ?_ ?_
  · rwa [getElem?_chain (by omega)]
  · rw [getElem?_chain hi, iter_succ', hz, Option.bind_some, hzx]

/-- The links of `attach`: the new one, old ones turned around, and old ones. -/
theorem attach_cases (hg : Girth L k) (hk : 0 < k) (h : attach L (chain L k a) a b x = some y) :
    (x = a ∧ y = b) ∨ L y = some x ∨ L x = some y := by
  by_cases hx : x = a
  · subst hx
    rw [attach, Function.update_self, Option.some.injEq] at h
    exact .inl ⟨rfl, h.symm⟩
  by_cases hmem : x ∈ chain L k a
  · obtain ⟨i, hi, hix⟩ := mem_chain.mp hmem
    cases i with
    | zero =>
      rw [iter, Option.some.injEq] at hix
      exact absurd hix.symm hx
    | succ i =>
      rw [iter_succ', Option.bind_eq_some_iff] at hix
      obtain ⟨z, hz, hzx⟩ := hix
      rw [attach, Function.update_of_ne hx, reroot_chain hg hi hz hzx, Option.some.injEq] at h
      exact .inr (.inl (h ▸ hzx))
  · rw [attach_of_notMem hk hmem] at h
    exact .inr (.inr h)

/-- No link is lost when the whole way up from `a` is turned around. -/
theorem attach_keeps (hg : Girth L k) (hlen : (chain L k a).length < k) (h : L x = some y) :
    attach L (chain L k a) a b x = some y ∨ attach L (chain L k a) a b y = some x := by
  by_cases hmem : x ∈ chain L k a
  · obtain ⟨i, hix⟩ := List.mem_iff_getElem?.mp hmem
    have hi : i + 1 < k := by
      have := (List.getElem?_eq_some_iff.mp hix).1
      omega
    rw [getElem?_chain (by omega)] at hix
    have hiy : iter L (i + 1) a = some y := by rw [iter_succ', hix, Option.bind_some, h]
    have hne : y ≠ a := fun hya => hg a (i + 1) (by omega) hi.le (hya ▸ hiy)
    rw [attach, Function.update_of_ne hne (some b) (reroot L (chain L k a))]
    exact .inr (reroot_chain hg hi hix h)
  · exact .inl (by rw [attach_of_notMem (by omega) hmem, h])

/-- From a vertex of the turned chain the links lead back to `a`. -/
theorem iter_attach_back (hg : Girth L k) {i : ℕ} (hi : i < k) (h : iter L i a = some x) :
    iter (attach L (chain L k a) a b) i x = some a := by
  induction i generalizing x with
  | zero =>
    rw [iter, Option.some.injEq] at h
    rw [h, iter]
  | succ i ih =>
    have hix := h
    rw [iter_succ', Option.bind_eq_some_iff] at h
    obtain ⟨z, hz, hzx⟩ := h
    have hne : x ≠ a := fun hxa => hg a (i + 1) (by omega) (by omega) (hxa ▸ hix)
    rw [iter, attach, Function.update_of_ne hne, reroot_chain hg hi hz hzx, Option.bind_some]
    exact ih (by omega) hz

/-- The way up from `b` stays as it was, as far as it avoids the turned chain. -/
theorem iter_attach_above (hk : 0 < k) (hdisj : ∀ x ∈ chain L k b, x ∉ chain L k a) {i : ℕ}
    (hi : i ≤ k) : iter (attach L (chain L k a) a b) i b = iter L i b := by
  induction i with
  | zero => rfl
  | succ i ih =>
    rw [iter_succ', iter_succ', ih (by omega)]
    refine Option.bind_congr fun x hx => ?_
    exact attach_of_notMem hk (hdisj x (mem_chain.mpr ⟨i, by omega, hx⟩))

/-- **Attaching keeps the girth.** A cycle that uses the new link climbs from `b` for longer than
the walks that found no common vertex. -/
theorem girth_attach (hg : Girth L k) (hdisj : ∀ x ∈ chain L k b, x ∉ chain L k a) :
    Girth (attach L (chain L k a) a b) k := by
  intro v i hi hik hcycle
  have hk : 0 < k := by omega
  set L' := attach L (chain L k a) a b with hL'
  -- A cycle through `a` would return there within `k` links from `b`.
  have hthrough : iter L' i a ≠ some a := by
    intro ha
    obtain ⟨j, rfl⟩ : ∃ j, i = j + 1 := ⟨i - 1, by omega⟩
    rw [iter, hL', attach, Function.update_self, ← attach, Option.bind_some,
      iter_attach_above hk hdisj (by omega)] at ha
    exact hdisj a (mem_chain.mpr ⟨j, by omega, ha⟩) (mem_chain.mpr ⟨0, hk, rfl⟩)
  by_cases hmeet : ∃ m x, iter L' m v = some x ∧ x ∈ chain L k a
  · obtain ⟨m, x, hm, hx⟩ := hmeet
    obtain ⟨d, hd, hdx⟩ := mem_chain.mp hx
    have hreach : iter L' (m + d) v = some a := by
      rw [iter_add, hm, Option.bind_some]
      exact iter_attach_back hg hd hdx
    refine hthrough ?_
    -- Going round once more from `v` passes `a` again.
    have hround : iter L' (i + (m + d)) v = some a := by
      rw [iter_add, hcycle, Option.bind_some, hreach]
    rwa [Nat.add_comm, iter_add, hreach, Option.bind_some] at hround
  · have hsame : ∀ m, iter L' m v = iter L m v := by
      intro m
      induction m with
      | zero => rfl
      | succ m ih =>
        rw [iter_succ', iter_succ', ih]
        refine Option.bind_congr fun x hx => ?_
        exact attach_of_notMem hk fun hmem => hmeet ⟨m, x, ih.trans hx, hmem⟩
    exact hg v i hi hik ((hsame i).symm.trans hcycle)

end Attach

end MoMiner.Links
