import MoMiner.C30.Host
import MoMiner.Lib.Tours

/-!
# Proof verification

`verify` of the C30 host regenerates the endpoints of 42 nonces and walks from half-edge to
half-edge: to the only other one at the same endpoint, then across its edge, until it is back at the
start. `find_cycle` maps a cycle of endpoints back to nonces and verifies them.

The walk ends within 84 steps, since no half-edge comes twice before the first does
(`walk_cases`). **Main result (`verify_exact`).** What is accepted is exactly a simple cycle of 42
edges with two edges at every endpoint.
-/

namespace MoMiner.C30

open C29 SimpleGraph Tours

/-! ## Edges of a key -/

structure SipKey where
  k0 : UInt64
  k1 : UInt64
  k2 : UInt64
  k3 : UInt64

/-- The four words of the hash state. -/
structure SipState where
  v0 : UInt64
  v1 : UInt64
  v2 : UInt64
  v3 : UInt64

def rotateLeft (value bits : UInt64) : UInt64 := (value <<< bits) ||| (value >>> (64 - bits))

def sipRound (s : SipState) : SipState :=
  let v0 := s.v0 + s.v1
  let v2 := s.v2 + s.v3
  let v1 := rotateLeft s.v1 13 ^^^ v0
  let v3 := rotateLeft s.v3 16 ^^^ v2
  let v0 := rotateLeft v0 32
  let v2 := v2 + v1
  let v0 := v0 + v3
  let v1 := rotateLeft v1 17 ^^^ v2
  let v3 := rotateLeft v3 21 ^^^ v0
  ⟨v0, v1, rotateLeft v2 32, v3⟩

/-- One nonce of a block: the state after it, and its value. -/
def sipNonce (s : SipState) (nonce : UInt64) : SipState × UInt64 :=
  let s := sipRound^[4] { s with v3 := s.v3 ^^^ nonce }
  let s := sipRound^[8] { s with v0 := s.v0 ^^^ nonce, v2 := s.v2 ^^^ 0xff }
  (s, (s.v0 ^^^ s.v1) ^^^ (s.v2 ^^^ s.v3))

def kEdgeBits : ℕ := 30

def kEdgeMask : UInt32 := (1 <<< UInt32.ofNat kEdgeBits) - 1

def kEdgeBlockMask : UInt32 := 63

/-- The state walks the 64 nonces of a block; every value but the last is mixed with the last. -/
def edge (key : SipKey) (nonce : UInt32) : Edge :=
  let target := nonce &&& kEdgeBlockMask
  let first := (nonce &&& ~~~kEdgeBlockMask).toUInt64
  let (_, selected, last) := (List.range 64).foldl
    (fun (s, selected, last) i =>
      let (s, value) := sipNonce s (first + UInt64.ofNat i)
      (s, if UInt32.ofNat i = target then value else selected,
        if UInt32.ofNat i = kEdgeBlockMask then value else last))
    ((⟨key.k0, key.k1, key.k2, key.k3⟩ : SipState), (0 : UInt64), (0 : UInt64))
  let value := if target = kEdgeBlockMask then last else selected ^^^ last
  ⟨value.toUInt32 &&& kEdgeMask, (value >>> 32).toUInt32 &&& kEdgeMask⟩

/-! ## The walk -/

/-- An index of `endpoints`: an end of one of the edges. -/
abbrev Half := Fin (2 * kProofSize)

def Half.start : Half := ⟨0, by decide⟩

/-- `match ^ 1`. -/
def twin (i : Half) : Half :=
  ⟨i.val ^^^ 1, by
    have h : ∀ i : Fin 84, i.val ^^^ 1 < 84 := by decide
    exact h i⟩

/-- The indices that the inner loop visits: `i = (i + 2) % (2 * kProofSize)` until `current`. -/
def others (current : Half) : List Half :=
  (List.range (kProofSize - 1)).map fun s =>
    ⟨(current.val + 2 * (s + 1)) % (2 * kProofSize), Nat.mod_lt _ (by decide)⟩

/-- The only other index with the endpoint of `current`, unless there is none or another one. -/
def findMatch (endpoints : Half → UInt32) (current : Half) : Option Half :=
  ((others current).foldlM (fun found i =>
    if endpoints i = endpoints current then
      if found ≠ current then none else some i
    else some found) current).bind fun found => if found = current then none else some found

/-- The outer loop, with its number of iterations bounded by `fuel`. -/
def walk (endpoints : Half → UInt32) : (fuel : ℕ) → (current : Half) → (length : ℕ) → Option Bool
  | 0, _, _ => none
  | fuel + 1, current, length =>
    match findMatch endpoints current with
    | none => some false
    | some found =>
      if twin found = Half.start then some (length + 1 = kProofSize)
      else walk endpoints fuel (twin found) (length + 1)

def endpointsOf (ends : Fin kProofSize → Edge) (i : Half) : UInt32 :=
  let pair := ends ⟨i.val / 2, by have := i.isLt; omega⟩
  if i.val % 2 = 0 then pair.x else pair.y

def verify (fuel : ℕ) (key : SipKey) (edges : Fin kProofSize → UInt32) : Option Bool :=
  if ¬∀ i : Fin kProofSize, edges i ≤ kEdgeMask ∧
      ∀ h : 0 < i.val, edges ⟨i.val - 1, by have := i.isLt; omega⟩ < edges i then some false
  else
    let ends := fun i => edge key (edges i)
    let xorU := (List.finRange kProofSize).foldl (fun acc i => acc ^^^ (ends i).x) 0
    let xorV := (List.finRange kProofSize).foldl (fun acc i => acc ^^^ (ends i).y) 0
    if xorU ≠ 0 ∨ xorV ≠ 0 then some false
    else walk (endpointsOf ends) fuel Half.start 0

/-- The distinct nonces of the edges of a cycle, each the first that is not used yet. -/
def mapCycle (nonces : List UInt32) (edges : List Edge) :
    (cycle : List Edge) → (used : List ℕ) → Option (List UInt32)
  | [], _ => some []
  | e :: cycle, used =>
    ((List.range edges.length).find? fun index => index ∉ used ∧ edges[index]? = some e).bind
      fun index => (mapCycle nonces edges cycle (index :: used)).map (nonces.getD index 0 :: ·)

def findCycle (key : SipKey) (nonces : List UInt32) : Option (Fin kProofSize → UInt32) :=
  if nonces.length > 2 ^ 22 then none
  else
    let edges := nonces.map (edge key)
    (findCycleGraph edges).bind fun cycle =>
      (mapCycle nonces edges cycle []).bind fun candidate =>
        let sorted := candidate.mergeSort fun a b => a ≤ b
        let proof := fun i : Fin kProofSize => sorted.getD i.val 0
        if verify (2 * kProofSize) key proof = some true then some proof else none

/-! ## Mates -/

theorem twin_val (i : Half) :
    (twin i).val = if i.val % 2 = 0 then i.val + 1 else i.val - 1 := by
  have h : ∀ i : Fin 84, i.val ^^^ 1 = if i.val % 2 = 0 then i.val + 1 else i.val - 1 := by decide
  exact h i

theorem twin_twin : Function.Involutive twin := by
  intro i
  apply Fin.ext
  rw [twin_val, twin_val]
  split_ifs <;> omega

theorem mem_others {current i : Half} :
    i ∈ others current ↔ i ≠ current ∧ i.val % 2 = current.val % 2 := by
  have hi : i.val < 84 := i.isLt
  have hc : current.val < 84 := current.isLt
  rw [others, List.mem_map]
  constructor
  · rintro ⟨s, hs, rfl⟩
    have hs : s < 41 := List.mem_range.mp hs
    refine ⟨fun heq => ?_, ?_⟩
    · have hval : (current.val + 2 * (s + 1)) % 84 = current.val := congrArg Fin.val heq
      omega
    · change (current.val + 2 * (s + 1)) % 84 % 2 = current.val % 2
      omega
  · rintro ⟨hne, hparity⟩
    have hval : i.val ≠ current.val := fun h => hne (Fin.ext h)
    refine ⟨(i.val + 84 - current.val) % 84 / 2 - 1, List.mem_range.mpr ?_, Fin.ext ?_⟩
    · change (i.val + 84 - current.val) % 84 / 2 - 1 < 41
      omega
    · change (current.val + 2 * ((i.val + 84 - current.val) % 84 / 2 - 1 + 1)) % 84 = i.val
      omega

theorem nodup_others (current : Half) : (others current).Nodup := by
  have hc : current.val < 84 := current.isLt
  refine List.Nodup.map_on (fun s hs t ht heq => ?_) List.nodup_range
  have hs : s < 41 := List.mem_range.mp hs
  have ht : t < 41 := List.mem_range.mp ht
  have hval : (current.val + 2 * (s + 1)) % 84 = (current.val + 2 * (t + 1)) % 84 :=
    congrArg Fin.val heq
  omega

/-- The inner loop: the indices of a list that have the endpoint, if they are not more than one. -/
theorem foldlM_found {endpoints : Half → UInt32} {current : Half} {l : List Half} (found : Half)
    (hl : current ∉ l) :
    l.foldlM (fun found i => if endpoints i = endpoints current then
        if found ≠ current then none else some i else some found) found =
      match l.filter fun i => endpoints i = endpoints current with
      | [] => some found
      | [i] => if found ≠ current then none else some i
      | _ => none := by
  induction l generalizing found with
  | nil => rfl
  | cons i l ih =>
    simp only [List.mem_cons, not_or] at hl
    rw [List.foldlM_cons]
    by_cases hi : endpoints i = endpoints current
    · rw [List.filter_cons_of_pos (by simpa using hi), if_pos hi]
      by_cases hfound : found ≠ current
      · rw [if_pos hfound]
        cases l.filter fun i => endpoints i = endpoints current <;> simp [hfound]
      · rw [if_neg hfound, Option.bind_eq_bind, Option.bind_some, ih i hl.2]
        cases l.filter fun i => endpoints i = endpoints current with
        | nil => simp [hfound]
        | cons j l => cases l <;> simp [Ne.symm hl.1]
    · rw [List.filter_cons_of_neg (by simpa using hi), if_neg hi, Option.bind_eq_bind,
        Option.bind_some, ih found hl.2]

/-- The vertex of a half-edge. -/
def vert (endpoints : Half → UInt32) (i : Half) : Vertex :=
  if i.val % 2 = 0 then .inl (endpoints i) else .inr (endpoints i)

variable {endpoints : Half → UInt32}

theorem vert_eq_vert {i j : Half} :
    vert endpoints i = vert endpoints j ↔ i.val % 2 = j.val % 2 ∧ endpoints i = endpoints j := by
  rcases Nat.mod_two_eq_zero_or_one i.val with hi | hi <;>
    rcases Nat.mod_two_eq_zero_or_one j.val with hj | hj <;> simp [vert, hi, hj]

theorem sides_vert (endpoints : Half → UInt32) :
    Sides (vert endpoints) twin fun i => decide (i.val % 2 = 0) where
  flip_flip := twin_twin
  side_flip i := by
    rw [twin_val]
    rcases Nat.mod_two_eq_zero_or_one i.val with hi | hi
    · simp [hi, show (i.val + 1) % 2 = 1 by omega]
    · simp [hi, show (i.val - 1) % 2 = 0 by omega]
  side_vert i j h := by rw [(vert_eq_vert.mp h).1]

/-- **The inner loop finds the mate.** -/
theorem findMatch_eq_some {current found : Half} :
    findMatch endpoints current = some found ↔ Mates (vert endpoints) current found := by
  have hmem (i : Half) : i ∈ (others current).filter (fun i => endpoints i = endpoints current) ↔
      i ≠ current ∧ vert endpoints i = vert endpoints current := by
    rw [List.mem_filter, mem_others, vert_eq_vert]
    simp [and_assoc]
  have hnodup := (nodup_others current).filter fun i => endpoints i = endpoints current
  have hfold := @foldlM_found endpoints current _ current
    (fun h : current ∈ others current => (mem_others.mp h).1 rfl)
  rw [findMatch, hfold]
  generalize (others current).filter (fun i => endpoints i = endpoints current) = l at hmem hnodup
  constructor
  · intro h
    match l with
    | [] => simp at h
    | [i] =>
      have hi := (hmem i).mp (List.mem_singleton_self i)
      obtain rfl : i = found := by simpa [hi.1] using h
      refine ⟨hi.1.symm, hi.2.symm, fun c hc => ?_⟩
      by_cases hne : c = current
      · exact .inl hne
      · exact .inr (List.mem_singleton.mp ((hmem c).mpr ⟨hne, hc⟩))
    | _ :: _ :: _ => simp at h
  · intro h
    have hfound : found ∈ l := (hmem found).mpr ⟨h.ne.symm, h.vert_eq.symm⟩
    have hall : ∀ i ∈ l, i = found := fun i hi =>
      (h.only i ((hmem i).mp hi).2).resolve_left ((hmem i).mp hi).1
    match l with
    | [] => cases hfound
    | [i] =>
      obtain rfl := hall i (List.mem_singleton_self i)
      simp [h.ne.symm]
    | i :: j :: _ =>
      obtain rfl := hall i (by simp)
      obtain rfl := hall j (by simp)
      simp at hnodup

/-! ## The walk ends -/

/-- The half-edges of the walk, as long as there is a mate. -/
def visit (endpoints : Half → UInt32) : ℕ → Half
  | 0 => Half.start
  | t + 1 => (findMatch endpoints (visit endpoints t)).elim (visit endpoints t) twin

/-- The loop stops after these many iterations. -/
def Stops (endpoints : Half → UInt32) (t : ℕ) : Prop :=
  findMatch endpoints (visit endpoints t) = none ∨ visit endpoints (t + 1) = Half.start

instance (endpoints : Half → UInt32) (t : ℕ) : Decidable (Stops endpoints t) :=
  inferInstanceAs (Decidable (_ ∨ _))

theorem mates_visit {t : ℕ} (h : findMatch endpoints (visit endpoints t) ≠ none) :
    Mates (vert endpoints) (visit endpoints t) (twin (visit endpoints (t + 1))) := by
  obtain ⟨found, hfound⟩ := Option.ne_none_iff_exists'.mp h
  rw [visit, hfound, Option.elim_some, twin_twin]
  exact findMatch_eq_some.mp hfound

theorem trail_visit {t : ℕ} (h : ∀ s < t, ¬Stops endpoints s) :
    Trail (vert endpoints) twin (visit endpoints) t where
  mates s hs := mates_visit fun hnone => h s hs (.inl hnone)
  first s hpos hs := by
    obtain ⟨s, rfl⟩ : ∃ s', s = s' + 1 := ⟨s - 1, by omega⟩
    exact fun heq => h s hs (.inr heq)

theorem exists_stops (endpoints : Half → UInt32) : ∃ t, Stops endpoints t := by
  by_contra hnone
  simp only [not_exists] at hnone
  have hlt := (trail_visit (t := 2 * kProofSize) fun s _ => hnone s).lt_card
  rw [Fintype.card_fin] at hlt
  exact absurd hlt (Nat.lt_irrefl _)

theorem walk_advance {t : ℕ} (h : ∀ s < t, ¬Stops endpoints s) (fuel : ℕ) :
    walk endpoints (fuel + t) Half.start 0 = walk endpoints fuel (visit endpoints t) t := by
  induction t generalizing fuel with
  | zero => rfl
  | succ t ih =>
    rw [show fuel + (t + 1) = fuel + 1 + t by omega, ih (fun s hs => h s (by omega)), walk]
    have hgo := h t (Nat.lt_succ_self t)
    simp only [Stops, not_or] at hgo
    obtain ⟨found, hfound⟩ := Option.ne_none_iff_exists'.mp hgo.1
    have hnext : visit endpoints (t + 1) = twin found := by
      rw [visit, hfound, Option.elim_some]
    rw [hnext] at hgo ⊢
    rw [hfound]
    exact if_neg hgo.2

/-- **The walk ends**: without a mate, or after a tour. -/
theorem walk_cases (endpoints : Half → UInt32) : ∃ t < 2 * kProofSize,
    (findMatch endpoints (visit endpoints t) = none ∧
      ∀ fuel, t < fuel → walk endpoints fuel Half.start 0 = some false) ∨
    (Tour (vert endpoints) twin (visit endpoints) t ∧
      ∀ fuel, t < fuel → walk endpoints fuel Half.start 0 =
        some (decide (t + 1 = kProofSize))) := by
  have hbefore := fun s hs => Nat.find_min (exists_stops endpoints) (m := s) hs
  have hstops := Nat.find_spec (exists_stops endpoints)
  generalize Nat.find (exists_stops endpoints) = t at hbefore hstops
  have htrail := trail_visit hbefore
  have hrun (fuel : ℕ) (hfuel : t < fuel) : walk endpoints fuel Half.start 0 =
      walk endpoints (fuel - t - 1 + 1) (visit endpoints t) t := by
    rw [← walk_advance hbefore]
    congr 1
    omega
  refine ⟨t, by simpa using htrail.lt_card, ?_⟩
  cases hfound : findMatch endpoints (visit endpoints t) with
  | none =>
    refine .inl ⟨rfl, fun fuel hfuel => ?_⟩
    rw [hrun fuel hfuel, walk, hfound]
  | some found =>
    have hnext : visit endpoints (t + 1) = twin found := by
      rw [visit, hfound, Option.elim_some]
    have hback := hstops.resolve_left (by simp [hfound])
    have hfinds : findMatch endpoints (visit endpoints t) ≠ none := by simp [hfound]
    have hclosing := mates_visit hfinds
    rw [hback] at hclosing
    refine .inr ⟨⟨htrail, hclosing⟩, fun fuel hfuel => ?_⟩
    rw [hrun fuel hfuel, walk, hfound]
    exact if_pos (hnext ▸ hback)

/-! ## Halves and edges -/

def uHalf (k : Fin kProofSize) : Half := ⟨2 * k.val, by have := k.isLt; omega⟩

def vHalf (k : Fin kProofSize) : Half := ⟨2 * k.val + 1, by have := k.isLt; omega⟩

def edgeOf (i : Half) : Fin kProofSize := ⟨i.val / 2, by have := i.isLt; omega⟩

theorem half_cases (i : Half) : i = uHalf (edgeOf i) ∨ i = vHalf (edgeOf i) := by
  rcases Nat.mod_two_eq_zero_or_one i.val with hi | hi
  · left
    apply Fin.ext
    simp only [uHalf, edgeOf]
    omega
  · right
    apply Fin.ext
    simp only [vHalf, edgeOf]
    omega

@[simp] theorem edgeOf_uHalf (k : Fin kProofSize) : edgeOf (uHalf k) = k := by
  apply Fin.ext
  simp only [edgeOf, uHalf]
  omega

@[simp] theorem edgeOf_vHalf (k : Fin kProofSize) : edgeOf (vHalf k) = k := by
  apply Fin.ext
  simp only [edgeOf, vHalf]
  omega

@[simp] theorem twin_uHalf (k : Fin kProofSize) : twin (uHalf k) = vHalf k := by
  apply Fin.ext
  rw [twin_val]
  simp [uHalf, vHalf]

@[simp] theorem twin_vHalf (k : Fin kProofSize) : twin (vHalf k) = uHalf k := by
  rw [← twin_uHalf, twin_twin]

@[simp] theorem edgeOf_twin (i : Half) : edgeOf (twin i) = edgeOf i := by
  rcases half_cases i with h | h <;> rw [h] <;> simp

theorem eq_or_twin {i j : Half} (h : edgeOf i = edgeOf j) : i = j ∨ twin i = j := by
  rcases half_cases i with hi | hi <;> rcases half_cases j with hj | hj <;>
    rw [hi, hj, h] <;> simp

variable {ends : Fin kProofSize → Edge}

@[simp] theorem vert_uHalf (k : Fin kProofSize) :
    vert (endpointsOf ends) (uHalf k) = .inl (ends k).x := by
  simp [vert, endpointsOf, uHalf]

@[simp] theorem vert_vHalf (k : Fin kProofSize) :
    vert (endpointsOf ends) (vHalf k) = .inr (ends k).y := by
  have hk : (⟨(2 * k.val + 1) / 2, by have := k.isLt; omega⟩ : Fin kProofSize) = k := by
    apply Fin.ext
    show (2 * k.val + 1) / 2 = k.val
    omega
  simp [vert, endpointsOf, vHalf, hk, Nat.add_mod]

theorem link_half (i : Half) : link (vert (endpointsOf ends)) twin i = (ends (edgeOf i)).link := by
  rcases half_cases i with h | h
  · rw [h, link, twin_uHalf, vert_uHalf, vert_vHalf, edgeOf_uHalf, Edge.link]
  · rw [h, link, twin_vHalf, vert_uHalf, vert_vHalf, edgeOf_vHalf, Edge.link, Sym2.eq_swap]

/-! ## Rings -/

/-- The edges in their order. -/
def edgeList (ends : Fin kProofSize → Edge) : List Edge := (List.finRange kProofSize).map ends

/-- The edges form one simple cycle, and every endpoint is on exactly two of them. -/
structure IsRing (ends : Fin kProofSize → Edge) : Prop where
  cycle : IsSimpleCycle (edgeList ends) (edgeList ends)
  two_u : ∀ i, (Finset.univ.filter fun j => (ends j).x = (ends i).x).card = 2
  two_v : ∀ i, (Finset.univ.filter fun j => (ends j).y = (ends i).y).card = 2

/-- The halves of one side at a vertex are the edges with its number. -/
theorem card_side {half : Fin kProofSize → Half} {value : Fin kProofSize → UInt32}
    (hedge : ∀ k, edgeOf (half k) = k)
    (hside : ∀ i k, vert (endpointsOf ends) i = vert (endpointsOf ends) (half k) →
      half (edgeOf i) = i)
    (hvalue : ∀ j k, vert (endpointsOf ends) (half j) = vert (endpointsOf ends) (half k) ↔
      value j = value k) (k : Fin kProofSize) :
    (Finset.univ.filter fun i =>
      vert (endpointsOf ends) i = vert (endpointsOf ends) (half k)).card =
      (Finset.univ.filter fun j => value j = value k).card := by
  refine Finset.card_bij' (fun i _ => edgeOf i) (fun j _ => half j) ?_ ?_ ?_ ?_
  · intro i hi
    rw [Finset.mem_filter] at hi ⊢
    exact ⟨Finset.mem_univ _, (hvalue _ k).mp (by rw [hside i k hi.2, hi.2])⟩
  · intro j hj
    rw [Finset.mem_filter] at hj ⊢
    exact ⟨Finset.mem_univ _, (hvalue j k).mpr hj.2⟩
  · intro i hi
    exact hside i k (Finset.mem_filter.mp hi).2
  · intro j _
    exact hedge j

theorem card_u (k : Fin kProofSize) :
    (Finset.univ.filter fun i =>
      vert (endpointsOf ends) i = vert (endpointsOf ends) (uHalf k)).card =
      (Finset.univ.filter fun j => (ends j).x = (ends k).x).card := by
  refine card_side edgeOf_uHalf (fun i k hi => ?_) (fun j k => by simp) k
  rcases half_cases i with h | h
  · exact h.symm
  · rw [h] at hi
    simp at hi

theorem card_v (k : Fin kProofSize) :
    (Finset.univ.filter fun i =>
      vert (endpointsOf ends) i = vert (endpointsOf ends) (vHalf k)).card =
      (Finset.univ.filter fun j => (ends j).y = (ends k).y).card := by
  refine card_side edgeOf_vHalf (fun i k hi => ?_) (fun j k => by simp) k
  rcases half_cases i with h | h
  · rw [h] at hi
    simp at hi
  · exact h.symm

/-- Two edges at every endpoint are a mate for every half-edge. -/
theorem forall_mates_iff : (∀ i, ∃ b, Mates (vert (endpointsOf ends)) i b) ↔
    (∀ i, (Finset.univ.filter fun j => (ends j).x = (ends i).x).card = 2) ∧
      ∀ i, (Finset.univ.filter fun j => (ends j).y = (ends i).y).card = 2 := by
  constructor
  · intro h
    exact ⟨fun k => (card_u k).symm.trans (exists_mates_iff.mp (h (uHalf k))),
      fun k => (card_v k).symm.trans (exists_mates_iff.mp (h (vHalf k)))⟩
  · rintro ⟨hu, hv⟩ i
    rcases half_cases i with h | h <;> rw [h, exists_mates_iff]
    · exact (card_u _).trans (hu _)
    · exact (card_v _).trans (hv _)

variable {n : ℕ} {seq : ℕ → Half}

/-- A trail uses no edge twice. -/
theorem edgeOf_injective (h : Trail (vert (endpointsOf ends)) twin seq n) :
    Function.Injective fun t : Fin (n + 1) => edgeOf (seq t) := by
  have hne {s t : Fin (n + 1)} (hst : s < t) : edgeOf (seq s) ≠ edgeOf (seq t) := by
    intro heq
    have ht := Nat.lt_succ_iff.mp t.isLt
    rcases eq_or_twin heq with hsame | hflip
    · exact h.seq_ne hst ht hsame
    · exact h.flip_ne (sides_vert _) hst.le ht hflip
  intro s t heq
  rcases lt_trichotomy s t with hlt | hst | hlt
  · exact absurd heq (hne hlt)
  · exact hst
  · exact absurd heq.symm (hne hlt)

/-- The edges of a half-edge and of a list are the same. -/
theorem graph_adj_half {x y : Vertex} : (graph (edgeList ends)).Adj x y ↔
    ∃ i, vert (endpointsOf ends) i = x ∧ vert (endpointsOf ends) (twin i) = y := by
  rw [graph_adj]
  constructor
  · rintro ⟨e, he, hlink⟩
    obtain ⟨k, -, rfl⟩ := List.mem_map.mp he
    rcases Sym2.eq_iff.mp hlink with ⟨rfl, rfl⟩ | ⟨rfl, rfl⟩
    · exact ⟨uHalf k, by simp⟩
    · exact ⟨vHalf k, by simp⟩
  · rintro ⟨i, rfl, rfl⟩
    exact ⟨ends (edgeOf i), List.mem_map_of_mem (List.mem_finRange _), (link_half i).symm⟩

/-- A tour of all edges makes them a ring. -/
theorem isRing_of_tour (h : Tour (vert (endpointsOf ends)) twin seq n)
    (hn : n + 1 = kProofSize) : IsRing ends := by
  have hsize : n = 41 := by
    have : kProofSize = 42 := rfl
    omega
  subst hsize
  have hsurj : Function.Surjective fun t : Fin kProofSize => edgeOf (seq t) :=
    Finite.surjective_of_injective (edgeOf_injective h.toTrail)
  have hmates (i : Half) : ∃ b, Mates (vert (endpointsOf ends)) i b := by
    obtain ⟨t, ht⟩ := hsurj (edgeOf i)
    obtain ⟨hseq, htwin⟩ := h.exists_mates (Nat.lt_succ_iff.mp t.isLt)
    rcases eq_or_twin ht with rfl | rfl
    · exact hseq
    · exact htwin
  obtain ⟨hu, hv⟩ := forall_mates_iff.mp hmates
  refine ⟨?_, hu, hv⟩
  obtain ⟨v, w, hw, hedges⟩ := h.exists_cycle (sides_vert _) (by decide)
    (G := graph (edgeList ends)) fun i => graph_adj_half.mpr ⟨i, rfl, rfl⟩
  refine ⟨v, w, hw, ?_⟩
  have horder : ((List.finRange kProofSize).map fun t : Fin kProofSize => edgeOf (seq t)).Perm
      (List.finRange kProofSize) := by
    refine (List.perm_ext_iff_of_nodup ?_ (List.nodup_finRange _)).mpr fun k => ?_
    · exact (List.nodup_finRange _).map (edgeOf_injective h.toTrail)
    · obtain ⟨t, ht⟩ := hsurj k
      exact iff_of_true (List.mem_map.mpr ⟨t, List.mem_finRange t, ht⟩) (List.mem_finRange k)
  have hrange : (List.range (41 + 1)).map (fun t => link (vert (endpointsOf ends)) twin (seq t)) =
      ((List.finRange kProofSize).map fun t : Fin kProofSize => edgeOf (seq t)).map
        fun k => (ends k).link := by
    rw [← List.map_coe_finRange_eq_range, List.map_map, List.map_map]
    exact List.map_congr_left fun t _ => link_half _
  have hlinks : (edgeList ends).map Edge.link =
      (List.finRange kProofSize).map fun k => (ends k).link := List.map_map
  rw [hedges, hrange, hlinks]
  exact horder.map _

/-- A tour in a ring uses all edges. -/
theorem IsRing.card_tour (hring : IsRing ends) (h : Tour (vert (endpointsOf ends)) twin seq n)
    (hstart : seq 0 = Half.start) : n + 1 = kProofSize := by
  obtain ⟨v, w, -, hperm⟩ := hring.cycle
  have hreach (k : Fin kProofSize) : (graph (edgeList ends)).Reachable v (.inl (ends k).x) := by
    have hlink : (ends k).link ∈ w.edges :=
      hperm.mem_iff.mpr (List.mem_map_of_mem (List.mem_map_of_mem (List.mem_finRange k)))
    exact ⟨w.takeUntil _ (w.fst_mem_support_of_mem_edges hlink)⟩
  have hfirst : seq 0 = uHalf ⟨0, by decide⟩ := hstart
  have hsurj : Function.Surjective fun t : Fin (n + 1) => edgeOf (seq t) := by
    intro k
    have ha : (graph (edgeList ends)).Reachable (vert (endpointsOf ends) (seq 0))
        (vert (endpointsOf ends) (uHalf k)) := by
      rw [hfirst, vert_uHalf, vert_uHalf]
      exact (hreach _).symm.trans (hreach k)
    obtain ⟨t, ht, heq⟩ := h.covers twin_twin (fun x y => graph_adj_half.mp) ha
    refine ⟨⟨t, Nat.lt_succ_iff.mpr ht⟩, ?_⟩
    rcases heq with heq | heq
    · simpa using (congrArg edgeOf heq).symm
    · simpa using (congrArg edgeOf heq).symm
  have hcard := Fintype.card_of_bijective ⟨edgeOf_injective h.toTrail, hsurj⟩
  rwa [Fintype.card_fin, Fintype.card_fin] at hcard

/-- **The walk accepts exactly the rings.** -/
theorem walk_exact (ends : Fin kProofSize → Edge) {fuel : ℕ} (hfuel : 2 * kProofSize ≤ fuel) :
    ∃ accepted, walk (endpointsOf ends) fuel Half.start 0 = some accepted ∧
      (accepted = true ↔ IsRing ends) := by
  obtain ⟨t, ht, ⟨hnone, hwalk⟩ | ⟨htour, hwalk⟩⟩ := walk_cases (endpointsOf ends)
  · refine ⟨false, hwalk fuel (ht.trans_le hfuel), by simp, fun hring => ?_⟩
    obtain ⟨found, hfound⟩ := forall_mates_iff.mpr ⟨hring.two_u, hring.two_v⟩ _
    rw [findMatch_eq_some.mpr hfound] at hnone
    cases hnone
  · refine ⟨decide (t + 1 = kProofSize), hwalk fuel (ht.trans_le hfuel), ?_⟩
    rw [decide_eq_true_eq]
    exact ⟨isRing_of_tour htour, fun hring => hring.card_tour htour rfl⟩

/-! ## The xor of the endpoints -/

/-- Values that occur twice each cancel. -/
theorem fold_xor_eq_zero {ι : Type*} [DecidableEq ι] (value : ι → UInt32) (s : Finset ι)
    (htwo : ∀ i ∈ s, (s.filter fun j => value j = value i).card = 2) :
    s.fold (fun x y : UInt32 => x ^^^ y) 0 value = 0 := by
  induction s using Finset.strongInduction with
  | _ s ih =>
    rcases s.eq_empty_or_nonempty with rfl | ⟨a, ha⟩
    · exact Finset.fold_empty
    obtain ⟨x, y, hne, hpair⟩ := Finset.card_eq_two.mp (htwo a ha)
    have hmem (j : ι) : (j ∈ s ∧ value j = value a) ↔ j = x ∨ j = y := by
      simpa using Finset.ext_iff.mp hpair j
    obtain ⟨hx, hxa⟩ := (hmem x).mpr (.inl rfl)
    obtain ⟨hy, hya⟩ := (hmem y).mpr (.inr rfl)
    have hsplit : s = insert x (insert y ((s.erase x).erase y)) := by
      rw [Finset.insert_erase (Finset.mem_erase.mpr ⟨hne.symm, hy⟩), Finset.insert_erase hx]
    have hrest : ((s.erase x).erase y).fold (fun x y : UInt32 => x ^^^ y) 0 value = 0 := by
      refine ih _ ?_ fun i hi => ?_
      · exact (Finset.erase_subset _ _).trans_ssubset (Finset.erase_ssubset hx)
      · simp only [Finset.mem_erase] at hi
        rw [← htwo i hi.2.2]
        congr 1
        ext j
        simp only [Finset.mem_filter, Finset.mem_erase]
        refine ⟨fun h => ⟨h.1.2.2, h.2⟩, fun h => ⟨⟨?_, ?_, h.1⟩, h.2⟩⟩
        · rintro rfl
          exact (not_or.mpr ⟨hi.2.1, hi.1⟩) ((hmem i).mp ⟨hi.2.2, h.2.symm.trans hya⟩)
        · rintro rfl
          exact (not_or.mpr ⟨hi.2.1, hi.1⟩) ((hmem i).mp ⟨hi.2.2, h.2.symm.trans hxa⟩)
    rw [hsplit, Finset.fold_insert (by simp [hne]), Finset.fold_insert (by simp), hrest, hxa, hya]
    simp

theorem foldl_xor_eq_zero {value : Fin kProofSize → UInt32}
    (htwo : ∀ i, (Finset.univ.filter fun j => value j = value i).card = 2) :
    (List.finRange kProofSize).foldl (fun acc i => acc ^^^ value i) 0 = 0 := by
  have hfold := fold_xor_eq_zero value Finset.univ fun i _ => htwo i
  have hlist := Multiset.coe_fold_l (fun x y : UInt32 => x ^^^ y) 0
    ((List.finRange kProofSize).map value)
  rw [List.foldl_map] at hlist
  exact hlist.symm.trans hfold

/-! ## Verification -/

/-- A proof of the graph of a key: nonces in order, below the number of edges, whose edges are a
ring. -/
structure IsProof (key : SipKey) (edges : Fin kProofSize → UInt32) : Prop where
  increasing : ∀ i j, i < j → (edges i).toNat < (edges j).toNat
  bounded : ∀ i, (edges i).toNat < 2 ^ kEdgeBits
  ring : IsRing fun i => edge key (edges i)

/-- The nonces pass the test of the first loop. -/
theorem inOrder_iff {edges : Fin kProofSize → UInt32} :
    (∀ i : Fin kProofSize, edges i ≤ kEdgeMask ∧
      ∀ h : 0 < i.val, edges ⟨i.val - 1, by have := i.isLt; omega⟩ < edges i) ↔
      (∀ i j, i < j → (edges i).toNat < (edges j).toNat) ∧
        ∀ i, (edges i).toNat < 2 ^ kEdgeBits := by
  have hmask (x : UInt32) : x ≤ kEdgeMask ↔ x.toNat < 2 ^ kEdgeBits := by
    have : kEdgeMask.toNat + 1 = 2 ^ kEdgeBits := by decide
    rw [UInt32.le_iff_toNat_le]
    omega
  constructor
  · intro h
    refine ⟨fun i j hij => ?_, fun i => (hmask _).mp (h i).1⟩
    obtain ⟨i, hi⟩ := i
    obtain ⟨j, hj⟩ := j
    have hij : i < j := hij
    clear * - h hij hi hj
    induction j with
    | zero => exact absurd hij (Nat.not_lt_zero i)
    | succ j ih =>
      have hstep := UInt32.lt_iff_toNat_lt.mp ((h ⟨j + 1, hj⟩).2 (Nat.succ_pos j))
      rcases Nat.lt_succ_iff_lt_or_eq.mp hij with hlt | rfl
      · exact (ih (by omega) hlt).trans hstep
      · exact hstep
  · rintro ⟨hincreasing, hbounded⟩ i
    refine ⟨(hmask _).mpr (hbounded i), fun hpos => UInt32.lt_iff_toNat_lt.mpr ?_⟩
    exact hincreasing _ _ (show i.val - 1 < i.val by omega)

/-- Enough fuel gives the answer. -/
theorem verify_total (key : SipKey) (edges : Fin kProofSize → UInt32) {fuel : ℕ}
    (hfuel : 2 * kProofSize ≤ fuel) : ∃ accepted, verify fuel key edges = some accepted ∧
      (accepted = true ↔ IsProof key edges) := by
  rw [verify]
  extract_lets ends xorU xorV
  split_ifs with horder hxor
  · refine ⟨false, rfl, by simp, fun h => ?_⟩
    rcases hxor with hu | hv
    · exact absurd (foldl_xor_eq_zero h.ring.two_u) hu
    · exact absurd (foldl_xor_eq_zero h.ring.two_v) hv
  · obtain ⟨hincreasing, hbounded⟩ := inOrder_iff.mp horder
    obtain ⟨accepted, hwalk, hiff⟩ := walk_exact ends hfuel
    exact ⟨accepted, hwalk, hiff.trans ⟨fun h => ⟨hincreasing, hbounded, h⟩, fun h => h.ring⟩⟩
  · refine ⟨false, rfl, by simp, fun h => ?_⟩
    exact absurd (inOrder_iff.mpr ⟨h.increasing, h.bounded⟩) horder

/-- **Verification is exact.** It ends, it accepts exactly the proofs of the graph, and what
`find_cycle` returns is one. -/
theorem verify_exact (key : SipKey) :
    (∀ edges fuel, 2 * kProofSize ≤ fuel → ∃ accepted, verify fuel key edges = some accepted ∧
      (accepted = true ↔ IsProof key edges)) ∧
    ∀ nonces proof, findCycle key nonces = some proof → IsProof key proof := by
  refine ⟨fun edges fuel hfuel => verify_total key edges hfuel, fun nonces proof hfound => ?_⟩
  rw [findCycle] at hfound
  split_ifs at hfound
  simp only [Option.bind_eq_some_iff, Option.ite_none_right_eq_some, Option.some.injEq] at hfound
  obtain ⟨_, -, _, -, hverify, rfl⟩ := hfound
  obtain ⟨accepted, htotal, hiff⟩ := verify_total key _ (le_refl (2 * kProofSize))
  rw [htotal, Option.some.injEq] at hverify
  exact hiff.mp hverify

end MoMiner.C30
