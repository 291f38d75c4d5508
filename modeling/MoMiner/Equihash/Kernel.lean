import Mathlib.Tactic.Ring
import MoMiner.Equihash.Hash
import MoMiner.Lib.Fallible

/-!
# The verifier on the device

The kernels of `submit_verify_recovered_leaves` work on flat arrays: the leaves of all candidates, and
the fields of their rows. A candidate is verified in place: at each level the fields of a block are
replaced by those of its join with the next block.

The state between two levels is described by `Folded`, the state within a level by `Joining`.

Main result: `kernel_agrees`.
-/

namespace MoMiner.Equihash

open MoMiner.Blocks

/-! ## The kernels -/

section Kernels

-- Whether the device hashes on pairs.
variable (spec : Spec) (paired : Bool)

/-- The buffers of a recovery: a number of candidates, their leaves and whether they are valid. -/
structure Recovered where
  candidateCount : ℕ
  leaves : ℕ → ℕ
  valid : ℕ → Bool

/-- Hash the leaves of the valid candidates of a range; every work item writes one row. -/
def hashRecoveredLeaves (midstate : Vector (BitVec 64) 8) (header : List UInt8) (r : Recovered)
    (candidateBegin candidateSize : ℕ) (fields : ℕ → ℕ) : ℕ → ℕ := fun p =>
  let item := p / spec.rounds
  let candidate := item / spec.proofIndices
  if candidateBegin ≤ candidate ∧ candidate < candidateBegin + candidateSize ∧
      candidate < r.candidateCount ∧ r.valid candidate then
    rowFromIndexMidstate spec paired midstate header (r.leaves item) (p % spec.rounds)
  else fields p

/-- Replace the fields of the left row by those of its join with the right one. -/
def foldBlock (left right : ℕ) (fields : ℕ → ℕ) (count : ℕ) : ℕ → ℕ :=
  (List.range count).foldl (fun fields field =>
    Function.update fields (left + field)
      (fields (left + field + 1) ^^^ fields (right + field + 1))) fields

/-- Join the two halves of a block; `none` is a proof that failed. -/
def joinBlock (leaves : ℕ → ℕ) (leafBase level : ℕ) (fields : ℕ → ℕ) (begin : ℕ) :
    Option (ℕ → ℕ) :=
  let half := 2 ^ level
  let left := (leafBase + begin) * spec.rounds
  let right := (leafBase + begin + half) * spec.rounds
  let activeFields := spec.rounds - level
  if fields left ≠ fields right ∨ leaves (leafBase + begin + half) ≤ leaves (leafBase + begin) then
    none
  else some (foldBlock left right fields (activeFields - 1))

def joinLevel (leaves : ℕ → ℕ) (leafBase : ℕ) (fields : ℕ → ℕ) (level : ℕ) : Option (ℕ → ℕ) :=
  (List.range (spec.proofIndices / 2 ^ (level + 1))).foldlM (fun fields i =>
    joinBlock spec leaves leafBase level fields (i * 2 ^ (level + 1))) fields

/-- The verification of one candidate. -/
def verifyCandidate (leaves fields : ℕ → ℕ) (candidate : ℕ) : Bool :=
  let leafBase := candidate * spec.proofIndices
  distinct spec (fun i => leaves (leafBase + i)) &&
    ((List.range spec.k).foldlM (joinLevel spec leaves leafBase) fields).any fun fields =>
      fields (leafBase * spec.rounds) = 0

/-- Verify the valid candidates of a range. -/
def verifyRecoveredLeaves (r : Recovered) (candidateBegin candidateSize : ℕ) (fields : ℕ → ℕ) :
    ℕ → Bool := fun candidate =>
  if candidateBegin ≤ candidate ∧ candidate < candidateBegin + candidateSize ∧
      candidate < r.candidateCount ∧ r.valid candidate then
    verifyCandidate spec r.leaves fields candidate
  else r.valid candidate

/-- The two kernels one after the other: which candidates are valid then. -/
def submitVerifyRecoveredLeaves (midstate : Vector (BitVec 64) 8) (header : List UInt8) (r : Recovered)
    (candidateBegin candidateSize : ℕ) (fields : ℕ → ℕ) : ℕ → Bool :=
  verifyRecoveredLeaves spec r candidateBegin candidateSize
    (hashRecoveredLeaves spec paired midstate header r candidateBegin candidateSize fields)

end Kernels

/-! ## One block -/

/-- In-place folding reads only fields that it has not replaced yet. -/
theorem foldBlock_apply {left right count : ℕ} {fields : ℕ → ℕ} (h : left + count ≤ right)
    (p : ℕ) : foldBlock left right fields count p =
      if left ≤ p ∧ p < left + count then fields (p + 1) ^^^ fields (right + (p - left) + 1)
      else fields p := by
  induction count generalizing p with
  | zero =>
    rw [if_neg (by omega)]
    rfl
  | succ count ih =>
    have hstep : foldBlock left right fields (count + 1) =
        Function.update (foldBlock left right fields count) (left + count)
          (foldBlock left right fields count (left + count + 1) ^^^
            foldBlock left right fields count (right + count + 1)) := by
      simp [foldBlock, List.range_succ]
    rw [hstep]
    by_cases hp : p = left + count
    · rw [hp, Function.update_self, ih (by omega), ih (by omega), if_neg (by omega),
        if_neg (by omega), if_pos (by omega), Nat.add_sub_cancel_left]
    · rw [Function.update_of_ne hp, ih (by omega)]
      by_cases hin : left ≤ p ∧ p < left + count
      · rw [if_pos hin, if_pos (by omega)]
      · rw [if_neg hin, if_neg (by omega)]

/-- A place in the row of `a` is among the first `count` places of the row of `b` only if the rows
are the same. -/
theorem row_places {size a b f count : ℕ} (hf : f < size) (hcount : count ≤ size) :
    (b * size ≤ a * size + f ∧ a * size + f < b * size + count) ↔ a = b ∧ f < count := by
  constructor
  · rintro ⟨hle, hlt⟩
    have hab : a = b := by
      rcases lt_trichotomy a b with h | h | h
      · have := Nat.mul_le_mul_right size (Nat.succ_le_of_lt h)
        rw [Nat.succ_mul] at this
        omega
      · exact h
      · have := Nat.mul_le_mul_right size (Nat.succ_le_of_lt h)
        rw [Nat.succ_mul] at this
        omega
    subst hab
    exact ⟨rfl, by omega⟩
  · rintro ⟨rfl, hf⟩
    omega

/-! ## One level -/

section Levels

variable {spec : Spec} {leaves : ℕ → ℕ} {row : ℕ → ℕ → ℕ} {leafBase level : ℕ}

/-- The leaf of a candidate with its row. -/
def leafNode (leaves : ℕ → ℕ) (row : ℕ → ℕ → ℕ) (leafBase t : ℕ) : Node :=
  ⟨leaves (leafBase + t), row (leaves (leafBase + t))⟩

/-- The row of a block holds the fields of the node over it. -/
def HoldsBlock (spec : Spec) (leaves : ℕ → ℕ) (row : ℕ → ℕ → ℕ) (leafBase level begin : ℕ)
    (fields : ℕ → ℕ) : Prop :=
  ∀ f, f + level < spec.rounds → fields ((leafBase + begin) * spec.rounds + f) =
    xorRange (fun t => (leafNode leaves row leafBase t).fields (f + level)) begin (2 ^ level)

/-- The state before a level. -/
def Folded (spec : Spec) (leaves : ℕ → ℕ) (row : ℕ → ℕ → ℕ) (leafBase level : ℕ)
    (fields : ℕ → ℕ) : Prop :=
  ∀ i < 2 ^ (spec.k - level), HoldsBlock spec leaves row leafBase level (i * 2 ^ level) fields

/-- The state within a level, when `m` blocks are joined. -/
structure Joining (spec : Spec) (leaves : ℕ → ℕ) (row : ℕ → ℕ → ℕ) (leafBase level m : ℕ)
    (fields : ℕ → ℕ) : Prop where
  done : ∀ i < m, HoldsBlock spec leaves row leafBase (level + 1) (i * 2 ^ (level + 1)) fields
  todo : ∀ i, 2 * m ≤ i → i < 2 ^ (spec.k - level) →
    HoldsBlock spec leaves row leafBase level (i * 2 ^ level) fields

theorem HoldsBlock.congr {begin : ℕ} {fields fields' : ℕ → ℕ}
    (h : HoldsBlock spec leaves row leafBase level begin fields)
    (heq : ∀ f < spec.rounds, fields' ((leafBase + begin) * spec.rounds + f) =
      fields ((leafBase + begin) * spec.rounds + f)) :
    HoldsBlock spec leaves row leafBase level begin fields' := by
  intro f hf
  rw [heq f (by omega), h f hf]

/-- What the comparison of two blocks decides. -/
theorem HoldsBlock.joins_iff {begin : ℕ} {fields : ℕ → ℕ} (hlevel : level < spec.rounds)
    (hl : HoldsBlock spec leaves row leafBase level begin fields)
    (hr : HoldsBlock spec leaves row leafBase level (begin + 2 ^ level) fields) :
    Joins (leafNode leaves row leafBase) begin level ↔
      ¬ (fields ((leafBase + begin) * spec.rounds) ≠
          fields ((leafBase + begin + 2 ^ level) * spec.rounds) ∨
        leaves (leafBase + begin + 2 ^ level) ≤ leaves (leafBase + begin)) := by
  have hleft := hl 0 (by omega)
  have hright := hr 0 (by omega)
  rw [Nat.add_zero, Nat.zero_add] at hleft hright
  rw [← Nat.add_assoc] at hright
  rw [Joins, pow_succ, Nat.mul_comm, xorRange_double, ← hleft, ← hright, not_or, not_not, not_le,
    Nat.add_assoc leafBase]
  rfl

/-- Where the places of a block's rows are after its join. -/
theorem foldBlock_row {a b count f : ℕ} {fields : ℕ → ℕ} (hcount : count ≤ spec.rounds)
    (hab : a < b) (hf : f < spec.rounds) (c : ℕ) :
    foldBlock (a * spec.rounds) (b * spec.rounds) fields count (c * spec.rounds + f) =
      if c = a ∧ f < count then
        fields (a * spec.rounds + (f + 1)) ^^^ fields (b * spec.rounds + (f + 1))
      else fields (c * spec.rounds + f) := by
  have hrows : a * spec.rounds + count ≤ b * spec.rounds := by
    have := Nat.mul_le_mul_right spec.rounds (Nat.succ_le_of_lt hab)
    rw [Nat.succ_mul] at this
    omega
  rw [foldBlock_apply hrows]
  by_cases h : c = a ∧ f < count
  · rw [if_pos ((row_places hf hcount).mpr h), if_pos h, h.1, Nat.add_assoc,
      Nat.add_sub_cancel_left, Nat.add_assoc]
  · rw [if_neg fun hplace => h ((row_places hf hcount).mp hplace), if_neg h]

theorem HoldsBlock.fold {begin : ℕ} {fields : ℕ → ℕ}
    (hl : HoldsBlock spec leaves row leafBase level begin fields)
    (hr : HoldsBlock spec leaves row leafBase level (begin + 2 ^ level) fields) :
    HoldsBlock spec leaves row leafBase (level + 1) begin
      (foldBlock ((leafBase + begin) * spec.rounds) ((leafBase + begin + 2 ^ level) * spec.rounds)
        fields (spec.rounds - level - 1)) := by
  intro f hf
  have hpos := Nat.two_pow_pos level
  rw [foldBlock_row (by omega) (by omega) (by omega), if_pos ⟨rfl, by omega⟩, hl _ (by omega),
    Nat.add_assoc leafBase, hr _ (by omega), pow_succ, Nat.mul_two, xorRange_add,
    show f + 1 + level = f + (level + 1) by omega]

/-- **One step of a level.** A block is joined exactly if its halves match; the step keeps the
other blocks. -/
theorem joinBlock_spec {m : ℕ} {fields : ℕ → ℕ} (hlevel : level < spec.k)
    (hm : m < 2 ^ (spec.k - 1 - level)) (h : Joining spec leaves row leafBase level m fields) :
    (joinBlock spec leaves leafBase level fields (m * 2 ^ (level + 1)) = none ∧
      ¬ Joins (leafNode leaves row leafBase) (m * 2 ^ (level + 1)) level) ∨
    ∃ fields', joinBlock spec leaves leafBase level fields (m * 2 ^ (level + 1)) = some fields' ∧
      Joins (leafNode leaves row leafBase) (m * 2 ^ (level + 1)) level ∧
      Joining spec leaves row leafBase level (m + 1) fields' := by
  have hrounds : spec.rounds = spec.k + 1 := rfl
  have hblocks : 2 ^ (spec.k - level) = 2 * 2 ^ (spec.k - 1 - level) := by
    rw [← pow_succ']
    congr 1
    omega
  have hbegin : ∀ i, i * 2 ^ (level + 1) = 2 * i * 2 ^ level := by
    intro i
    rw [pow_succ']
    ring
  have hnext : m * 2 ^ (level + 1) + 2 ^ level = (2 * m + 1) * 2 ^ level := by
    rw [hbegin]
    ring
  have hleft := h.todo (2 * m) le_rfl (by omega)
  have hright := h.todo (2 * m + 1) (by omega) (by omega)
  rw [← hbegin] at hleft
  rw [← hnext] at hright
  have hjoins := hleft.joins_iff (by omega) hright
  rw [joinBlock]
  by_cases hbad : fields ((leafBase + m * 2 ^ (level + 1)) * spec.rounds) ≠
        fields ((leafBase + m * 2 ^ (level + 1) + 2 ^ level) * spec.rounds) ∨
      leaves (leafBase + m * 2 ^ (level + 1) + 2 ^ level) ≤
        leaves (leafBase + m * 2 ^ (level + 1))
  · exact .inl ⟨if_pos hbad, fun hjoin => hjoins.mp hjoin hbad⟩
  · refine .inr ⟨_, if_neg hbad, hjoins.mpr hbad, ?_, ?_⟩
    · intro i hi
      rcases Nat.lt_succ_iff_lt_or_eq.mp hi with hi | rfl
      · refine (h.done i hi).congr fun f hf => ?_
        have hne : leafBase + i * 2 ^ (level + 1) ≠ leafBase + m * 2 ^ (level + 1) := by
          have := Nat.mul_lt_mul_of_pos_right hi (Nat.two_pow_pos (level + 1))
          omega
        rw [foldBlock_row (by omega) (by have := Nat.two_pow_pos level; omega) hf,
          if_neg fun h => hne h.1]
      · exact hleft.fold hright
    · intro i hi hlt
      refine (h.todo i (by omega) hlt).congr fun f hf => ?_
      have hne : leafBase + i * 2 ^ level ≠ leafBase + m * 2 ^ (level + 1) := by
        have := Nat.mul_lt_mul_of_pos_right (show 2 * m < i by omega) (Nat.two_pow_pos level)
        rw [hbegin]
        omega
      rw [foldBlock_row (by omega) (by have := Nat.two_pow_pos level; omega) hf,
        if_neg fun h => hne h.1]

/-- **One level.** It succeeds exactly if all its blocks match. -/
theorem joinLevel_spec {fields : ℕ → ℕ} (hlevel : level < spec.k)
    (h : Folded spec leaves row leafBase level fields) :
    (joinLevel spec leaves leafBase fields level = none ∧
      ¬ ∀ i < 2 ^ (spec.k - 1 - level),
        Joins (leafNode leaves row leafBase) (i * 2 ^ (level + 1)) level) ∨
    ∃ fields', joinLevel spec leaves leafBase fields level = some fields' ∧
      (∀ i < 2 ^ (spec.k - 1 - level),
        Joins (leafNode leaves row leafBase) (i * 2 ^ (level + 1)) level) ∧
      Folded spec leaves row leafBase (level + 1) fields' := by
  have hcount : spec.proofIndices / 2 ^ (level + 1) = 2 ^ (spec.k - 1 - level) := by
    rw [Spec.proofIndices, Nat.pow_div hlevel (by decide), Nat.sub_sub, Nat.add_comm 1]
  have hstart : Joining spec leaves row leafBase level 0 fields :=
    ⟨fun i hi => absurd hi (Nat.not_lt_zero i), fun i _ hi => h i hi⟩
  rw [joinLevel, hcount]
  rcases foldlM_range_decides (Q := fun i =>
      Joins (leafNode leaves row leafBase) (i * 2 ^ (level + 1)) level) hstart
      fun m hm fields hjoining => joinBlock_spec hlevel hm hjoining with
    hnone | ⟨fields', hsome, hall, hjoining⟩
  · exact .inl hnone
  · refine .inr ⟨fields', hsome, hall, fun i hi => hjoining.done i ?_⟩
    rwa [Nat.sub_sub, Nat.add_comm 1]

/-- **All levels.** From the rows of the leaves on, the levels succeed exactly if every join of the
tree matches. -/
theorem joinLevels_any_iff {fields : ℕ → ℕ} (h : Folded spec leaves row leafBase 0 fields) :
    ((List.range spec.k).foldlM (joinLevel spec leaves leafBase) fields).any
        (fun fields => fields (leafBase * spec.rounds) = 0) ↔
      AllBlocks (Joins (leafNode leaves row leafBase)) 0 spec.k ∧
        xorRange (fun t => (leafNode leaves row leafBase t).fields spec.k) 0 (2 ^ spec.k) = 0 := by
  have hblocks : AllBlocks (Joins (leafNode leaves row leafBase)) 0 spec.k ↔
      ∀ l < spec.k, ∀ i < 2 ^ (spec.k - 1 - l),
        Joins (leafNode leaves row leafBase) (i * 2 ^ (l + 1)) l := by
    simp only [AllBlocks, Nat.zero_add]
  rw [hblocks]
  rcases foldlM_range_decides (P := Folded spec leaves row leafBase) (Q := fun l =>
      ∀ i < 2 ^ (spec.k - 1 - l), Joins (leafNode leaves row leafBase) (i * 2 ^ (l + 1)) l) h
      fun l hl fields hfolded => joinLevel_spec hl hfolded with
    ⟨hnone, hnot⟩ | ⟨fields', hsome, hall, hfolded⟩
  · rw [hnone]
    exact ⟨fun h => (by cases h), fun h => absurd h.1 hnot⟩
  · have hroot := hfolded 0 (Nat.two_pow_pos _) 0 (by rw [Nat.zero_add]; exact Nat.lt_succ_self _)
    rw [Nat.zero_mul, Nat.add_zero, Nat.add_zero, Nat.zero_add] at hroot
    rw [hsome, Option.any_some, decide_eq_true_iff, hroot]
    exact ⟨fun h => ⟨hall, h⟩, fun h => h.2⟩

end Levels

/-! ## One candidate -/

section Candidate

variable {spec : Spec} {paired : Bool} {header : List UInt8} {r : Recovered}
  {candidateBegin candidateSize candidate : ℕ}

/-- The indices of a candidate. -/
def Recovered.indices (spec : Spec) (r : Recovered) (candidate : ℕ) : List ℕ :=
  (List.range spec.proofIndices).map fun i => r.leaves (candidate * spec.proofIndices + i)

theorem getD_indices {i : ℕ} (hi : i < spec.proofIndices) :
    (r.indices spec candidate).getD i 0 = r.leaves (candidate * spec.proofIndices + i) := by
  simp [Recovered.indices, List.getD_eq_getElem?_getD, hi]

/-- The rows of a candidate that is verified are those of its leaves. -/
theorem folded_hashRecoveredLeaves {fields : ℕ → ℕ} (hbegin : candidateBegin ≤ candidate)
    (hend : candidate < candidateBegin + candidateSize) (hcount : candidate < r.candidateCount)
    (hvalid : r.valid candidate = true) :
    Folded spec r.leaves (rowFields spec header) (candidate * spec.proofIndices) 0
      (hashRecoveredLeaves spec paired (hashHeaderMidstate spec header) header r candidateBegin
        candidateSize fields) := by
  intro i hi f hf
  rw [pow_zero, Nat.mul_one, xorRange_one, Nat.add_zero]
  have hpos : 0 < spec.rounds := Nat.succ_pos _
  have hindices : 0 < spec.proofIndices := Nat.two_pow_pos _
  have hitem : ((candidate * spec.proofIndices + i) * spec.rounds + f) / spec.rounds =
      candidate * spec.proofIndices + i := by
    rw [Nat.mul_comm, Nat.mul_add_div hpos, Nat.div_eq_of_lt (by omega), Nat.add_zero]
  have hfield : ((candidate * spec.proofIndices + i) * spec.rounds + f) % spec.rounds = f := by
    rw [Nat.mul_comm, Nat.mul_add_mod, Nat.mod_eq_of_lt (by omega)]
  have hcandidate : (candidate * spec.proofIndices + i) / spec.proofIndices = candidate := by
    rw [Nat.mul_comm, Nat.mul_add_div hindices, Nat.div_eq_of_lt (by exact hi), Nat.add_zero]
  simp only [hashRecoveredLeaves, hitem, hfield, hcandidate]
  rw [if_pos ⟨hbegin, hend, hcount, hvalid⟩, rowFromIndexMidstate, hashTail_eq]
  rfl

theorem distinct_congr {indices indices' : ℕ → ℕ}
    (h : ∀ i < spec.proofIndices, indices i = indices' i) :
    distinct spec indices = distinct spec indices' := by
  rw [Bool.eq_iff_iff]
  simp only [distinct, List.all_eq_true, List.mem_range, decide_eq_true_eq]
  constructor
  · intro hall i hi j hj
    rw [← h i hi, ← h j (hj.trans hi)]
    exact hall i hi j hj
  · intro hall i hi j hj
    rw [h i hi, h j (hj.trans hi)]
    exact hall i hi j hj

/-- The two verifiers on the same leaves. -/
theorem verifyCandidate_eq {fields : ℕ → ℕ}
    (hleaves : ∀ index ∈ r.indices spec candidate, index < 2 ^ spec.indexBits)
    (hrows : Folded spec r.leaves (rowFields spec header) (candidate * spec.proofIndices) 0 fields) :
    verifyCandidate spec r.leaves fields candidate =
      verifySolution (rowFields spec) spec header
        (encodeIndices spec (r.indices spec candidate)) := by
  have hdecode : decodeIndices spec (encodeIndices spec (r.indices spec candidate)) =
      r.indices spec candidate := decode_encode (by simp [Recovered.indices]) hleaves
  have hsubtree : verifySubtree spec (fun i => rowFromIndex (rowFields spec) header
        ((r.indices spec candidate).getD i 0)) 0 spec.k =
      verifySubtree spec (leafNode r.leaves (rowFields spec header)
        (candidate * spec.proofIndices)) 0 spec.k := by
    refine verifySubtree_congr 0 0 fun t ht => ?_
    rw [Nat.zero_add, getD_indices (by exact ht)]
    rfl
  rw [verifyCandidate, verifySolution, hdecode, hsubtree]
  congr 1
  · exact distinct_congr fun i hi => (getD_indices hi).symm
  · exact Bool.eq_iff_iff.mpr ((joinLevels_any_iff hrows).trans verifySubtree_any_iff.symm)

end Candidate

/-- **The device decides like the host.** A candidate that is marked as recovered stays so exactly
if the proof that its leaves encode is accepted, whichever way the device hashes and whatever the
buffers of fields hold. -/
theorem kernel_agrees (spec : Spec) (paired : Bool) (header : List UInt8) (r : Recovered)
    (candidateBegin candidateSize candidate : ℕ) (fields : ℕ → ℕ)
    (hbegin : candidateBegin ≤ candidate) (hend : candidate < candidateBegin + candidateSize)
    (hcount : candidate < r.candidateCount) (hvalid : r.valid candidate = true)
    (hleaves : ∀ index ∈ r.indices spec candidate, index < 2 ^ 25) :
    submitVerifyRecoveredLeaves spec paired (hashHeaderMidstate spec header) header r
        candidateBegin candidateSize fields candidate =
      verifySolution (rowFields spec) spec header
        (encodeIndices spec (r.indices spec candidate)) := by
  rw [submitVerifyRecoveredLeaves, verifyRecoveredLeaves,
    if_pos ⟨hbegin, hend, hcount, hvalid⟩]
  refine verifyCandidate_eq ?_ (folded_hashRecoveredLeaves hbegin hend hcount hvalid)
  rwa [spec.indexBits_eq]

/-- The second of three candidates, whose leaves are the numbers from 32 on. -/
theorem kernel_agrees_second :
    submitVerifyRecoveredLeaves .zhash144_5 true (hashHeaderMidstate .zhash144_5 []) []
        ⟨3, id, fun _ => true⟩ 1 2 (fun _ => 0) 1 =
      verifySolution (rowFields .zhash144_5) .zhash144_5 []
        (encodeIndices .zhash144_5
          (Recovered.indices .zhash144_5 ⟨3, id, fun _ => true⟩ 1)) :=
  kernel_agrees .zhash144_5 true [] ⟨3, id, fun _ => true⟩ 1 2 1 (fun _ => 0) (by decide)
    (by decide) (by decide) rfl (by
      intro index hindex
      simp only [Recovered.indices, List.mem_map, List.mem_range] at hindex
      obtain ⟨i, hi, rfl⟩ := hindex
      have hindices : Spec.proofIndices .zhash144_5 = 32 := rfl
      simp only [id_eq, hindices] at hi ⊢
      omega)

end MoMiner.Equihash
