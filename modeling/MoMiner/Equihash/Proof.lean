import MoMiner.Lib.BitString
import MoMiner.Lib.Blocks

/-!
# Equihash proofs

The verifier of `equihash_core.hpp`: a proof is a bit string of `2 ^ k` leaf indices, whose rows are
joined level by level. A join compares the first field of its two nodes and shifts the others.

`verifySubtree_eq_some` says what a subtree proves: all its joins match, and the fields of its node
are exclusive ors over its leaves.

Main result: `equihash_proof_exact`.
-/

namespace MoMiner.Equihash

open MoMiner.BitString MoMiner.Blocks

/-! ## Specifications -/

inductive Spec
  | zhash144_5
  | equihash192_7
  deriving DecidableEq, Repr

def Spec.n : Spec → ℕ
  | .zhash144_5 => 144
  | .equihash192_7 => 192

def Spec.k : Spec → ℕ
  | .zhash144_5 => 5
  | .equihash192_7 => 7

def Spec.rounds (spec : Spec) : ℕ := spec.k + 1

def Spec.collisionBits (spec : Spec) : ℕ := spec.n / spec.rounds

def Spec.indexBits (spec : Spec) : ℕ := spec.collisionBits + 1

def Spec.proofIndices (spec : Spec) : ℕ := 2 ^ spec.k

def Spec.solutionLength (spec : Spec) : ℕ := spec.proofIndices * spec.indexBits / 8

theorem Spec.collisionBits_eq (spec : Spec) : spec.collisionBits = 24 := by cases spec <;> rfl

theorem Spec.indexBits_eq (spec : Spec) : spec.indexBits = 25 := by cases spec <;> rfl

theorem Spec.eight_mul_solutionLength (spec : Spec) :
    8 * spec.solutionLength = spec.proofIndices * spec.indexBits := by cases spec <;> rfl

/-! ## The bits of a solution -/

/-- One index, read from its bits. -/
def decodeIndex (spec : Spec) (solution : List UInt8) (i : ℕ) : ℕ :=
  ofBits (fun bit =>
    let p := i * spec.indexBits + bit
    (solution.getD (p / 8) 0).toNat >>> (7 - p % 8) &&& 1) spec.indexBits

def decodeIndices (spec : Spec) (solution : List UInt8) : List ℕ :=
  (List.range spec.proofIndices).map (decodeIndex spec solution)

def encodeIndices (spec : Spec) (indices : List ℕ) : List UInt8 :=
  (List.range spec.proofIndices).foldl (fun solution i =>
    (List.range spec.indexBits).foldl (fun solution bit =>
      setBit solution (i * spec.indexBits + bit)
        (indices.getD i 0 >>> (spec.indexBits - bit - 1))) solution)
    (List.replicate spec.solutionLength 0)

section Bits

variable {spec : Spec}

theorem decodeIndex_eq (solution : List UInt8) (i : ℕ) :
    decodeIndex spec solution i =
      ofBits (fun bit => (bitAt solution (i * spec.indexBits + bit)).toNat) spec.indexBits := by
  unfold decodeIndex
  congr 1
  funext bit
  rw [bitAt, Nat.and_one_is_mod, Nat.toNat_testBit, Nat.shiftRight_eq_div_pow]

theorem testBit_decodeIndex (solution : List UInt8) (i j : ℕ) :
    (decodeIndex spec solution i).testBit j =
      (decide (j < spec.indexBits) &&
        bitAt solution (i * spec.indexBits + (spec.indexBits - 1 - j))) := by
  rw [decodeIndex_eq]
  exact testBit_ofBits j

theorem decodeIndex_lt (solution : List UInt8) (i : ℕ) :
    decodeIndex spec solution i < 2 ^ spec.indexBits := by
  refine Nat.lt_pow_two_of_testBit _ fun j hj => ?_
  rw [testBit_decodeIndex, decide_eq_false (by omega), Bool.false_and]

theorem length_decodeIndices (solution : List UInt8) :
    (decodeIndices spec solution).length = spec.proofIndices := by simp [decodeIndices]

theorem getD_decodeIndices (solution : List UInt8) {i : ℕ} (hi : i < spec.proofIndices) :
    (decodeIndices spec solution).getD i 0 = decodeIndex spec solution i := by
  simp [decodeIndices, List.getD_eq_getElem?_getD, hi]

/-- The places of the bits of the indices, with the number that ends in the bit. -/
def places (spec : Spec) (indices : List ℕ) : List (ℕ × ℕ) :=
  (List.range spec.proofIndices).flatMap fun i => (List.range spec.indexBits).map fun bit =>
    (i * spec.indexBits + bit, indices.getD i 0 >>> (spec.indexBits - bit - 1))

theorem encodeIndices_eq (indices : List ℕ) : encodeIndices spec indices =
    setBits (List.replicate spec.solutionLength 0) (places spec indices) := by
  rw [encodeIndices, setBits, places, List.foldl_flatMap]
  simp only [List.foldl_map]

theorem length_encodeIndices (indices : List ℕ) :
    (encodeIndices spec indices).length = spec.solutionLength := by
  rw [encodeIndices_eq, length_setBits, List.length_replicate]

theorem bitAt_encodeIndices (indices : List ℕ) {i bit : ℕ} (hi : i < spec.proofIndices)
    (hbit : bit < spec.indexBits) :
    bitAt (encodeIndices spec indices) (i * spec.indexBits + bit) =
      (indices.getD i 0).testBit (spec.indexBits - 1 - bit) := by
  have hplaces : ∀ place ∈ places spec indices,
      place.1 / 8 < (List.replicate spec.solutionLength (0 : UInt8)).length := by
    intro place hplace
    simp only [places, List.mem_flatMap, List.mem_map, List.mem_range] at hplace
    obtain ⟨i, hi, bit, hbit, rfl⟩ := hplace
    have hlen := spec.eight_mul_solutionLength
    have hnext : (i + 1) * spec.indexBits ≤ spec.proofIndices * spec.indexBits :=
      Nat.mul_le_mul_right _ hi
    rw [Nat.add_mul, Nat.one_mul] at hnext
    rw [List.length_replicate]
    dsimp only
    omega
  have hshift : ∀ m, (m >>> (spec.indexBits - bit - 1)).testBit 0 =
      m.testBit (spec.indexBits - 1 - bit) := by
    intro m
    rw [Nat.testBit_shiftRight, Nat.add_zero, Nat.sub_right_comm]
  rw [encodeIndices_eq, bitAt_setBits _ hplaces, bitAt_replicate, Bool.false_or, Bool.eq_iff_iff,
    List.any_eq_true]
  constructor
  · rintro ⟨place, hplace, hset⟩
    simp only [places, List.mem_flatMap, List.mem_map, List.mem_range] at hplace
    obtain ⟨i', hi', bit', hbit', rfl⟩ := hplace
    obtain ⟨hplace, hset⟩ := Bool.and_eq_true_iff.mp hset
    -- A place determines the index and the bit in it.
    obtain ⟨rfl, rfl⟩ : i = i' ∧ bit = bit' := by
      have hplace := of_decide_eq_true hplace
      dsimp only at hplace
      have hi'' : i = i' := by
        have h₁ := Nat.add_mul_div_left bit i (show 0 < spec.indexBits by omega)
        have h₂ := Nat.add_mul_div_left bit' i' (show 0 < spec.indexBits by omega)
        rw [Nat.div_eq_of_lt hbit, Nat.zero_add] at h₁
        rw [Nat.div_eq_of_lt hbit', Nat.zero_add] at h₂
        rw [← h₁, ← h₂, Nat.mul_comm _ i, Nat.mul_comm _ i', Nat.add_comm, hplace, Nat.add_comm]
      subst hi''
      exact ⟨rfl, by omega⟩
    rw [← hshift]
    exact hset
  · intro hset
    refine ⟨(i * spec.indexBits + bit, indices.getD i 0 >>> (spec.indexBits - bit - 1)), ?_, ?_⟩
    · simp only [places, List.mem_flatMap, List.mem_map, List.mem_range]
      exact ⟨i, hi, bit, hbit, rfl⟩
    · rw [hshift]
      simpa using hset

/-- **The indices are read back.** -/
theorem decode_encode {indices : List ℕ} (hlen : indices.length = spec.proofIndices)
    (hlt : ∀ index ∈ indices, index < 2 ^ spec.indexBits) :
    decodeIndices spec (encodeIndices spec indices) = indices := by
  refine List.ext_getElem (by rw [length_decodeIndices, hlen]) fun i hi hi' => ?_
  have hindex := hlt indices[i] (List.getElem_mem hi')
  have hgetD : indices.getD i 0 = indices[i] := by simp [List.getD_eq_getElem?_getD, hi']
  rw [length_decodeIndices] at hi
  simp only [decodeIndices, List.getElem_map, List.getElem_range]
  refine Nat.eq_of_testBit_eq fun j => ?_
  rw [testBit_decodeIndex]
  by_cases hj : j < spec.indexBits
  · rw [bitAt_encodeIndices _ hi (by omega), hgetD, decide_eq_true hj, Bool.true_and]
    congr 1
    omega
  · rw [decide_eq_false hj, Bool.false_and, Nat.testBit_lt_two_pow]
    exact hindex.trans_le (Nat.pow_le_pow_right (by decide) (by omega))

/-- **The solution is written back.** -/
theorem encode_decode {solution : List UInt8} (hlen : solution.length = spec.solutionLength) :
    encodeIndices spec (decodeIndices spec solution) = solution := by
  refine ext_bitAt (by rw [length_encodeIndices, hlen]) fun q hq => ?_
  rw [hlen, spec.eight_mul_solutionLength] at hq
  have hbits : 0 < spec.indexBits := by
    rw [spec.indexBits_eq]
    decide
  have hi : q / spec.indexBits < spec.proofIndices := Nat.div_lt_of_lt_mul (by rwa [Nat.mul_comm])
  have hbit := Nat.mod_lt q hbits
  have hsplit : q / spec.indexBits * spec.indexBits + q % spec.indexBits = q := by
    rw [Nat.mul_comm]
    exact Nat.div_add_mod q _
  have hencode := bitAt_encodeIndices (decodeIndices spec solution) hi hbit
  rw [hsplit, getD_decodeIndices _ hi, testBit_decodeIndex, decide_eq_true (by omega),
    Bool.true_and] at hencode
  rw [hencode, show spec.indexBits - 1 - (spec.indexBits - 1 - q % spec.indexBits) =
    q % spec.indexBits by omega, hsplit]

end Bits

/-! ## The verifier -/

/-- A row of the table or a node of the tree: its fields and its first leaf. -/
structure Node where
  firstIndex : ℕ
  fields : ℕ → ℕ

def mergeOrdered (spec : Spec) (left right : Node) : Node where
  firstIndex := left.firstIndex
  fields i := if i < spec.rounds - 1 then left.fields (i + 1) ^^^ right.fields (i + 1) else 0

theorem mergeOrdered_fields (spec : Spec) (left right : Node) (i : ℕ) :
    (mergeOrdered spec left right).fields i =
      if i < spec.rounds - 1 then left.fields (i + 1) ^^^ right.fields (i + 1) else 0 := rfl

def verifySubtree (spec : Spec) (leaves : ℕ → Node) : ℕ → ℕ → Option Node
  | begin, 0 => some (leaves begin)
  | begin, level + 1 => do
    let left ← verifySubtree spec leaves begin level
    let right ← verifySubtree spec leaves (begin + 2 ^ level) level
    if left.fields 0 ≠ right.fields 0 ∨ right.firstIndex ≤ left.firstIndex then none
    else some (mergeOrdered spec left right)

section Verify

-- The hash: the fields of a leaf's row, for a header.
variable (rowFields : List UInt8 → ℕ → ℕ → ℕ)

def rowFromIndex (header : List UInt8) (index : ℕ) : Node := ⟨index, rowFields header index⟩

/-- No index comes twice. -/
def distinct (spec : Spec) (indices : ℕ → ℕ) : Bool :=
  (List.range spec.proofIndices).all fun i => (List.range i).all fun j => indices i ≠ indices j

def verifySolution (spec : Spec) (header solution : List UInt8) : Bool :=
  let indices := fun i => (decodeIndices spec solution).getD i 0
  distinct spec indices &&
    (verifySubtree spec (fun i => rowFromIndex rowFields header (indices i)) 0 spec.k).any
      fun root => root.fields 0 = 0

end Verify

/-- Two neighbouring blocks of `2 ^ level` leaves match and are in order. -/
def Joins (leaves : ℕ → Node) (begin level : ℕ) : Prop :=
  xorRange (fun t => (leaves t).fields level) begin (2 ^ (level + 1)) = 0 ∧
    (leaves begin).firstIndex < (leaves (begin + 2 ^ level)).firstIndex

/-- The node over a block of leaves, as far as its fields are in use. -/
structure Covers (spec : Spec) (leaves : ℕ → Node) (begin level : ℕ) (node : Node) : Prop where
  firstIndex : node.firstIndex = (leaves begin).firstIndex
  fields : ∀ i, i + level < spec.rounds →
    node.fields i = xorRange (fun t => (leaves t).fields (i + level)) begin (2 ^ level)

theorem Covers.leaf (spec : Spec) (leaves : ℕ → Node) (begin : ℕ) :
    Covers spec leaves begin 0 (leaves begin) :=
  ⟨rfl, fun i _ => by rw [pow_zero, xorRange_one, Nat.add_zero]⟩

theorem Covers.merge {spec : Spec} {leaves : ℕ → Node} {begin level : ℕ} {left right : Node}
    (hl : Covers spec leaves begin level left)
    (hr : Covers spec leaves (begin + 2 ^ level) level right) :
    Covers spec leaves begin (level + 1) (mergeOrdered spec left right) := by
  refine ⟨hl.firstIndex, fun i hi => ?_⟩
  rw [mergeOrdered_fields, if_pos (by omega), hl.fields _ (by omega), hr.fields _ (by omega), pow_succ,
    Nat.mul_two, xorRange_add, show i + 1 + level = i + (level + 1) by omega]

theorem Covers.joins_iff {spec : Spec} {leaves : ℕ → Node} {begin level : ℕ} {left right : Node}
    (hlevel : level < spec.rounds) (hl : Covers spec leaves begin level left)
    (hr : Covers spec leaves (begin + 2 ^ level) level right) :
    Joins leaves begin level ↔
      ¬ (left.fields 0 ≠ right.fields 0 ∨ right.firstIndex ≤ left.firstIndex) := by
  rw [Joins, pow_succ, Nat.mul_comm, xorRange_double, hl.fields 0 (by omega), hr.fields 0 (by omega),
    hl.firstIndex, hr.firstIndex, Nat.zero_add, not_or, not_not, not_le]

/-- **A subtree is accepted when all its joins match**, and its node is then known. -/
theorem verifySubtree_spec {spec : Spec} (leaves : ℕ → Node) {level : ℕ}
    (hlevel : level ≤ spec.rounds) (begin : ℕ) :
    (∃ node, verifySubtree spec leaves begin level = some node ∧
      Covers spec leaves begin level node ∧ AllBlocks (Joins leaves) begin level) ∨
    (verifySubtree spec leaves begin level = none ∧ ¬ AllBlocks (Joins leaves) begin level) := by
  induction level generalizing begin with
  | zero => exact .inl ⟨_, rfl, .leaf spec leaves begin, allBlocks_zero⟩
  | succ level ih =>
    rw [verifySubtree, allBlocks_succ]
    rcases ih (by omega) begin with ⟨left, hleft, hl, hal⟩ | ⟨hleft, hal⟩
    · rcases ih (by omega) (begin + 2 ^ level) with ⟨right, hright, hr, har⟩ | ⟨hright, har⟩
      · have hjoins := hl.joins_iff (by omega) hr
        by_cases hbad : left.fields 0 ≠ right.fields 0 ∨ right.firstIndex ≤ left.firstIndex
        · refine .inr ⟨by simp [hleft, hright, hbad], fun h => ?_⟩
          exact hjoins.mp h.2.2 hbad
        · refine .inl ⟨mergeOrdered spec left right, by simp [hleft, hright, hbad], hl.merge hr, ?_⟩
          exact ⟨hal, har, hjoins.mpr hbad⟩
      · exact .inr ⟨by simp [hleft, hright], fun h => har h.2.1⟩
    · exact .inr ⟨by simp [hleft], fun h => hal h.1⟩

/-- A subtree depends only on its own leaves. -/
theorem verifySubtree_congr {spec : Spec} {leaves leaves' : ℕ → Node} {level : ℕ} (begin begin' : ℕ)
    (h : ∀ t < 2 ^ level, leaves (begin + t) = leaves' (begin' + t)) :
    verifySubtree spec leaves begin level = verifySubtree spec leaves' begin' level := by
  induction level generalizing begin begin' with
  | zero => rw [verifySubtree, verifySubtree]; exact congrArg some (h 0 (by simp))
  | succ level ih =>
    have hpow : 2 ^ (level + 1) = 2 ^ level + 2 ^ level := by rw [pow_succ, Nat.mul_two]
    have hright : ∀ t < 2 ^ level, leaves (begin + 2 ^ level + t) = leaves' (begin' + 2 ^ level + t) := by
      intro t ht
      rw [Nat.add_assoc, Nat.add_assoc]
      exact h (2 ^ level + t) (by omega)
    rw [verifySubtree, verifySubtree, ih begin begin' fun t ht => h t (by omega), ih _ _ hright]

/-- The whole tree is accepted when all joins match and the last field of the rows cancels out. -/
theorem verifySubtree_any_iff {spec : Spec} {leaves : ℕ → Node} :
    (verifySubtree spec leaves 0 spec.k).any (fun root => root.fields 0 = 0) ↔
      AllBlocks (Joins leaves) 0 spec.k ∧
        xorRange (fun t => (leaves t).fields spec.k) 0 (2 ^ spec.k) = 0 := by
  rcases verifySubtree_spec leaves (Nat.le_succ spec.k) 0 with
    ⟨root, hroot, hcovers, hall⟩ | ⟨hnone, hall⟩
  · have hfield := hcovers.fields 0 (by rw [Nat.zero_add]; exact Nat.lt_succ_self _)
    rw [Nat.zero_add] at hfield
    rw [hroot, Option.any_some, decide_eq_true_iff, hfield]
    exact ⟨fun h => ⟨hall, h⟩, fun h => h.2⟩
  · rw [hnone]
    exact ⟨fun h => (by cases h), fun h => absurd h.1 hall⟩

/-! ## What a proof is -/

theorem distinct_iff {spec : Spec} {indices : List ℕ} (hlen : indices.length = spec.proofIndices) :
    distinct spec (fun i => indices.getD i 0) = true ↔ indices.Nodup := by
  rw [distinct, List.all_eq_true, List.Nodup, List.pairwise_iff_getElem]
  simp only [List.mem_range, List.all_eq_true, decide_eq_true_eq, ← hlen]
  constructor
  · intro h i j hi hj hij heq
    refine h j hj i hij ?_
    simp [List.getD_eq_getElem?_getD, hi, hj, heq]
  · intro h i hi j hij heq
    refine h j i (hij.trans hi) hi hij ?_
    simpa [List.getD_eq_getElem?_getD, hi, hij.trans hi] using heq.symm

/-- A valid proof for the rows of a header: the indices are distinct; at every level the rows of a
block cancel out in as many fields as the level, with the smaller first index on the left; and all
rows together cancel out in all fields. -/
structure IsProof (spec : Spec) (row : ℕ → ℕ → ℕ) (indices : List ℕ) : Prop where
  distinct : indices.Nodup
  collide : ∀ l, 1 ≤ l → l ≤ spec.k → ∀ i < 2 ^ (spec.k - l), ∀ j < l,
    xorRange (fun t => row (indices.getD t 0) j) (i * 2 ^ l) (2 ^ l) = 0
  ordered : ∀ l, 1 ≤ l → l ≤ spec.k → ∀ i < 2 ^ (spec.k - l),
    indices.getD (i * 2 ^ l) 0 < indices.getD (i * 2 ^ l + 2 ^ (l - 1)) 0
  zero : ∀ j < spec.k + 1, xorRange (fun t => row (indices.getD t 0) j) 0 (2 ^ spec.k) = 0

section Exact

variable {rowFields : List UInt8 → ℕ → ℕ → ℕ} {spec : Spec} {header : List UInt8}

/-- The joins of a tree, as conditions on its blocks. -/
theorem allBlocks_joins_iff (spec : Spec) (row : ℕ → ℕ → ℕ) (indices : ℕ → ℕ) :
    (AllBlocks (Joins fun t => ⟨indices t, row (indices t)⟩) 0 spec.k ∧
      xorRange (fun t => row (indices t) spec.k) 0 (2 ^ spec.k) = 0) ↔
    (∀ l, 1 ≤ l → l ≤ spec.k → ∀ i < 2 ^ (spec.k - l), ∀ j < l,
      xorRange (fun t => row (indices t) j) (i * 2 ^ l) (2 ^ l) = 0) ∧
    (∀ l, 1 ≤ l → l ≤ spec.k → ∀ i < 2 ^ (spec.k - l),
      indices (i * 2 ^ l) < indices (i * 2 ^ l + 2 ^ (l - 1))) ∧
    ∀ j < spec.k + 1, xorRange (fun t => row (indices t) j) 0 (2 ^ spec.k) = 0 := by
  constructor
  · rintro ⟨hall, hroot⟩
    have hcollide : ∀ l, 1 ≤ l → l ≤ spec.k → ∀ i < 2 ^ (spec.k - l), ∀ j < l,
        xorRange (fun t => row (indices t) j) (i * 2 ^ l) (2 ^ l) = 0 := by
      intro l hpos hl i hi j hj
      have hj' : ∀ i < 2 ^ (spec.k - 1 - j),
          xorRange (fun t => row (indices t) j) (i * 2 ^ (j + 1)) (2 ^ (j + 1)) = 0 := by
        intro i hi
        simpa using (hall j (by omega) i hi).1
      have hzero := xorRange_eq_zero_of_le (j := j) (l := l - 1) (by omega) (by omega) hj' i
      rw [show spec.k - 1 - (l - 1) = spec.k - l by omega, show l - 1 + 1 = l by omega] at hzero
      exact hzero hi
    refine ⟨hcollide, ?_, ?_⟩
    · intro l hpos hl i hi
      have hjoin := (hall (l - 1) (by omega) i (by rwa [show spec.k - 1 - (l - 1) = spec.k - l by omega])).2
      simpa [show l - 1 + 1 = l by omega] using hjoin
    · intro j hj
      rcases Nat.lt_succ_iff_lt_or_eq.mp hj with hj | rfl
      · have hk : 1 ≤ spec.k := by cases spec <;> decide
        simpa using hcollide spec.k hk le_rfl 0 (Nat.two_pow_pos _) j hj
      · exact hroot
  · rintro ⟨hcollide, hordered, hzero⟩
    refine ⟨fun l hl i hi => ⟨?_, ?_⟩, hzero spec.k (Nat.lt_succ_self _)⟩
    · have hblock := hcollide (l + 1) (by omega) hl i
        (by rwa [show spec.k - (l + 1) = spec.k - 1 - l by omega]) l (Nat.lt_succ_self l)
      simpa using hblock
    · have hblock := hordered (l + 1) (by omega) hl i
        (by rwa [show spec.k - (l + 1) = spec.k - 1 - l by omega])
      simpa using hblock

/-- The verifier decides whether the decoded indices are a proof. -/
theorem verifySolution_iff (solution : List UInt8) :
    verifySolution rowFields spec header solution = true ↔
      IsProof spec (rowFields header) (decodeIndices spec solution) := by
  have hblocks := allBlocks_joins_iff spec (rowFields header)
    fun i => (decodeIndices spec solution).getD i 0
  rw [verifySolution, Bool.and_eq_true, distinct_iff (length_decodeIndices _),
    verifySubtree_any_iff]
  refine (and_congr_right' hblocks).trans ?_
  exact ⟨fun ⟨h₁, h₂, h₃, h₄⟩ => ⟨h₁, h₂, h₃, h₄⟩, fun ⟨h₁, h₂, h₃, h₄⟩ => ⟨h₁, h₂, h₃, h₄⟩⟩

end Exact

/-- **Verification is exact.** For any hash, header and solution the verifier accepts exactly the
valid proofs, and solutions and lists of indices are read and written back unchanged. -/
theorem equihash_proof_exact (spec : Spec) (rowFields : List UInt8 → ℕ → ℕ → ℕ) :
    (∀ header solution, verifySolution rowFields spec header solution = true ↔
      IsProof spec (rowFields header) (decodeIndices spec solution)) ∧
    (∀ indices : List ℕ, indices.length = 2 ^ spec.k → (∀ index ∈ indices, index < 2 ^ 25) →
      (encodeIndices spec indices).length = spec.solutionLength ∧
        decodeIndices spec (encodeIndices spec indices) = indices) ∧
    ∀ solution : List UInt8, solution.length = spec.solutionLength →
      (decodeIndices spec solution).length = 2 ^ spec.k ∧
        (∀ index ∈ decodeIndices spec solution, index < 2 ^ 25) ∧
        encodeIndices spec (decodeIndices spec solution) = solution := by
  have hbits := spec.indexBits_eq
  refine ⟨fun header solution => verifySolution_iff solution, fun indices hlen hlt => ?_,
    fun solution hlen => ⟨length_decodeIndices solution, fun index hindex => ?_, encode_decode hlen⟩⟩
  · exact ⟨length_encodeIndices indices, decode_encode hlen (by rwa [hbits])⟩
  · obtain ⟨i, -, rfl⟩ := List.mem_map.mp hindex
    exact hbits ▸ decodeIndex_lt solution i

end MoMiner.Equihash
