import Mathlib.Data.List.Nodup
import MoMiner.Equihash.Records

/-!
# Recovery of a solution from its provenance

A root record refers to two records of the last arena, these to records of the arena before, down to
level-zero records with their leaves. The recovery walks these references and checks what it reads:
nothing is assumed of the arenas but that level zero holds the rows of its leaves.

`Subtree` is what the recovery of a record establishes. Main result: `recovery_sound`.
-/

namespace MoMiner.Equihash

open MoMiner.PackedWords

/-! ## The recovery -/

/-- An arena: a pointer, that may be null, and a capacity. -/
structure Arena where
  records : Option (ℕ → Words)
  capacity : ℕ

/-- The record at a reference, if it is within the arena. -/
def Arena.get (arena : Arena) (ref : ℕ) : Option Words :=
  arena.records.bind fun records => if arena.capacity ≤ ref then none else some (records ref)

/-- The arenas of level zero and of the rounds one to four. -/
structure ProvenanceView where
  level0 : Arena
  round1 : Arena
  round2 : Arena
  round3 : Arena
  round4 : Arena

def ProvenanceView.arena (view : ProvenanceView) : ℕ → Option Arena
  | 0 => some view.level0
  | 1 => some view.round1
  | 2 => some view.round2
  | 3 => some view.round3
  | 4 => some view.round4
  | _ => none

/-- The fields that are left after a round. -/
def fieldsAfter (round : ℕ) : ℕ := Spec.zhash144_5.rounds - round

def loadField (round : ℕ) (record : Words) (field : ℕ) : ℕ :=
  if round = 0 then loadLevel0Field .zhash144_5 record field
  else loadCollisionField .zhash144_5 (fieldsAfter round) record field

def loadNodeField (view : ProvenanceView) (round ref field : ℕ) : Option ℕ := do
  let arena ← view.arena round
  let record ← arena.get ref
  if fieldsAfter round ≤ field then none else some (loadField round record field)

def leafSetsDisjoint (left right : List ℕ) : Bool :=
  left.all fun l => right.all fun r => l ≠ r

def leafSetAppend (left right : List ℕ) : Option (List ℕ) :=
  if Spec.zhash144_5.proofIndices < left.length + right.length ∨
      leafSetsDisjoint left right = false then none
  else some (left ++ right)

/-- Recover the leaves below a record whose parents are of a round. -/
def recoverCollisionRecord (view : ProvenanceView) (recoverNode : ℕ → Option (List ℕ))
    (fieldCount : ℕ) (record : Words) (parentRound : ℕ) : Option (List ℕ) := do
  let leftRef := loadCollisionLeft .zhash144_5 fieldCount record
  let rightRef := loadCollisionRight .zhash144_5 fieldCount record
  if leftRef = rightRef then none else
  let left ← recoverNode leftRef
  let right ← recoverNode rightRef
  let leftField ← loadNodeField view parentRound leftRef 0
  let rightField ← loadNodeField view parentRound rightRef 0
  if leftField ≠ rightField then none else
  if (List.range fieldCount).all (fun field =>
      match loadNodeField view parentRound leftRef (field + 1),
        loadNodeField view parentRound rightRef (field + 1) with
      | some leftField, some rightField =>
        loadCollisionField .zhash144_5 fieldCount record field = leftField ^^^ rightField
      | _, _ => false) = false then none else
  if left.length = 0 ∨ right.length = 0 ∨ right.getD 0 0 ≤ left.getD 0 0 then none else
  leafSetAppend left right

def recoverNode (view : ProvenanceView) : ℕ → ℕ → Option (List ℕ)
  | 0, ref => do
    let record ← view.level0.get ref
    some [loadLevel0Leaf .zhash144_5 record]
  | round + 1, ref => do
    let arena ← view.arena (round + 1)
    let record ← arena.get ref
    recoverCollisionRecord view (recoverNode view round) (fieldsAfter (round + 1)) record round

def isZeroRoot (root : Words) : Bool := loadCollisionField .zhash144_5 1 root 0 = 0

def recoverRoot (view : ProvenanceView) (root : Words) : Option (List ℕ) := do
  if isZeroRoot root = false then none else
  let recovered ← recoverCollisionRecord view (recoverNode view 4) 1 root 4
  if recovered.length ≠ Spec.zhash144_5.proofIndices then none else some recovered

/-- The leaves and the encoded solution. -/
def recoverSolution (view : ProvenanceView) (root : Words) : Option (List ℕ × List UInt8) := do
  let leaves ← recoverRoot view root
  some (leaves, encodeIndices .zhash144_5 leaves)

/-! ## What one record establishes -/

section Sound

variable {view : ProvenanceView} {row : ℕ → ℕ → ℕ} {round fieldCount parentRound : ℕ}

theorem leafSetAppend_eq_some {left right leaves : List ℕ}
    (h : leafSetAppend left right = some leaves) :
    leaves = left ++ right ∧ List.Disjoint left right := by
  rw [leafSetAppend] at h
  split_ifs at h with hbad
  refine ⟨(Option.some.inj h).symm, fun leaf hl hr => ?_⟩
  rw [not_or, Bool.not_eq_false, leafSetsDisjoint, List.all_eq_true] at hbad
  have hne := List.all_eq_true.mp (hbad.2 leaf hl) leaf hr
  exact of_decide_eq_true hne rfl

/-- The checks that a recovered record has passed. -/
structure Checked (view : ProvenanceView) (recoverNode : ℕ → Option (List ℕ)) (fieldCount : ℕ)
    (record : Words) (parentRound : ℕ) (leaves left right : List ℕ) : Prop where
  parents_ne : loadCollisionLeft .zhash144_5 fieldCount record ≠
    loadCollisionRight .zhash144_5 fieldCount record
  left_eq : recoverNode (loadCollisionLeft .zhash144_5 fieldCount record) = some left
  right_eq : recoverNode (loadCollisionRight .zhash144_5 fieldCount record) = some right
  collide : ∃ field,
    loadNodeField view parentRound (loadCollisionLeft .zhash144_5 fieldCount record) 0 = some field ∧
    loadNodeField view parentRound (loadCollisionRight .zhash144_5 fieldCount record) 0 = some field
  fields : ∀ field < fieldCount, ∃ leftField rightField,
    loadNodeField view parentRound (loadCollisionLeft .zhash144_5 fieldCount record) (field + 1) =
      some leftField ∧
    loadNodeField view parentRound (loadCollisionRight .zhash144_5 fieldCount record) (field + 1) =
      some rightField ∧
    loadCollisionField .zhash144_5 fieldCount record field = leftField ^^^ rightField
  ordered : left.getD 0 0 < right.getD 0 0
  append : leaves = left ++ right
  disjoint : List.Disjoint left right

theorem recoverCollisionRecord_eq_some {node : ℕ → Option (List ℕ)} {record : Words}
    {leaves : List ℕ}
    (h : recoverCollisionRecord view node fieldCount record parentRound = some leaves) :
    ∃ left right, Checked view node fieldCount record parentRound leaves left right := by
  simp only [recoverCollisionRecord, Option.bind_eq_bind, Option.bind_eq_some_iff,
    Option.ite_none_left_eq_some] at h
  obtain ⟨hparents, left, hleft, right, hright, leftField, hleftField, rightField, hrightField,
    hcollide, hfields, hordered, h⟩ := h
  obtain ⟨happend, hdisjoint⟩ := leafSetAppend_eq_some h
  refine ⟨left, right, hparents, hleft, hright, ⟨leftField, hleftField, ?_⟩, ?_, ?_, happend,
    hdisjoint⟩
  · rw [hrightField, not_not.mp hcollide]
  · intro field hfield
    rw [Bool.not_eq_false, List.all_eq_true] at hfields
    have hcheck := hfields field (List.mem_range.mpr hfield)
    split at hcheck
    · exact ⟨_, _, ‹_›, ‹_›, of_decide_eq_true hcheck⟩
    · cases hcheck
  · rw [not_or, not_or] at hordered
    exact Nat.lt_of_not_le hordered.2.2

/-! ## What a subtree establishes -/

/-- The leaf of a tree with its row. -/
def leafAt (row : ℕ → ℕ → ℕ) (leaves : List ℕ) (t : ℕ) : Node :=
  ⟨leaves.getD t 0, row (leaves.getD t 0)⟩

/-- The leaves below a record make a tree that the verifier accepts, with the record's fields at its
root. -/
structure Subtree (row : ℕ → ℕ → ℕ) (round : ℕ) (fields : ℕ → ℕ) (leaves : List ℕ) : Prop where
  length : leaves.length = 2 ^ round
  distinct : leaves.Nodup
  lt : ∀ leaf ∈ leaves, leaf < 2 ^ 25
  root : ∃ node, verifySubtree .zhash144_5 (leafAt row leaves) 0 round = some node ∧
    node.firstIndex = leaves.getD 0 0 ∧ ∀ field < fieldsAfter round, node.fields field = fields field

theorem Subtree.merge {left right : List ℕ} {leftFields rightFields fields : ℕ → ℕ}
    (hl : Subtree row round leftFields left) (hr : Subtree row round rightFields right)
    (hround : round < 5) (hcollide : leftFields 0 = rightFields 0)
    (hfields : ∀ field < fieldsAfter (round + 1),
      fields field = leftFields (field + 1) ^^^ rightFields (field + 1))
    (hordered : left.getD 0 0 < right.getD 0 0) (hdisjoint : List.Disjoint left right) :
    Subtree row (round + 1) fields (left ++ right) := by
  obtain ⟨leftNode, hleftTree, hleftFirst, hleftFields⟩ := hl.root
  obtain ⟨rightNode, hrightTree, hrightFirst, hrightFields⟩ := hr.root
  have hpow : 2 ^ (round + 1) = 2 ^ round + 2 ^ round := by rw [pow_succ, Nat.mul_two]
  have hpos := Nat.two_pow_pos round
  have hafter : fieldsAfter (round + 1) + 1 = fieldsAfter round ∧ fieldsAfter round ≤ 6 := by
    have : Spec.zhash144_5.rounds = 6 := rfl
    unfold fieldsAfter
    omega
  refine ⟨?_, ?_, ?_, mergeOrdered .zhash144_5 leftNode rightNode, ?_, ?_, ?_⟩
  · rw [List.length_append, hl.length, hr.length, hpow]
  · exact List.nodup_append'.mpr ⟨hl.distinct, hr.distinct, hdisjoint⟩
  · intro leaf hleaf
    exact (List.mem_append.mp hleaf).elim (hl.lt leaf) (hr.lt leaf)
  · have hleft : verifySubtree .zhash144_5 (leafAt row (left ++ right)) 0 round = some leftNode := by
      rw [← hleftTree]
      refine verifySubtree_congr 0 0 fun t ht => ?_
      rw [leafAt, List.getD_append _ _ _ _ (by rw [hl.length]; omega)]
      rfl
    have hright : verifySubtree .zhash144_5 (leafAt row (left ++ right)) (0 + 2 ^ round) round =
        some rightNode := by
      rw [← hrightTree]
      refine verifySubtree_congr _ 0 fun t ht => ?_
      rw [leafAt, List.getD_append_right _ _ _ _ (by rw [hl.length]; omega), hl.length,
        Nat.zero_add, Nat.add_sub_cancel_left, Nat.zero_add]
      rfl
    rw [verifySubtree, hleft, hright]
    have hok : ¬ (leftNode.fields 0 ≠ rightNode.fields 0 ∨
        rightNode.firstIndex ≤ leftNode.firstIndex) := by
      rw [hleftFields 0 (by omega), hrightFields 0 (by omega), hleftFirst, hrightFirst, hcollide]
      omega
    exact if_neg hok
  · rw [List.getD_append _ _ _ _ (by rw [hl.length]; omega)]
    exact hleftFirst
  · intro field hfield
    have hrounds : Spec.zhash144_5.rounds = 6 := rfl
    rw [mergeOrdered_fields, if_pos (by omega), hleftFields _ (by omega),
      hrightFields _ (by omega), hfields field hfield]

/-- The level-zero arena holds the rows of its leaves. -/
def HoldsRows (view : ProvenanceView) (row : ℕ → ℕ → ℕ) : Prop :=
  ∀ ref record, view.level0.get ref = some record → ∀ field < Spec.zhash144_5.rounds,
    loadLevel0Field .zhash144_5 record field = row (loadLevel0Leaf .zhash144_5 record) field

/-- The fields at a reference. -/
def fieldsAt (view : ProvenanceView) (round ref : ℕ) : ℕ → ℕ := fun field =>
  (loadNodeField view round ref field).getD 0

/-- **One record.** If the recovery of parents is sound, so is that of a record. -/
theorem subtree_of_record {node : ℕ → Option (List ℕ)} {record : Words} {leaves : List ℕ}
    (hround : parentRound < 5)
    (hnode : ∀ ref leaves, node ref = some leaves →
      Subtree row parentRound (fieldsAt view parentRound ref) leaves)
    (h : recoverCollisionRecord view node (fieldsAfter (parentRound + 1)) record parentRound =
      some leaves) :
    Subtree row (parentRound + 1)
      (loadCollisionField .zhash144_5 (fieldsAfter (parentRound + 1)) record) leaves := by
  obtain ⟨left, right, hchecked⟩ := recoverCollisionRecord_eq_some h
  rw [hchecked.append]
  refine (hnode _ _ hchecked.left_eq).merge (hnode _ _ hchecked.right_eq) hround ?_ ?_
    hchecked.ordered hchecked.disjoint
  · obtain ⟨field, hleft, hright⟩ := hchecked.collide
    rw [fieldsAt, fieldsAt, hleft, hright]
  · intro field hfield
    obtain ⟨leftField, rightField, hleft, hright, heq⟩ := hchecked.fields field hfield
    rw [fieldsAt, fieldsAt, hleft, hright, heq]
    rfl

/-- **Every node.** What is recovered at a reference is a tree with the fields stored there. -/
theorem subtree_of_node (hrows : HoldsRows view row) {ref : ℕ} {leaves : List ℕ}
    (h : recoverNode view round ref = some leaves) :
    Subtree row round (fieldsAt view round ref) leaves := by
  induction round generalizing ref leaves with
  | zero =>
    simp only [recoverNode, Option.bind_eq_bind, Option.bind_eq_some_iff] at h
    obtain ⟨record, hrecord, h⟩ := h
    obtain rfl := Option.some.inj h
    refine ⟨rfl, List.nodup_singleton _, fun leaf hleaf => ?_, _, rfl, rfl, fun field hfield => ?_⟩
    · rw [List.mem_singleton.mp hleaf]
      exact loadLevel0Leaf_lt _ _
    · have hfield' : field < Spec.zhash144_5.rounds := hfield
      have hload : loadNodeField view 0 ref field =
          some (loadLevel0Field .zhash144_5 record field) := by
        simp [loadNodeField, ProvenanceView.arena, hrecord, loadField, Nat.not_le.mpr hfield]
      rw [fieldsAt, hload, Option.getD_some, hrows ref record hrecord field hfield']
      rfl
  | succ round ih =>
    simp only [recoverNode, Option.bind_eq_bind, Option.bind_eq_some_iff] at h
    obtain ⟨arena, harena, record, hrecord, h⟩ := h
    have hround : round < 5 := by
      by_contra hge
      obtain ⟨n, rfl⟩ := Nat.exists_eq_add_of_le (Nat.not_lt.mp hge)
      rw [show 5 + n + 1 = n + 6 by omega] at harena
      cases harena
    have htree := subtree_of_record hround (fun ref leaves => ih) h
    refine ⟨htree.length, htree.distinct, htree.lt, ?_⟩
    obtain ⟨node, hnode, hfirst, hfields⟩ := htree.root
    refine ⟨node, hnode, hfirst, fun field hfield => ?_⟩
    have hload : loadNodeField view (round + 1) ref field =
        some (loadCollisionField .zhash144_5 (fieldsAfter (round + 1)) record field) := by
      simp [loadNodeField, harena, hrecord, loadField, Nat.not_le.mpr hfield]
    rw [fieldsAt, hload, Option.getD_some, hfields field hfield]

end Sound

/-! ## Records on the way -/

/-- A record that the recovery of a root meets, with its round. -/
inductive Reached (view : ProvenanceView) (root : Words) : ℕ → Words → Prop
  | root : Reached view root 5 root
  | left {round : ℕ} {record parent : Words} {arena : Arena} :
    Reached view root (round + 1) record → view.arena round = some arena →
    arena.get (loadCollisionLeft .zhash144_5 (fieldsAfter (round + 1)) record) = some parent →
    Reached view root round parent
  | right {round : ℕ} {record parent : Words} {arena : Arena} :
    Reached view root (round + 1) record → view.arena round = some arena →
    arena.get (loadCollisionRight .zhash144_5 (fieldsAfter (round + 1)) record) = some parent →
    Reached view root round parent

/-- A record with a parent outside its arena, equal parents or parents with a common leaf. -/
def Malformed (view : ProvenanceView) (parentRound : ℕ) (record : Words) : Prop :=
  let leftRef := loadCollisionLeft .zhash144_5 (fieldsAfter (parentRound + 1)) record
  let rightRef := loadCollisionRight .zhash144_5 (fieldsAfter (parentRound + 1)) record
  (∀ arena, view.arena parentRound = some arena → arena.get leftRef = none) ∨
  (∀ arena, view.arena parentRound = some arena → arena.get rightRef = none) ∨
  leftRef = rightRef ∨
  ∃ left right leaf, recoverNode view parentRound leftRef = some left ∧
    recoverNode view parentRound rightRef = some right ∧ leaf ∈ left ∧ leaf ∈ right

section Reached

variable {view : ProvenanceView} {root record : Words} {round ref : ℕ}

theorem exists_record_of_recoverNode {leaves : List ℕ}
    (h : recoverNode view round ref = some leaves) :
    ∃ arena record, view.arena round = some arena ∧ arena.get ref = some record := by
  cases round with
  | zero =>
    simp only [recoverNode, Option.bind_eq_bind, Option.bind_eq_some_iff] at h
    obtain ⟨record, hrecord, -⟩ := h
    exact ⟨view.level0, record, rfl, hrecord⟩
  | succ round =>
    simp only [recoverNode, Option.bind_eq_bind, Option.bind_eq_some_iff] at h
    obtain ⟨arena, harena, record, hrecord, -⟩ := h
    exact ⟨arena, record, harena, hrecord⟩

/-- Where a root is recovered, so is every record on the way. -/
theorem recovers_of_reached {leaves : List ℕ}
    (hroot : recoverCollisionRecord view (recoverNode view 4) 1 root 4 = some leaves)
    (h : Reached view root (round + 1) record) :
    ∃ leaves, recoverCollisionRecord view (recoverNode view round) (fieldsAfter (round + 1)) record
      round = some leaves := by
  generalize hn : round + 1 = n at h
  induction h generalizing round with
  | root =>
    obtain rfl : round = 4 := by omega
    exact ⟨leaves, hroot⟩
  | left _ harena hget ih =>
    subst hn
    obtain ⟨leaves, hleaves⟩ := ih rfl
    obtain ⟨left, right, hchecked⟩ := recoverCollisionRecord_eq_some hleaves
    have hleft := hchecked.left_eq
    simp only [recoverNode, harena, hget, Option.bind_eq_bind, Option.bind_some] at hleft
    exact ⟨left, hleft⟩
  | right _ harena hget ih =>
    subst hn
    obtain ⟨leaves, hleaves⟩ := ih rfl
    obtain ⟨left, right, hchecked⟩ := recoverCollisionRecord_eq_some hleaves
    have hright := hchecked.right_eq
    simp only [recoverNode, harena, hget, Option.bind_eq_bind, Option.bind_some] at hright
    exact ⟨right, hright⟩

theorem not_malformed_of_recovers {leaves : List ℕ}
    (h : recoverCollisionRecord view (recoverNode view round) (fieldsAfter (round + 1)) record
      round = some leaves) : ¬ Malformed view round record := by
  obtain ⟨left, right, hchecked⟩ := recoverCollisionRecord_eq_some h
  obtain ⟨leftArena, leftRecord, hleftArena, hleftGet⟩ :=
    exists_record_of_recoverNode hchecked.left_eq
  obtain ⟨rightArena, rightRecord, hrightArena, hrightGet⟩ :=
    exists_record_of_recoverNode hchecked.right_eq
  rintro (hout | hout | heq | ⟨left', right', leaf, hleft, hright, hl, hr⟩)
  · rw [hout leftArena hleftArena] at hleftGet
    cases hleftGet
  · rw [hout rightArena hrightArena] at hrightGet
    cases hrightGet
  · exact hchecked.parents_ne heq
  · rw [hchecked.left_eq] at hleft
    rw [hchecked.right_eq] at hright
    cases hleft
    cases hright
    exact hchecked.disjoint hl hr

end Reached

/-! ## Soundness -/

theorem recoverSolution_eq_some {view : ProvenanceView} {root : Words} {leaves : List ℕ}
    {solution : List UInt8} (h : recoverSolution view root = some (leaves, solution)) :
    loadCollisionField .zhash144_5 1 root 0 = 0 ∧
      recoverCollisionRecord view (recoverNode view 4) 1 root 4 = some leaves ∧
      solution = encodeIndices .zhash144_5 leaves := by
  simp only [recoverSolution, recoverRoot, Option.bind_eq_bind, Option.bind_eq_some_iff,
    Option.ite_none_left_eq_some] at h
  obtain ⟨recovered, ⟨hzero, leaves', hleaves, -, heq⟩, hsolution⟩ := h
  cases heq
  cases hsolution
  rw [Bool.not_eq_false, isZeroRoot, decide_eq_true_iff] at hzero
  exact ⟨hzero, hleaves, rfl⟩

/-- **Recovery is sound.** Whatever the arenas of the rounds and the root record hold: if level zero
holds the rows of its leaves, a recovered solution is a valid proof with the recovered leaves; and
there is none if a record on the way has a parent outside its arena, equal parents or parents with a
common leaf. -/
theorem recovery_sound (rowFields : List UInt8 → ℕ → ℕ → ℕ) (header : List UInt8)
    (view : ProvenanceView) (root : Words) (hrows : HoldsRows view (rowFields header)) :
    (∀ leaves solution, recoverSolution view root = some (leaves, solution) →
      verifySolution rowFields .zhash144_5 header solution = true ∧
        decodeIndices .zhash144_5 solution = leaves) ∧
    ∀ parentRound record, Reached view root (parentRound + 1) record →
      Malformed view parentRound record → recoverSolution view root = none := by
  constructor
  · intro leaves solution h
    obtain ⟨hzero, hleaves, hsolution⟩ := recoverSolution_eq_some h
    rw [hsolution]
    have htree : Subtree (rowFields header) 5 (loadCollisionField .zhash144_5 1 root) leaves :=
      subtree_of_record (by decide) (fun ref leaves => subtree_of_node hrows) hleaves
    have hdecode : decodeIndices .zhash144_5 (encodeIndices .zhash144_5 leaves) = leaves := by
      refine decode_encode htree.length ?_
      rw [Spec.indexBits_eq]
      exact htree.lt
    refine ⟨?_, hdecode⟩
    obtain ⟨node, hnode, -, hfields⟩ := htree.root
    rw [verifySolution, hdecode, Bool.and_eq_true, distinct_iff htree.length]
    refine ⟨htree.distinct, ?_⟩
    have hroot : verifySubtree .zhash144_5 (fun i => rowFromIndex rowFields header
        (leaves.getD i 0)) 0 Spec.zhash144_5.k = some node := hnode
    rw [hroot, Option.any_some, hfields 0 (by decide), hzero]
    rfl
  · intro parentRound record hreached hmalformed
    cases hsolution : recoverSolution view root with
    | none => rfl
    | some result =>
      obtain ⟨-, hroot, -⟩ := recoverSolution_eq_some hsolution
      obtain ⟨leaves, hleaves⟩ := recovers_of_reached hroot hreached
      exact absurd hmalformed (not_malformed_of_recovers hleaves)

/-- A complete tree over rows of zeros: record `i` of a round has the parents `2 i` and `2 i + 1`. -/
def zeroTree : ProvenanceView where
  level0 := ⟨some fun ref => packedStore (fun _ => 0) 6 144 25 ref, 32⟩
  round1 := ⟨some fun ref => storeCollision .zhash144_5 5 (fun _ => 0) (2 * ref) (2 * ref + 1), 16⟩
  round2 := ⟨some fun ref => storeCollision .zhash144_5 4 (fun _ => 0) (2 * ref) (2 * ref + 1), 8⟩
  round3 := ⟨some fun ref => storeCollision .zhash144_5 3 (fun _ => 0) (2 * ref) (2 * ref + 1), 4⟩
  round4 := ⟨some fun ref => storeCollision .zhash144_5 2 (fun _ => 0) (2 * ref) (2 * ref + 1), 2⟩

/-- The solution of that tree is recovered and accepted. -/
theorem recovery_sound_zeroTree :
    verifySolution (fun _ _ _ => 0) .zhash144_5 []
        (encodeIndices .zhash144_5 (List.range 32)) = true ∧
      decodeIndices .zhash144_5 (encodeIndices .zhash144_5 (List.range 32)) = List.range 32 := by
  have hrows : HoldsRows zeroTree fun _ _ => 0 := by
    intro ref record hrecord field hfield
    have hrounds : Spec.zhash144_5.rounds = 6 := rfl
    rw [Arena.get, zeroTree] at hrecord
    obtain ⟨-, hrecord⟩ := Option.ite_none_left_eq_some.mp hrecord
    obtain rfl := Option.some.inj hrecord
    have hwords : Spec.zhash144_5.level0Words = 6 := rfl
    rw [loadLevel0Field, Spec.collisionBits_eq, hwords, packedLoad_packedStore_of_disjoint
      (by decide) (by decide) (by decide) (by omega) (.inl (by omega))]
    refine Nat.eq_of_testBit_eq fun j => ?_
    rw [testBit_packedLoad (by decide) (by omega)]
    simp [bit]
  exact (recovery_sound (fun _ _ _ => 0) [] zeroTree
    (storeCollision .zhash144_5 1 (fun _ => 0) 0 1) hrows).1 _ _ (by decide +kernel)

end MoMiner.Equihash
