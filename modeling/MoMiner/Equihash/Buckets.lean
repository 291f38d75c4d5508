import Mathlib.Tactic.IntervalCases
import MoMiner.Equihash.Records
import MoMiner.Lib.PackedFields

/-!
# Bucket records

The records of the solvers' bucket arenas. A record keeps the low part of its first field only, the
rest is its bucket. A collision record refers to its parents by their bucket and two slots, and
some layouts leave out high bits of the last field, as the proof is hashed again in the end.

Main results: `loadBucketLevel0Field_of_kept`, `loadBucketCollisionField_of_kept` and
`loadBucketCollisionParent_store`, which say what is read back, and `storeBucketCollision_eq`, that
a layout stored by shifts of whole words gets the same record.
-/

namespace MoMiner.Equihash

open MoMiner.PackedWords

/-- The builds that choose a layout of their own. -/
inductive Backend
  | hip
  | intelLateBuckets
  | portable
  deriving DecidableEq, Repr

/-- How often a capacity is halved until it is zero. -/
def shiftsToZero : ℕ → ℕ → ℕ
  | 0, _ => 0
  | fuel + 1, capacity => if capacity = 0 then 0 else shiftsToZero fuel (capacity / 2) + 1

def bitsForCapacity (capacity : ℕ) : ℕ := shiftsToZero 32 (capacity - 1)

theorem shiftsToZero_le (fuel capacity : ℕ) : shiftsToZero fuel capacity ≤ fuel := by
  induction fuel generalizing capacity with
  | zero => exact le_rfl
  | succ fuel ih =>
    rw [shiftsToZero]
    split
    · exact Nat.zero_le _
    · exact Nat.succ_le_succ (ih _)

theorem bitsForCapacity_le (capacity : ℕ) : bitsForCapacity capacity ≤ 32 :=
  shiftsToZero_le 32 _

theorem lt_two_pow_shiftsToZero {fuel capacity : ℕ} (h : capacity < 2 ^ fuel) :
    capacity < 2 ^ shiftsToZero fuel capacity := by
  induction fuel generalizing capacity with
  | zero => exact h
  | succ fuel ih =>
    rw [shiftsToZero]
    split
    · next hzero => simp [hzero]
    · have hhalf := ih (show capacity / 2 < 2 ^ fuel by rw [pow_succ] at h; omega)
      rw [pow_succ]
      omega

/-- A slot below the capacity fits in its bits. -/
theorem lt_two_pow_bitsForCapacity {slot capacity : ℕ} (hcapacity : capacity < 2 ^ 32)
    (hslot : slot < capacity) : slot < 2 ^ bitsForCapacity capacity := by
  have hlast := lt_two_pow_shiftsToZero (show capacity - 1 < 2 ^ 32 by omega)
  rw [bitsForCapacity]
  omega

/-! ## Level zero -/

/-- A layout of `PackedBucketLevel0Record`. -/
structure BucketLevel0Record where
  backend : Backend
  spec : Spec
  localBits : ℕ
  localBits_le : localBits ≤ 24

namespace BucketLevel0Record

/-- Whether all fields are in the first 16 bytes, the last one without its high bits. -/
def compactSelectionHead (r : BucketLevel0Record) : Bool :=
  match r.backend with
  | .hip => r.spec.n == 144 && r.spec.k == 5 && r.localBits == 12
  | .intelLateBuckets => r.spec.n == 144 && r.spec.k == 5 && r.localBits == 11
  | .portable => false

def bitCount (r : BucketLevel0Record) : ℕ :=
  r.localBits + (r.spec.rounds - 1) * r.spec.collisionBits + r.spec.indexBits

def wordCount (r : BucketLevel0Record) : ℕ := (r.bitCount + 31) / 32

def finalFieldBit (r : BucketLevel0Record) : ℕ :=
  r.localBits + (r.spec.rounds - 2) * r.spec.collisionBits

def retainedFinalBits (r : BucketLevel0Record) : ℕ := 128 - r.finalFieldBit

/-- A field that goes without its high bits. -/
def Omits (r : BucketLevel0Record) (field : ℕ) : Prop :=
  r.compactSelectionHead = true ∧ field + 1 = r.spec.rounds

instance (r : BucketLevel0Record) (field : ℕ) : Decidable (r.Omits field) := by
  unfold Omits
  infer_instance

/-- The stores of `store_bucket_level0`. -/
def stores (r : BucketLevel0Record) (fields : ℕ → UInt32) (leaf : UInt32) : List Field :=
  if r.compactSelectionHead then
    ⟨0, r.localBits, fields 0⟩ ::
      (List.range' 1 (r.spec.rounds - 2)).map (fun i =>
        ⟨r.localBits + (i - 1) * r.spec.collisionBits, r.spec.collisionBits, fields i⟩) ++
      [⟨r.finalFieldBit, r.retainedFinalBits, fields (r.spec.rounds - 1)⟩,
        ⟨128, r.spec.indexBits, leaf⟩]
  else
    (List.range' 1 (r.spec.rounds - 1)).map (fun i =>
        ⟨(i - 1) * r.spec.collisionBits, r.spec.collisionBits, fields i⟩) ++
      [⟨(r.spec.rounds - 1) * r.spec.collisionBits, r.localBits, fields 0⟩,
        ⟨(r.spec.rounds - 1) * r.spec.collisionBits + r.localBits, r.spec.indexBits, leaf⟩]

end BucketLevel0Record

def storeBucketLevel0 (r : BucketLevel0Record) (record : Words) (fields : ℕ → UInt32)
    (leaf : UInt32) : Words :=
  packedStores r.wordCount (cleared r.wordCount record) (r.stores fields leaf)

def loadBucketLevel0Field (r : BucketLevel0Record) (record : Words) (bucket : UInt32)
    (field : ℕ) : UInt32 :=
  if r.compactSelectionHead then
    if field = 0 then
      bucket <<< UInt32.ofNat r.localBits ||| packedLoad32 record r.wordCount 0 r.localBits
    else
      packedLoad32 record r.wordCount (r.localBits + (field - 1) * r.spec.collisionBits)
        (if field + 1 = r.spec.rounds then 128 - r.finalFieldBit else r.spec.collisionBits)
  else if field = 0 then
    bucket <<< UInt32.ofNat r.localBits |||
      packedLoad32 record r.wordCount ((r.spec.rounds - 1) * r.spec.collisionBits) r.localBits
  else packedLoad32 record r.wordCount ((field - 1) * r.spec.collisionBits) r.spec.collisionBits

def loadBucketLevel0Leaf (r : BucketLevel0Record) (record : Words) : UInt32 :=
  if r.compactSelectionHead then packedLoad32 record r.wordCount 128 r.spec.indexBits
  else packedLoad32 record r.wordCount
    ((r.spec.rounds - 1) * r.spec.collisionBits + r.localBits) r.spec.indexBits

/-! ## Collisions -/

/-- A layout of `PackedBucketCollisionRecord`. -/
structure BucketCollisionRecord where
  backend : Backend
  spec : Spec
  fieldCount : ℕ
  localBits : ℕ
  parentBucketBits : ℕ
  parentSlots : ℕ
  fieldCount_pos : 0 < fieldCount
  localBits_le : localBits ≤ 24
  parentBucketBits_le : parentBucketBits ≤ 24
  parentSlots_lt : parentSlots < 2 ^ 32

namespace BucketCollisionRecord

def parentSlotBits (r : BucketCollisionRecord) : ℕ := bitsForCapacity r.parentSlots

def fullBitCount (r : BucketCollisionRecord) : ℕ :=
  r.localBits + (r.fieldCount - 1) * r.spec.collisionBits + r.parentBucketBits +
    2 * r.parentSlotBits

/-- Whether the last field goes without its high bits. -/
def compactTrailingField (r : BucketCollisionRecord) : Bool :=
  match r.backend with
  | .hip => r.spec.n == 144 && r.spec.k == 5 && r.fieldCount == 3 &&
      decide (96 ≤ r.fullBitCount) && decide (r.fullBitCount < 120)
  | _ => false

def trailingBitsOmitted (r : BucketCollisionRecord) : ℕ :=
  if r.compactTrailingField then r.fullBitCount - 96 else 0

/-- A field that goes without its high bits. -/
def Omits (r : BucketCollisionRecord) (field : ℕ) : Prop :=
  r.compactTrailingField = true ∧ field + 1 = r.fieldCount

instance (r : BucketCollisionRecord) (field : ℕ) : Decidable (r.Omits field) := by
  unfold Omits
  infer_instance

def bitCount (r : BucketCollisionRecord) : ℕ := r.fullBitCount - r.trailingBitsOmitted

def parentBit (r : BucketCollisionRecord) : ℕ :=
  r.localBits + (r.fieldCount - 1) * r.spec.collisionBits - r.trailingBitsOmitted

def wordCount (r : BucketCollisionRecord) : ℕ := (r.bitCount + 31) / 32

/-- The stores of `store_bucket_collision` without the splice. -/
def stores (r : BucketCollisionRecord) (fields : ℕ → UInt32)
    (parentBucket leftSlot rightSlot : UInt32) : List Field :=
  ⟨0, r.localBits, fields 0⟩ ::
    (if r.compactTrailingField then
      (List.range' 1 (r.fieldCount - 2)).map (fun i =>
          ⟨r.localBits + (i - 1) * r.spec.collisionBits, r.spec.collisionBits, fields i⟩) ++
        [⟨r.localBits + (r.fieldCount - 2) * r.spec.collisionBits,
          r.spec.collisionBits - r.trailingBitsOmitted, fields (r.fieldCount - 1)⟩]
    else
      (List.range' 1 (r.fieldCount - 1)).map (fun i =>
        ⟨r.localBits + (i - 1) * r.spec.collisionBits, r.spec.collisionBits, fields i⟩)) ++
    [⟨r.parentBit, r.parentBucketBits, parentBucket⟩,
      ⟨r.parentBit + r.parentBucketBits, r.parentSlotBits, leftSlot⟩,
      ⟨r.parentBit + r.parentBucketBits + r.parentSlotBits, r.parentSlotBits, rightSlot⟩]

end BucketCollisionRecord

/-- The field-by-field store. -/
def storeBucketCollisionFields (r : BucketCollisionRecord) (record : Words) (fields : ℕ → UInt32)
    (parentBucket leftSlot rightSlot : UInt32) : Words :=
  packedStores r.wordCount (cleared r.wordCount record)
    (r.stores fields parentBucket leftSlot rightSlot)

/-- The spliced store. -/
def storeBucketCollisionDirect (record : Words) (fields : ℕ → UInt32)
    (parentBucket leftSlot rightSlot : UInt32) : Words
  | 0 => (fields 0 &&& (0xfff : UInt32)) ||| (fields 1 <<< 12)
  | 1 => (fields 1 >>> 20) ||| (fields 2 <<< 4) ||| (fields 3 <<< 28)
  | 2 => (fields 3 >>> 4) ||| (fields 4 <<< 20)
  | 3 => (fields 4 >>> 12) ||| (parentBucket <<< 12) ||| (leftSlot <<< 24)
  | 4 => (leftSlot >>> 8) ||| (rightSlot <<< 6)
  | k => record k

/-- The layouts that are stored by the splice. -/
def BucketCollisionRecord.splices (r : BucketCollisionRecord) : Bool :=
  r.spec.collisionBits == 24 && r.fieldCount == 5 && r.localBits == 12 &&
    r.parentBucketBits == 12 && r.parentSlotBits == 14 && r.wordCount == 5

def storeBucketCollision (r : BucketCollisionRecord) (record : Words) (fields : ℕ → UInt32)
    (parentBucket leftSlot rightSlot : UInt32) : Words :=
  if r.splices then storeBucketCollisionDirect record fields parentBucket leftSlot rightSlot
  else storeBucketCollisionFields r record fields parentBucket leftSlot rightSlot

def loadBucketCollisionField (r : BucketCollisionRecord) (record : Words) (bucket : UInt32)
    (field : ℕ) : UInt32 :=
  if field = 0 then
    bucket <<< UInt32.ofNat r.localBits ||| packedLoad32 record r.wordCount 0 r.localBits
  else if r.Omits field then
    packedLoad32 record r.wordCount (r.localBits + (field - 1) * r.spec.collisionBits)
      (r.spec.collisionBits - r.trailingBitsOmitted)
  else packedLoad32 record r.wordCount (r.localBits + (field - 1) * r.spec.collisionBits)
    r.spec.collisionBits

def loadParentBucket (r : BucketCollisionRecord) (record : Words) : UInt32 :=
  packedLoad32 record r.wordCount r.parentBit r.parentBucketBits

def loadParentSlot (r : BucketCollisionRecord) (record : Words) (right : Bool) : UInt32 :=
  packedLoad32 record r.wordCount
    (r.parentBit + r.parentBucketBits + right.toNat * r.parentSlotBits) r.parentSlotBits

def loadBucketCollisionParent (r : BucketCollisionRecord) (record : Words) (right : Bool) :
    UInt32 :=
  loadParentBucket r record * UInt32.ofNat r.parentSlots + loadParentSlot r record right

/-- The records that a join writes. -/
inductive OutputRecord
  | packed (spec : Spec) (fieldCount : ℕ)
  | bucket (r : BucketCollisionRecord)

def OutputRecord.fieldCount : OutputRecord → ℕ
  | .packed _ fieldCount => fieldCount
  | .bucket r => r.fieldCount

def OutputRecord.wordCount : OutputRecord → ℕ
  | .packed spec fieldCount => spec.collisionWords fieldCount
  | .bucket r => r.wordCount

/-! ## Arenas -/

/-- How the rows of one round are spread over buckets. -/
structure BucketLayout where
  bucketBits : ℕ
  slotCapacity : ℕ
  bucketBits_lt : bucketBits < 24
  slotCapacity_lt : slotCapacity < 2 ^ 32

namespace BucketLayout

def localBits (layout : BucketLayout) : ℕ := 24 - layout.bucketBits

def level0Record (layout : BucketLayout) (backend : Backend) (spec : Spec) :
    BucketLevel0Record where
  backend
  spec
  localBits := layout.localBits
  localBits_le := Nat.sub_le _ _

/-- The record of a round whose parents are in another layout. -/
def collisionRecord (layout parent : BucketLayout) (backend : Backend) (spec : Spec)
    (remaining : ℕ) : BucketCollisionRecord where
  backend
  spec
  fieldCount := remaining + 1
  localBits := layout.localBits
  parentBucketBits := parent.bucketBits
  parentSlots := parent.slotCapacity
  fieldCount_pos := Nat.succ_pos remaining
  localBits_le := Nat.sub_le _ _
  parentBucketBits_le := parent.bucketBits_lt.le
  parentSlots_lt := parent.slotCapacity_lt

end BucketLayout

/-- The rounds of `ZHashArenaLayout`. -/
def zhashRounds (backend : Backend) (initial later : BucketLayout) : List OutputRecord :=
  [.bucket (initial.collisionRecord initial backend .zhash144_5 4),
    .bucket (later.collisionRecord initial backend .zhash144_5 3),
    .bucket (later.collisionRecord later backend .zhash144_5 2),
    if backend = .hip then .bucket (later.collisionRecord later backend .zhash144_5 1)
    else .packed .zhash144_5 2]

/-- The rounds of `StagedArenaLayout`. -/
def stagedRounds (backend : Backend)
    (level0 round1 round2 round3 round4 round5 round6 : BucketLayout) : List OutputRecord :=
  [.bucket (round1.collisionRecord level0 backend .equihash192_7 6),
    .bucket (round2.collisionRecord round1 backend .equihash192_7 5),
    .bucket (round3.collisionRecord round2 backend .equihash192_7 4),
    .bucket (round4.collisionRecord round3 backend .equihash192_7 3),
    .bucket (round5.collisionRecord round4 backend .equihash192_7 2),
    .bucket (round6.collisionRecord round5 backend .equihash192_7 1)]

example : let layout : BucketLayout := ⟨12, 8720, by decide, by decide⟩
    (layout.level0Record .hip .zhash144_5).wordCount = 5 ∧
      (zhashRounds .hip layout layout).map OutputRecord.wordCount = [5, 4, 3, 3] := by decide

/-! ## What is read back -/

theorem toNat_mod_of_lt {x : UInt32} {bits : ℕ} (h : x.toNat < 2 ^ bits) :
    UInt32.ofNat (x.toNat % 2 ^ bits) = x := by
  rw [Nat.mod_eq_of_lt h, UInt32.ofNat_toNat]

/-- The high part of a key and its low bits. -/
theorem splitKey (x : UInt32) {bits : ℕ} (hbits : bits ≤ 24) :
    x >>> UInt32.ofNat bits <<< UInt32.ofNat bits ||| UInt32.ofNat (x.toNat % 2 ^ bits) = x := by
  apply eq_of_testBit
  intro i hi
  have hshift := toNat_shift (show bits < 32 by omega)
  rw [UInt32.toNat_or, Nat.testBit_or, UInt32.toNat_shiftLeft, hshift, UInt32.toNat_shiftRight,
    hshift, UInt32.toNat_ofNat', Nat.testBit_mod_two_pow, Nat.testBit_mod_two_pow,
    Nat.testBit_mod_two_pow, Nat.testBit_shiftLeft, Nat.testBit_shiftRight, decide_eq_true hi]
  by_cases hlow : i < bits
  · simp [hlow, show ¬ bits ≤ i by omega]
  · simp [hlow, show bits ≤ i by omega]

theorem Spec.eq_zhash144_5 {spec : Spec} (h : spec.n = 144) : spec = .zhash144_5 := by
  cases spec with
  | zhash144_5 => rfl
  | equihash192_7 => cases h

theorem Spec.two_lt_rounds (spec : Spec) : 2 < spec.rounds := by cases spec <;> decide

section Level0

variable {r : BucketLevel0Record} {fields : ℕ → UInt32} {leaf : UInt32}

theorem BucketLevel0Record.compactSelectionHead_eq (h : r.compactSelectionHead = true) :
    r.spec = .zhash144_5 ∧ (r.localBits = 12 ∨ r.localBits = 11) := by
  rw [compactSelectionHead] at h
  split at h
  · simp only [Bool.and_eq_true, beq_iff_eq] at h
    exact ⟨Spec.eq_zhash144_5 h.1.1, .inl h.2⟩
  · simp only [Bool.and_eq_true, beq_iff_eq] at h
    exact ⟨Spec.eq_zhash144_5 h.1.1, .inr h.2⟩
  · exact absurd h Bool.false_ne_true

theorem BucketLevel0Record.stores_ordered :
    Ordered 0 (32 * r.wordCount) (r.stores fields leaf) := by
  have hlocal := r.localBits_le
  have hwords : r.localBits + (r.spec.rounds - 1) * 24 + 25 ≤ 32 * r.wordCount := by
    rw [wordCount, bitCount, r.spec.collisionBits_eq, r.spec.indexBits_eq]
    omega
  rw [stores, r.spec.collisionBits_eq, r.spec.indexBits_eq]
  split
  · next hcompact =>
    obtain ⟨hspec, hbits⟩ := compactSelectionHead_eq hcompact
    have hrounds : r.spec.rounds = 6 := by rw [hspec]; rfl
    have hfinal : r.finalFieldBit = r.localBits + 4 * 24 := by
      rw [finalFieldBit, r.spec.collisionBits_eq, hrounds]
    have hretained : r.retainedFinalBits = 32 - r.localBits := by
      rw [retainedFinalBits, hfinal]
      omega
    rw [hrounds] at hwords ⊢
    rw [hfinal, hretained, List.cons_append]
    refine .cons le_rfl (by dsimp only; omega) (by dsimp only; omega) ?_
    simp only [Nat.zero_add]
    refine .append (Nat.le_add_right _ _) (by omega) (.run fields r.localBits 4 (by decide)) ?_
    refine .cons le_rfl (by dsimp only; omega) (by dsimp only; omega) ?_
    exact .cons (by dsimp only; omega) (by dsimp only; omega) (by dsimp only; omega) .nil
  · have hrun := Ordered.run fields 0 (r.spec.rounds - 1) (show 24 ≤ 32 by decide)
    simp only [Nat.zero_add] at hrun
    refine .append (Nat.zero_le _) (by omega) hrun ?_
    refine .cons le_rfl (by dsimp only; omega) (by dsimp only; omega) ?_
    exact .cons le_rfl (by dsimp only; omega) (by dsimp only; omega) .nil

theorem packedLoad32_storeBucketLevel0 (record : Words) {p width : ℕ} {value : UInt32}
    (hmem : ⟨p, width, value⟩ ∈ r.stores fields leaf) :
    packedLoad32 (storeBucketLevel0 r record fields leaf) r.wordCount p width =
      UInt32.ofNat (value.toNat % 2 ^ width) :=
  packedLoad32_packedStores _ BucketLevel0Record.stores_ordered hmem

theorem loadBucketLevel0Field_zero (record : Words) :
    loadBucketLevel0Field r (storeBucketLevel0 r record fields leaf)
      (fields 0 >>> UInt32.ofNat r.localBits) 0 = fields 0 := by
  rw [loadBucketLevel0Field]
  split
  · next hcompact =>
    have hmem : ⟨0, r.localBits, fields 0⟩ ∈ r.stores fields leaf := by
      simp [BucketLevel0Record.stores, hcompact]
    rw [if_pos rfl, packedLoad32_storeBucketLevel0 record hmem]
    exact splitKey (fields 0) r.localBits_le
  · next hcompact =>
    have hmem : ⟨(r.spec.rounds - 1) * r.spec.collisionBits, r.localBits, fields 0⟩ ∈
        r.stores fields leaf := by
      simp [BucketLevel0Record.stores, hcompact]
    rw [if_pos rfl, packedLoad32_storeBucketLevel0 record hmem]
    exact splitKey (fields 0) r.localBits_le

theorem loadBucketLevel0Field_of_kept (record : Words) {i : ℕ} (hpos : i ≠ 0)
    (hi : i < r.spec.rounds) (hkept : ¬ r.Omits i) (bucket : UInt32)
    (hvalue : (fields i).toNat < 2 ^ 24) :
    loadBucketLevel0Field r (storeBucketLevel0 r record fields leaf) bucket i = fields i := by
  have hmod := toNat_mod_of_lt hvalue
  rw [← r.spec.collisionBits_eq] at hmod
  rw [loadBucketLevel0Field]
  by_cases hcompact : r.compactSelectionHead = true
  · have hlast : i + 1 ≠ r.spec.rounds := fun h => hkept ⟨hcompact, h⟩
    rw [if_pos hcompact, if_neg hpos, if_neg hlast, packedLoad32_storeBucketLevel0 record, hmod]
    rw [BucketLevel0Record.stores, if_pos hcompact]
    refine List.mem_append_left _ (List.mem_cons_of_mem _ (List.mem_map.mpr ⟨i, ?_, rfl⟩))
    exact List.mem_range'_1.mpr (by omega)
  · rw [if_neg hcompact, if_neg hpos, packedLoad32_storeBucketLevel0 record, hmod]
    rw [BucketLevel0Record.stores, if_neg hcompact]
    refine List.mem_append_left _ (List.mem_map.mpr ⟨i, ?_, rfl⟩)
    exact List.mem_range'_1.mpr (by omega)

theorem loadBucketLevel0Field_of_omits (record : Words) {i : ℕ} (homits : r.Omits i)
    (bucket : UInt32) :
    loadBucketLevel0Field r (storeBucketLevel0 r record fields leaf) bucket i =
      UInt32.ofNat ((fields i).toNat % 2 ^ r.retainedFinalBits) := by
  obtain ⟨hcompact, hlast⟩ := homits
  have hrounds := r.spec.two_lt_rounds
  have hplace : r.localBits + (i - 1) * r.spec.collisionBits = r.finalFieldBit := by
    rw [BucketLevel0Record.finalFieldBit, show i - 1 = r.spec.rounds - 2 by omega]
  have hmem : ⟨r.finalFieldBit, r.retainedFinalBits, fields i⟩ ∈ r.stores fields leaf := by
    simp [BucketLevel0Record.stores, hcompact, show r.spec.rounds - 1 = i by omega]
  rw [loadBucketLevel0Field, if_pos hcompact, if_neg (by omega), if_pos hlast, hplace]
  exact packedLoad32_storeBucketLevel0 record hmem

theorem loadBucketLevel0Leaf_store (record : Words) (hleaf : leaf.toNat < 2 ^ 25) :
    loadBucketLevel0Leaf r (storeBucketLevel0 r record fields leaf) = leaf := by
  have hmod := toNat_mod_of_lt hleaf
  rw [← r.spec.indexBits_eq] at hmod
  rw [loadBucketLevel0Leaf]
  by_cases hcompact : r.compactSelectionHead = true
  · rw [if_pos hcompact, packedLoad32_storeBucketLevel0 record, hmod]
    simp [BucketLevel0Record.stores, hcompact]
  · rw [if_neg hcompact, packedLoad32_storeBucketLevel0 record, hmod]
    simp [BucketLevel0Record.stores, hcompact]

end Level0

section Collisions

variable {r : BucketCollisionRecord} {fields : ℕ → UInt32}
variable {parentBucket leftSlot rightSlot : UInt32}

theorem BucketCollisionRecord.compactTrailingField_eq (h : r.compactTrailingField = true) :
    r.fieldCount = 3 ∧ 96 ≤ r.fullBitCount ∧ r.fullBitCount < 120 := by
  rw [compactTrailingField] at h
  split at h
  · simp only [Bool.and_eq_true, beq_iff_eq, decide_eq_true_eq] at h
    exact ⟨h.1.1.2, h.1.2, h.2⟩
  · exact absurd h Bool.false_ne_true

theorem BucketCollisionRecord.compactTrailingField_of_fieldCount (h : r.fieldCount ≠ 3) :
    r.compactTrailingField = false := by
  by_contra hcompact
  exact h (compactTrailingField_eq (Bool.not_eq_false _ ▸ hcompact)).1

theorem BucketCollisionRecord.parentBit_of_full (h : r.compactTrailingField = false) :
    r.parentBit = r.localBits + (r.fieldCount - 1) * r.spec.collisionBits := by
  rw [parentBit, trailingBitsOmitted, if_neg (by simp [h]), Nat.sub_zero]

/-- The references end within the words. -/
theorem BucketCollisionRecord.parentBit_le (r : BucketCollisionRecord) :
    r.parentBit + r.parentBucketBits + 2 * r.parentSlotBits ≤ 32 * r.wordCount := by
  have hfull : r.fullBitCount = r.localBits + (r.fieldCount - 1) * r.spec.collisionBits +
      r.parentBucketBits + 2 * r.parentSlotBits := rfl
  rw [parentBit, wordCount, bitCount, trailingBitsOmitted]
  split
  · next hcompact =>
    obtain ⟨hcount, hmin, hmax⟩ := compactTrailingField_eq hcompact
    rw [hcount, r.spec.collisionBits_eq] at hfull ⊢
    omega
  · omega

theorem BucketCollisionRecord.stores_ordered (r : BucketCollisionRecord) (fields : ℕ → UInt32)
    (parentBucket leftSlot rightSlot : UInt32) :
    Ordered 0 (32 * r.wordCount) (r.stores fields parentBucket leftSlot rightSlot) := by
  have hlocal := r.localBits_le
  have hbucket := r.parentBucketBits_le
  have hslots : r.parentSlotBits ≤ 32 := bitsForCapacity_le r.parentSlots
  have hfull : r.fullBitCount = r.localBits + (r.fieldCount - 1) * 24 + r.parentBucketBits +
      2 * r.parentSlotBits := by
    rw [fullBitCount, r.spec.collisionBits_eq]
  -- The fields end where the references start.
  have hrefs : ∀ {fieldStores}, Ordered 0 r.parentBit fieldStores →
      Ordered 0 (32 * r.wordCount) (fieldStores ++
        [⟨r.parentBit, r.parentBucketBits, parentBucket⟩,
          ⟨r.parentBit + r.parentBucketBits, r.parentSlotBits, leftSlot⟩,
          ⟨r.parentBit + r.parentBucketBits + r.parentSlotBits, r.parentSlotBits, rightSlot⟩]) := by
    intro fieldStores h
    have hend := r.parentBit_le
    refine .append (Nat.zero_le _) (by omega) h ?_
    refine .cons le_rfl (by dsimp only; omega) (by dsimp only; omega) ?_
    refine .cons le_rfl hslots (by dsimp only; omega) ?_
    exact .cons le_rfl hslots (by dsimp only; omega) .nil
  rw [stores]
  by_cases hcompact : r.compactTrailingField = true
  · obtain ⟨hcount, hmin, hmax⟩ := compactTrailingField_eq hcompact
    have homitted : r.trailingBitsOmitted = r.fullBitCount - 96 := if_pos hcompact
    have hparent : r.parentBit = r.localBits + 48 - (r.fullBitCount - 96) := by
      rw [parentBit, r.spec.collisionBits_eq, hcount, homitted]
    rw [if_pos hcompact, r.spec.collisionBits_eq, homitted, hcount]
    apply hrefs
    refine .cons le_rfl (by dsimp only; omega) (by dsimp only; omega) ?_
    simp only [Nat.zero_add]
    refine .append (Nat.le_add_right _ _) (by omega)
      (.run fields r.localBits 1 (show 24 ≤ 32 by decide)) ?_
    exact .cons le_rfl (by dsimp only; omega) (by dsimp only; omega) .nil
  · have hparent := parentBit_of_full (Bool.eq_false_of_not_eq_true hcompact)
    rw [r.spec.collisionBits_eq] at hparent
    rw [if_neg hcompact, r.spec.collisionBits_eq]
    apply hrefs
    refine .cons le_rfl (by dsimp only; omega) (by dsimp only; omega) ?_
    simp only [Nat.zero_add]
    rw [hparent]
    exact .run fields r.localBits (r.fieldCount - 1) (by decide)

theorem packedLoad32_storeBucketCollisionFields (record : Words) {p width : ℕ} {value : UInt32}
    (hmem : ⟨p, width, value⟩ ∈ r.stores fields parentBucket leftSlot rightSlot) :
    packedLoad32 (storeBucketCollisionFields r record fields parentBucket leftSlot rightSlot)
      r.wordCount p width = UInt32.ofNat (value.toNat % 2 ^ width) :=
  packedLoad32_packedStores _ (r.stores_ordered _ _ _ _) hmem

/-- The words of a record, from the parts of its fields. -/
theorem storeBucketCollisionFields_word (record : Words) (k : ℕ) :
    storeBucketCollisionFields r record fields parentBucket leftSlot rightSlot k =
      (r.stores fields parentBucket leftSlot rightSlot).foldl (fun word f =>
        word ||| part f.start (f.value &&& UInt32.ofNat (2 ^ f.width - 1)) k)
        (cleared r.wordCount record k) := by
  have hordered := r.stores_ordered fields parentBucket leftSlot rightSlot
  rw [storeBucketCollisionFields, packedStores_word hordered]
  intro f hf q _ hq
  exact bit_cleared (hq.trans_le (hordered.end_le f hf))

theorem loadBucketCollisionField_zero (record : Words) :
    loadBucketCollisionField r
      (storeBucketCollisionFields r record fields parentBucket leftSlot rightSlot)
      (fields 0 >>> UInt32.ofNat r.localBits) 0 = fields 0 := by
  have hmem : ⟨0, r.localBits, fields 0⟩ ∈ r.stores fields parentBucket leftSlot rightSlot := by
    simp [BucketCollisionRecord.stores]
  rw [loadBucketCollisionField, if_pos rfl, packedLoad32_storeBucketCollisionFields record hmem]
  exact splitKey (fields 0) r.localBits_le

theorem loadBucketCollisionField_of_kept (record : Words) {i : ℕ} (hpos : i ≠ 0)
    (hi : i < r.fieldCount) (hkept : ¬ r.Omits i) (bucket : UInt32)
    (hvalue : (fields i).toNat < 2 ^ 24) :
    loadBucketCollisionField r
      (storeBucketCollisionFields r record fields parentBucket leftSlot rightSlot) bucket i =
        fields i := by
  have hmod := toNat_mod_of_lt hvalue
  rw [← r.spec.collisionBits_eq] at hmod
  rw [loadBucketCollisionField, if_neg hpos, if_neg hkept,
    packedLoad32_storeBucketCollisionFields record, hmod]
  rw [BucketCollisionRecord.stores]
  refine List.mem_append_left _ (List.mem_cons_of_mem _ ?_)
  by_cases hcompact : r.compactTrailingField = true
  · have hlast : i + 1 ≠ r.fieldCount := fun h => hkept ⟨hcompact, h⟩
    rw [if_pos hcompact]
    refine List.mem_append_left _ (List.mem_map.mpr ⟨i, ?_, rfl⟩)
    exact List.mem_range'_1.mpr (by omega)
  · rw [if_neg hcompact]
    exact List.mem_map.mpr ⟨i, List.mem_range'_1.mpr (by omega), rfl⟩

theorem loadBucketCollisionField_of_omits (record : Words) {i : ℕ} (homits : r.Omits i)
    (bucket : UInt32) :
    loadBucketCollisionField r
      (storeBucketCollisionFields r record fields parentBucket leftSlot rightSlot) bucket i =
        UInt32.ofNat ((fields i).toNat % 2 ^ (r.spec.collisionBits - r.trailingBitsOmitted)) := by
  obtain ⟨hcompact, hlast⟩ := homits
  have hcount := (BucketCollisionRecord.compactTrailingField_eq hcompact).1
  have hmem : ⟨r.localBits + (i - 1) * r.spec.collisionBits,
      r.spec.collisionBits - r.trailingBitsOmitted, fields i⟩ ∈
        r.stores fields parentBucket leftSlot rightSlot := by
    simp [BucketCollisionRecord.stores, hcompact, show r.fieldCount - 1 = i by omega,
      show r.fieldCount - 2 = i - 1 by omega]
  rw [loadBucketCollisionField, if_neg (by omega), if_pos ⟨hcompact, hlast⟩]
  exact packedLoad32_storeBucketCollisionFields record hmem

theorem loadBucketCollisionParent_store (record : Words)
    (hbucket : parentBucket.toNat < 2 ^ r.parentBucketBits)
    (hleft : leftSlot.toNat < 2 ^ r.parentSlotBits)
    (hright : rightSlot.toNat < 2 ^ r.parentSlotBits) (right : Bool) :
    loadBucketCollisionParent r
      (storeBucketCollisionFields r record fields parentBucket leftSlot rightSlot) right =
        parentBucket * UInt32.ofNat r.parentSlots + if right then rightSlot else leftSlot := by
  have hmem : ⟨r.parentBit, r.parentBucketBits, parentBucket⟩ ∈
      r.stores fields parentBucket leftSlot rightSlot := by
    simp [BucketCollisionRecord.stores]
  have hslot : ⟨r.parentBit + r.parentBucketBits + right.toNat * r.parentSlotBits, r.parentSlotBits,
      if right then rightSlot else leftSlot⟩ ∈ r.stores fields parentBucket leftSlot rightSlot := by
    cases right <;> simp [BucketCollisionRecord.stores]
  rw [loadBucketCollisionParent, loadParentBucket, loadParentSlot,
    packedLoad32_storeBucketCollisionFields record hmem, toNat_mod_of_lt hbucket,
    packedLoad32_storeBucketCollisionFields record hslot]
  cases right with
  | false => exact congrArg _ (toNat_mod_of_lt hleft)
  | true => exact congrArg _ (toNat_mod_of_lt hright)

/-! ### The splice -/

theorem BucketCollisionRecord.stores_of_splices (h : r.splices = true) :
    r.stores fields parentBucket leftSlot rightSlot =
      [⟨0, 12, fields 0⟩, ⟨12, 24, fields 1⟩, ⟨36, 24, fields 2⟩, ⟨60, 24, fields 3⟩,
        ⟨84, 24, fields 4⟩, ⟨108, 12, parentBucket⟩, ⟨120, 14, leftSlot⟩,
        ⟨134, 14, rightSlot⟩] := by
  simp only [splices, Bool.and_eq_true, beq_iff_eq] at h
  obtain ⟨⟨⟨⟨⟨hbits, hcount⟩, hlocal⟩, hbucket⟩, hslots⟩, -⟩ := h
  have hcompact := compactTrailingField_of_fieldCount (show r.fieldCount ≠ 3 by omega)
  have homitted : r.trailingBitsOmitted = 0 := if_neg (by simp [hcompact])
  simp [stores, parentBit, hcompact, homitted, hbits, hcount, hlocal, hbucket, hslots,
    List.range'_succ]

/-- **The splice writes the same record.** -/
theorem storeBucketCollisionDirect_eq (hsplices : r.splices = true) (record : Words)
    (hfields : ∀ i < 5, (fields i).toNat < 2 ^ 24) (hbucket : parentBucket.toNat < 2 ^ 12)
    (hleft : leftSlot.toNat < 2 ^ 14) (hright : rightSlot.toNat < 2 ^ 14) :
    storeBucketCollisionDirect record fields parentBucket leftSlot rightSlot =
      storeBucketCollisionFields r record fields parentBucket leftSlot rightSlot := by
  have hwords : r.wordCount = 5 := by
    simp only [BucketCollisionRecord.splices, Bool.and_eq_true, beq_iff_eq] at hsplices
    exact hsplices.2
  funext k
  rw [storeBucketCollisionFields_word, BucketCollisionRecord.stores_of_splices hsplices, hwords]
  have hmask := fun i hi => and_mask_of_lt (by decide) (hfields i hi)
  have hlow : (fields 0 &&& UInt32.ofNat (2 ^ 12 - 1)).toNat < 2 ^ 12 := by
    rw [toNat_and_mask _ (by decide)]
    exact Nat.mod_lt _ (by decide)
  simp only [List.foldl_cons, List.foldl_nil, hmask 1 (by decide), hmask 2 (by decide),
    hmask 3 (by decide), hmask 4 (by decide), and_mask_of_lt (show 12 ≤ 32 by decide) hbucket,
    and_mask_of_lt (show 14 ≤ 32 by decide) hleft, and_mask_of_lt (show 14 ≤ 32 by decide) hright]
  -- The parts of fields that end below the word.
  have h₀ := fun k => @part_of_below 0 12 _ k hlow
  have h₁ := fun k => @part_of_below 12 24 _ k (hfields 1 (by decide))
  have h₂ := fun k => @part_of_below 36 24 _ k (hfields 2 (by decide))
  have h₃ := fun k => @part_of_below 60 24 _ k (hfields 3 (by decide))
  have h₄ := fun k => @part_of_below 84 24 _ k (hfields 4 (by decide))
  have h₅ := fun k => @part_of_below 108 12 _ k hbucket
  have h₆ := fun k => @part_of_below 120 14 _ k hleft
  have h₇ := fun k => @part_of_below 134 14 _ k hright
  rcases Nat.lt_or_ge k 5 with hk | hk
  · interval_cases k
    · simp (disch := decide) only [part_shiftLeft, part_of_above]
      simp [storeBucketCollisionDirect, cleared]
    · simp (disch := decide) only [h₀, part_shiftLeft, part_shiftRight, part_of_above]
      simp [storeBucketCollisionDirect, cleared]
    · simp (disch := decide) only [h₀, h₁, h₂, part_shiftLeft, part_shiftRight, part_of_above]
      simp [storeBucketCollisionDirect, cleared]
    · simp (disch := decide) only [h₀, h₁, h₂, h₃, part_shiftLeft, part_shiftRight, part_of_above]
      simp [storeBucketCollisionDirect, cleared]
    · simp (disch := decide) only [h₀, h₁, h₂, h₃, h₄, h₅, part_shiftLeft, part_shiftRight]
      simp [storeBucketCollisionDirect, cleared]
  · obtain ⟨k, rfl⟩ := Nat.exists_eq_add_of_le' hk
    simp (disch := omega) only [h₀, h₁, h₂, h₃, h₄, h₅, h₆, h₇]
    simp [storeBucketCollisionDirect, cleared]

/-- What a bucket arena stores. -/
structure BucketCollisionRecord.InRange (r : BucketCollisionRecord) (fields : ℕ → UInt32)
    (parentBucket leftSlot rightSlot : UInt32) : Prop where
  fields_lt : ∀ i < r.fieldCount, (fields i).toNat < 2 ^ 24
  bucket_lt : parentBucket.toNat < 2 ^ r.parentBucketBits
  left_lt : leftSlot.toNat < 2 ^ r.parentSlotBits
  right_lt : rightSlot.toNat < 2 ^ r.parentSlotBits

/-- Slots below the capacity of the parents' buckets are in range. -/
theorem BucketCollisionRecord.InRange.of_slots
    (hfields : ∀ i < r.fieldCount, (fields i).toNat < 2 ^ 24)
    (hbucket : parentBucket.toNat < 2 ^ r.parentBucketBits) (hleft : leftSlot.toNat < r.parentSlots)
    (hright : rightSlot.toNat < r.parentSlots) :
    r.InRange fields parentBucket leftSlot rightSlot :=
  ⟨hfields, hbucket, lt_two_pow_bitsForCapacity r.parentSlots_lt hleft,
    lt_two_pow_bitsForCapacity r.parentSlots_lt hright⟩

theorem storeBucketCollision_eq (record : Words)
    (h : r.InRange fields parentBucket leftSlot rightSlot) :
    storeBucketCollision r record fields parentBucket leftSlot rightSlot =
      storeBucketCollisionFields r record fields parentBucket leftSlot rightSlot := by
  rw [storeBucketCollision]
  split
  · next hsplices =>
    have hcond := hsplices
    simp only [BucketCollisionRecord.splices, Bool.and_eq_true, beq_iff_eq] at hcond
    obtain ⟨⟨⟨⟨⟨-, hcount⟩, -⟩, hbits⟩, hslots⟩, -⟩ := hcond
    exact storeBucketCollisionDirect_eq hsplices record (hcount ▸ h.fields_lt) (hbits ▸ h.bucket_lt)
      (hslots ▸ h.left_lt) (hslots ▸ h.right_lt)
  · rfl

end Collisions

end MoMiner.Equihash
