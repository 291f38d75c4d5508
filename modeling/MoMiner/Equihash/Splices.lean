import MoMiner.Equihash.Buckets

/-!
# Spliced collisions

A collision joins two records of a bucket: it is dropped if they have a parent in common or if all
that is left of them is zero. The joins read and write the fields one by one or, for the layouts of
the large arenas, by shifts of whole words.

Main result: `packed_records_exact`.
-/

namespace MoMiner.Equihash

open MoMiner.PackedWords

/-- Whether not all of the remaining fields are zero. -/
def hasNonzeroRemainder (values : List UInt32) : Bool := values.foldl (· ||| ·) 0 != 0

/-- Where the two records of a join are. -/
structure Pair where
  bucket : UInt32
  aSlot : UInt32
  bSlot : UInt32
  inputSlots : UInt32

section Stores

variable (output : OutputRecord) (record : Words) (values : List UInt32)
variable (bucket leftSlot rightSlot inputSlots : UInt32)

def storeBucketOutput : Words :=
  match output with
  | .packed spec fieldCount =>
    let base := bucket * inputSlots
    storeCollision spec fieldCount (fun i => (values.getD i 0).toNat) (base + leftSlot).toNat
      (base + rightSlot).toNat
  | .bucket r => storeBucketCollision r record (fun i => values.getD i 0) bucket leftSlot rightSlot

/-- The same with the field-by-field store. -/
def storeBucketOutputFields : Words :=
  match output with
  | .packed spec fieldCount =>
    let base := bucket * inputSlots
    storeCollision spec fieldCount (fun i => (values.getD i 0).toNat) (base + leftSlot).toNat
      (base + rightSlot).toNat
  | .bucket r =>
    storeBucketCollisionFields r record (fun i => values.getD i 0) bucket leftSlot rightSlot

end Stores

/-- The key and the record of a join, its parents in the order of their slots. -/
def emitCollision (store : List UInt32 → UInt32 → UInt32 → UInt32 → UInt32 → Words)
    (values : List UInt32) (pair : Pair) : UInt32 × Words :=
  (values.getD 0 0,
    if pair.aSlot < pair.bSlot then store values pair.bucket pair.aSlot pair.bSlot pair.inputSlots
    else store values pair.bucket pair.bSlot pair.aSlot pair.inputSlots)

def bucketParentsOverlap (r : BucketCollisionRecord) (a b : Words) : Bool :=
  loadParentBucket r a == loadParentBucket r b &&
    (loadParentSlot r a false == loadParentSlot r b false ||
      loadParentSlot r a false == loadParentSlot r b true ||
      loadParentSlot r a true == loadParentSlot r b false ||
      loadParentSlot r a true == loadParentSlot r b true)

/-! ## Field by field -/

def joinValues (r : BucketCollisionRecord) (a b : Words) (bucket : UInt32) : List UInt32 :=
  (List.range (r.fieldCount - 1)).map fun i =>
    loadBucketCollisionField r a bucket (i + 1) ^^^ loadBucketCollisionField r b bucket (i + 1)

def makeBucketCollisionFields (r : BucketCollisionRecord) (output : OutputRecord) (a b : Words)
    (pair : Pair) (out : Words) : Option (UInt32 × Words) :=
  if bucketParentsOverlap r a b then none
  else
    let values := joinValues r a b pair.bucket
    if r.compactTrailingField || hasNonzeroRemainder values then
      some (emitCollision (storeBucketOutputFields output out) values pair)
    else none

/-! ## The joins of the code -/

/-- The record that the splice of equihash (192,7) writes. -/
def directRecord (nextField v1 v2 v3 v4 v5 bucket left right : UInt32) (out : Words) : Words
  | 0 => (nextField &&& (0xfff : UInt32)) ||| (v1 <<< 12)
  | 1 => (v1 >>> 20) ||| (v2 <<< 4) ||| (v3 <<< 28)
  | 2 => (v3 >>> 4) ||| (v4 <<< 20)
  | 3 => (v4 >>> 12) ||| (v5 <<< 12)
  | 4 => (v5 >>> 20) ||| (bucket <<< 4) ||| (left <<< 16) ||| (right <<< 30)
  | 5 => right >>> 2
  | k => out k

/-- The splice of a join of equihash (192,7). -/
def joinDirect (a b : Words) (pair : Pair) (out : Words) : Option (UInt32 × Words) :=
  let x := fun i => a i ^^^ b i
  let v1 := (x 1 >>> 4) &&& 0xffffff
  let v2 := (x 1 >>> 28) ||| ((x 2 &&& 0xfffff) <<< 4)
  let v3 := (x 2 >>> 20) ||| ((x 3 &&& 0xfff) <<< 12)
  let v4 := (x 3 >>> 12) ||| ((x 4 &&& 0xf) <<< 20)
  let v5 := (x 4 >>> 4) &&& 0xffffff
  let nextField := (x 0 >>> 12) ||| ((x 1 &&& 0xf) <<< 20)
  if nextField ||| v1 ||| v2 ||| v3 ||| v4 ||| v5 = 0 then none
  else
    let left := if pair.aSlot < pair.bSlot then pair.aSlot else pair.bSlot
    let right := if pair.aSlot < pair.bSlot then pair.bSlot else pair.aSlot
    some (nextField, directRecord nextField v1 v2 v3 v4 v5 pair.bucket left right out)

/-- The layouts that are joined by the splice. -/
def BucketCollisionRecord.splicesJoin (r : BucketCollisionRecord) : OutputRecord → Bool
  | .packed _ _ => false
  | .bucket output =>
    r.spec.n == 192 && r.fieldCount == 7 && r.localBits == 12 && r.parentBucketBits == 12 &&
      r.parentSlotBits == 14 && output.localBits == 12 && output.parentBucketBits == 12 &&
      output.parentSlotBits == 14

def makeBucketCollisionUnordered (r : BucketCollisionRecord) (output : OutputRecord) (a b : Words)
    (pair : Pair) (out : Words) : Option (UInt32 × Words) :=
  if bucketParentsOverlap r a b then none
  else if r.splicesJoin output then joinDirect a b pair out
  else
    let values := joinValues r a b pair.bucket
    if r.compactTrailingField || hasNonzeroRemainder values then
      some (emitCollision (storeBucketOutput output out) values pair)
    else none

/-! ### Split records -/

/-- The record of a head of four words and a tail. -/
def loadSplitRecord (head : Words) (tail : UInt32) : Words := fun k =>
  if k < 4 then head k else if k = 4 then tail else 0

def splitParentsOverlap (r : BucketCollisionRecord) (a b : Words) (aTail bTail : UInt32) : Bool :=
  let parentBit := r.localBits + (r.fieldCount - 1) * r.spec.collisionBits
  packedLoad32 a 4 parentBit r.parentBucketBits == packedLoad32 b 4 parentBit r.parentBucketBits &&
    (let aRecord := loadSplitRecord a aTail
    let bRecord := loadSplitRecord b bTail
    let aLeft := loadBucketCollisionParent r aRecord false
    let aRight := loadBucketCollisionParent r aRecord true
    let bLeft := loadBucketCollisionParent r bRecord false
    let bRight := loadBucketCollisionParent r bRecord true
    aLeft == bLeft || aLeft == bRight || aRight == bLeft || aRight == bRight)

/-- The splice of the fields of two heads. -/
def splitValuesDirect (a b : Words) : List UInt32 :=
  let v0 := ((a 0 >>> 12) ||| ((a 1 &&& (0xf : UInt32)) <<< 20)) ^^^
    ((b 0 >>> 12) ||| ((b 1 &&& (0xf : UInt32)) <<< 20))
  let v1 := ((a 1 >>> 4) &&& (0xffffff : UInt32)) ^^^ ((b 1 >>> 4) &&& (0xffffff : UInt32))
  let v2 := ((a 1 >>> 28) ||| ((a 2 &&& (0xfffff : UInt32)) <<< 4)) ^^^
    ((b 1 >>> 28) ||| ((b 2 &&& (0xfffff : UInt32)) <<< 4))
  let v3 := ((a 2 >>> 20) ||| ((a 3 &&& (0xfff : UInt32)) <<< 12)) ^^^
    ((b 2 >>> 20) ||| ((b 3 &&& (0xfff : UInt32)) <<< 12))
  [v0, v1, v2, v3]

/-- The layouts whose heads are joined by the splice. -/
def BucketCollisionRecord.splicesHeads (r : BucketCollisionRecord) : Bool :=
  r.spec.collisionBits == 24 && r.fieldCount == 5 && r.localBits == 12 && r.parentBucketBits == 12

def splitValues (r : BucketCollisionRecord) (a b : Words) : List UInt32 :=
  if r.splicesHeads then splitValuesDirect a b
  else (List.range (r.fieldCount - 1)).map fun i =>
    packedLoad32 a 4 (r.localBits + i * r.spec.collisionBits) r.spec.collisionBits ^^^
      packedLoad32 b 4 (r.localBits + i * r.spec.collisionBits) r.spec.collisionBits

def makeSplitBucketCollisionUnordered (r : BucketCollisionRecord) (output : OutputRecord)
    (a b : Words) (tails : ℕ → UInt32) (aIndex bIndex : ℕ) (pair : Pair) (out : Words) :
    Option (UInt32 × Words) :=
  if splitParentsOverlap r a b (tails aIndex) (tails bIndex) then none
  else
    let values := splitValues r a b
    if hasNonzeroRemainder values then
      some (emitCollision (storeBucketOutput output out) values pair)
    else none

/-! ## What the splices read -/

section Reads

variable {wordCount : ℕ}

theorem packedLoad32_12 (words : Words) (h : 2 ≤ wordCount) : packedLoad32 words wordCount 12 24 =
    (words 0 >>> 12) ||| ((words 1 &&& (0xf : UInt32)) <<< 20) :=
  packedLoad32_across (by decide) (by decide) (by omega)

theorem packedLoad32_36 (words : Words) (h : 2 ≤ wordCount) : packedLoad32 words wordCount 36 24 =
    (words 1 >>> 4) &&& (0xffffff : UInt32) :=
  packedLoad32_within (by decide) (by omega)

theorem packedLoad32_60 (words : Words) (h : 3 ≤ wordCount) : packedLoad32 words wordCount 60 24 =
    (words 1 >>> 28) ||| ((words 2 &&& (0xfffff : UInt32)) <<< 4) :=
  packedLoad32_across (by decide) (by decide) (by omega)

theorem packedLoad32_84 (words : Words) (h : 4 ≤ wordCount) : packedLoad32 words wordCount 84 24 =
    (words 2 >>> 20) ||| ((words 3 &&& (0xfff : UInt32)) <<< 12) :=
  packedLoad32_across (by decide) (by decide) (by omega)

theorem packedLoad32_108 (words : Words) (h : 5 ≤ wordCount) : packedLoad32 words wordCount 108 24 =
    (words 3 >>> 12) ||| ((words 4 &&& (0xf : UInt32)) <<< 20) :=
  packedLoad32_across (by decide) (by decide) (by omega)

theorem packedLoad32_132 (words : Words) (h : 5 ≤ wordCount) : packedLoad32 words wordCount 132 24 =
    (words 4 >>> 4) &&& (0xffffff : UInt32) :=
  packedLoad32_within (by decide) (by omega)

end Reads

section Joins

variable {r : BucketCollisionRecord} {output : OutputRecord} {a b out : Words} {pair : Pair}

theorem loadBucketCollisionField_succ (record : Words) (bucket : UInt32) {i : ℕ}
    (hkept : ¬ r.Omits (i + 1)) : loadBucketCollisionField r record bucket (i + 1) =
      packedLoad32 record r.wordCount (r.localBits + i * r.spec.collisionBits)
        r.spec.collisionBits := by
  rw [loadBucketCollisionField, if_neg (Nat.succ_ne_zero i), if_neg hkept, Nat.add_sub_cancel]

theorem loadBucketCollisionField_succ_lt (record : Words) (bucket : UInt32) (i : ℕ) :
    (loadBucketCollisionField r record bucket (i + 1)).toNat < 2 ^ 24 := by
  have hlt : ∀ {p width}, width ≤ 24 →
      (packedLoad32 record r.wordCount p width).toNat < 2 ^ 24 := by
    intro p width hwidth
    rw [toNat_packedLoad32 (by omega)]
    exact packedLoad_lt.trans_le (Nat.pow_le_pow_right (by decide) hwidth)
  rw [loadBucketCollisionField, if_neg (Nat.succ_ne_zero i), r.spec.collisionBits_eq]
  split
  · exact hlt (Nat.sub_le _ _)
  · exact hlt le_rfl

theorem joinValues_getD_lt (bucket : UInt32) (i : ℕ) :
    ((joinValues r a b bucket).getD i 0).toNat < 2 ^ 24 := by
  rw [List.getD_eq_getElem?_getD, joinValues, List.getElem?_map]
  cases (List.range (r.fieldCount - 1))[i]? with
  | none => exact (show (0 : UInt32).toNat < 2 ^ 24 by decide)
  | some j =>
    exact Nat.xor_lt_two_pow (loadBucketCollisionField_succ_lt a bucket j)
      (loadBucketCollisionField_succ_lt b bucket j)

/-! ## The stores agree -/

/-- A pair that its output record can refer to. -/
def Pair.InRange (pair : Pair) : OutputRecord → Prop
  | .packed _ _ => True
  | .bucket r => pair.bucket.toNat < 2 ^ r.parentBucketBits ∧
      pair.aSlot.toNat < 2 ^ r.parentSlotBits ∧ pair.bSlot.toNat < 2 ^ r.parentSlotBits

theorem emitCollision_eq (hpair : pair.InRange output) {values : List UInt32}
    (hvalues : ∀ i, (values.getD i 0).toNat < 2 ^ 24) :
    emitCollision (storeBucketOutput output out) values pair =
      emitCollision (storeBucketOutputFields output out) values pair := by
  cases output with
  | packed spec fieldCount => rfl
  | bucket g =>
    obtain ⟨hbucket, ha, hb⟩ := hpair
    rw [emitCollision, emitCollision]
    refine congrArg (Prod.mk _) (if_congr Iff.rfl ?_ ?_)
    · exact storeBucketCollision_eq out ⟨fun i _ => hvalues i, hbucket, ha, hb⟩
    · exact storeBucketCollision_eq out ⟨fun i _ => hvalues i, hbucket, hb, ha⟩

/-! ## Split records -/

theorem BucketCollisionRecord.compactTrailingField_of_wordCount (h : r.wordCount = 5) :
    r.compactTrailingField = false := by
  by_contra hcompact
  have hcompact := Bool.not_eq_false _ ▸ hcompact
  obtain ⟨-, hmin, hmax⟩ := compactTrailingField_eq hcompact
  rw [wordCount, bitCount, trailingBitsOmitted, if_pos hcompact] at h
  omega

theorem packedLoad32_head (head : Words) (tail : UInt32) {p width : ℕ} (hwidth : width ≤ 32)
    (hend : p + width ≤ 128) :
    packedLoad32 head 4 p width = packedLoad32 (loadSplitRecord head tail) 5 p width := by
  apply packedLoad32_congr hwidth (by omega) (by omega)
  intro k hk
  rw [loadSplitRecord, if_pos (by omega)]

theorem splitParentsOverlap_eq (hwords : r.wordCount = 5)
    (hhead : r.localBits + (r.fieldCount - 1) * r.spec.collisionBits + r.parentBucketBits ≤ 128)
    (aTail bTail : UInt32) : splitParentsOverlap r a b aTail bTail =
      bucketParentsOverlap r (loadSplitRecord a aTail) (loadSplitRecord b bTail) := by
  have hbits := r.parentBucketBits_le
  have hload : ∀ head tail, packedLoad32 head 4
      (r.localBits + (r.fieldCount - 1) * r.spec.collisionBits) r.parentBucketBits =
        loadParentBucket r (loadSplitRecord head tail) := by
    intro head tail
    rw [loadParentBucket, hwords, BucketCollisionRecord.parentBit_of_full
      (BucketCollisionRecord.compactTrailingField_of_wordCount hwords)]
    exact packedLoad32_head head tail (by omega) hhead
  rw [splitParentsOverlap, bucketParentsOverlap, hload a aTail, hload b bTail]
  by_cases hbuckets : loadParentBucket r (loadSplitRecord a aTail) =
      loadParentBucket r (loadSplitRecord b bTail)
  · -- In one bucket the parents differ where their slots do.
    rw [Bool.eq_iff_iff]
    simp [loadBucketCollisionParent, hbuckets]
  · rw [Bool.eq_iff_iff]
    simp [hbuckets]

theorem splitValues_eq (hwords : r.wordCount = 5)
    (hhead : r.localBits + (r.fieldCount - 1) * r.spec.collisionBits + r.parentBucketBits ≤ 128)
    (aTail bTail bucket : UInt32) : splitValues r a b =
      joinValues r (loadSplitRecord a aTail) (loadSplitRecord b bTail) bucket := by
  have hfull := BucketCollisionRecord.compactTrailingField_of_wordCount hwords
  have hfields : (List.range (r.fieldCount - 1)).map (fun i =>
      packedLoad32 a 4 (r.localBits + i * r.spec.collisionBits) r.spec.collisionBits ^^^
        packedLoad32 b 4 (r.localBits + i * r.spec.collisionBits) r.spec.collisionBits) =
      joinValues r (loadSplitRecord a aTail) (loadSplitRecord b bTail) bucket := by
    refine List.map_congr_left fun i hi => ?_
    have hend : r.localBits + i * r.spec.collisionBits + r.spec.collisionBits ≤ 128 := by
      have := field_end_le r.spec (List.mem_range.mp hi)
      omega
    have hkept : ¬ r.Omits (i + 1) := fun h => Bool.false_ne_true (hfull ▸ h.1)
    have hbits : r.spec.collisionBits ≤ 32 := by
      rw [r.spec.collisionBits_eq]
      decide
    rw [loadBucketCollisionField_succ _ bucket hkept, loadBucketCollisionField_succ _ bucket hkept,
      hwords, packedLoad32_head a aTail hbits hend, packedLoad32_head b bTail hbits hend]
  rw [splitValues]
  split
  · next hsplices =>
    rw [← hfields]
    simp only [BucketCollisionRecord.splicesHeads, Bool.and_eq_true, beq_iff_eq] at hsplices
    obtain ⟨⟨⟨hbits, hcount⟩, hlocal⟩, -⟩ := hsplices
    have h12 := fun words => packedLoad32_12 words (show 2 ≤ 4 by decide)
    have h36 := fun words => packedLoad32_36 words (show 2 ≤ 4 by decide)
    have h60 := fun words => packedLoad32_60 words (show 3 ≤ 4 by decide)
    have h84 := fun words => packedLoad32_84 words (show 4 ≤ 4 by decide)
    rw [hbits, hcount, hlocal, splitValuesDirect]
    simp only [← h12, ← h36, ← h60, ← h84]
    rfl
  · exact hfields

/-- **Split records are joined as whole ones.** -/
theorem makeSplitBucketCollisionUnordered_eq (hwords : r.wordCount = 5)
    (hhead : r.localBits + (r.fieldCount - 1) * r.spec.collisionBits + r.parentBucketBits ≤ 128)
    (hpair : pair.InRange output) (tails : ℕ → UInt32) (aIndex bIndex : ℕ) :
    makeSplitBucketCollisionUnordered r output a b tails aIndex bIndex pair out =
      makeBucketCollisionFields r output (loadSplitRecord a (tails aIndex))
        (loadSplitRecord b (tails bIndex)) pair out := by
  have hfull := BucketCollisionRecord.compactTrailingField_of_wordCount hwords
  rw [makeSplitBucketCollisionUnordered, makeBucketCollisionFields,
    splitParentsOverlap_eq hwords hhead,
    splitValues_eq hwords hhead (tails aIndex) (tails bIndex) pair.bucket]
  dsimp only
  rw [hfull, Bool.false_or, emitCollision_eq hpair (joinValues_getD_lt pair.bucket)]

/-! ## Joins of equihash (192,7) -/

/-- **The splice writes the same record.** -/
theorem directRecord_eq {g : BucketCollisionRecord} (hcount : g.fieldCount = 6)
    (hlocal : g.localBits = 12) (hbits : g.parentBucketBits = 12) (hslots : g.parentSlotBits = 14)
    {fields : ℕ → UInt32} (hfields : ∀ i, (fields i).toNat < 2 ^ 24) {bucket left right : UInt32}
    (hbucket : bucket.toNat < 2 ^ 12) (hleft : left.toNat < 2 ^ 14)
    (hright : right.toNat < 2 ^ 14) :
    directRecord (fields 0) (fields 1) (fields 2) (fields 3) (fields 4) (fields 5) bucket left right
        out =
      storeBucketCollisionFields g out fields bucket left right := by
  have hfull := BucketCollisionRecord.compactTrailingField_of_fieldCount
    (show g.fieldCount ≠ 3 by omega)
  have homitted : g.trailingBitsOmitted = 0 := if_neg (by simp [hfull])
  have hwords : g.wordCount = 6 := by
    simp [BucketCollisionRecord.wordCount, BucketCollisionRecord.bitCount,
      BucketCollisionRecord.fullBitCount, homitted, hcount, hlocal, hbits, hslots,
      g.spec.collisionBits_eq]
  have hstores : g.stores fields bucket left right =
      [⟨0, 12, fields 0⟩, ⟨12, 24, fields 1⟩, ⟨36, 24, fields 2⟩, ⟨60, 24, fields 3⟩,
        ⟨84, 24, fields 4⟩, ⟨108, 24, fields 5⟩, ⟨132, 12, bucket⟩, ⟨144, 14, left⟩,
        ⟨158, 14, right⟩] := by
    simp [BucketCollisionRecord.stores, BucketCollisionRecord.parentBit, hfull, homitted, hcount,
      hlocal, hbits, hslots, g.spec.collisionBits_eq, List.range'_succ]
  funext k
  rw [storeBucketCollisionFields_word, hstores, hwords]
  have hmask := fun i => and_mask_of_lt (by decide) (hfields i)
  have hlow : (fields 0 &&& UInt32.ofNat (2 ^ 12 - 1)).toNat < 2 ^ 12 := by
    rw [toNat_and_mask _ (by decide)]
    exact Nat.mod_lt _ (by decide)
  simp only [List.foldl_cons, List.foldl_nil, hmask,
    and_mask_of_lt (show 12 ≤ 32 by decide) hbucket,
    and_mask_of_lt (show 14 ≤ 32 by decide) hleft, and_mask_of_lt (show 14 ≤ 32 by decide) hright]
  -- The parts of fields that end below the word.
  have h₀ := fun k => @part_of_below 0 12 _ k hlow
  have h₁ := fun k => @part_of_below 12 24 _ k (hfields 1)
  have h₂ := fun k => @part_of_below 36 24 _ k (hfields 2)
  have h₃ := fun k => @part_of_below 60 24 _ k (hfields 3)
  have h₄ := fun k => @part_of_below 84 24 _ k (hfields 4)
  have h₅ := fun k => @part_of_below 108 24 _ k (hfields 5)
  have h₆ := fun k => @part_of_below 132 12 _ k hbucket
  have h₇ := fun k => @part_of_below 144 14 _ k hleft
  have h₈ := fun k => @part_of_below 158 14 _ k hright
  rcases Nat.lt_or_ge k 6 with hk | hk
  · interval_cases k
    · simp (disch := decide) only [part_shiftLeft, part_of_above]
      simp [directRecord, cleared]
    · simp (disch := decide) only [h₀, part_shiftLeft, part_shiftRight, part_of_above]
      simp [directRecord, cleared]
    · simp (disch := decide) only [h₀, h₁, h₂, part_shiftLeft, part_shiftRight, part_of_above]
      simp [directRecord, cleared]
    · simp (disch := decide) only [h₀, h₁, h₂, h₃, part_shiftLeft, part_shiftRight, part_of_above]
      simp [directRecord, cleared]
    · simp (disch := decide) only [h₀, h₁, h₂, h₃, h₄, part_shiftLeft, part_shiftRight]
      simp [directRecord, cleared]
    · simp (disch := decide) only [h₀, h₁, h₂, h₃, h₄, h₅, h₆, h₇, part_shiftRight]
      simp [directRecord, cleared]
  · obtain ⟨k, rfl⟩ := Nat.exists_eq_add_of_le' hk
    simp (disch := omega) only [h₀, h₁, h₂, h₃, h₄, h₅, h₆, h₇, h₈]
    simp [directRecord, cleared]

/-- The fields of a join, read from the exclusive or of its records. -/
theorem joinValues_eq (hfull : r.compactTrailingField = false) (bucket : UInt32) :
    joinValues r a b bucket = (List.range (r.fieldCount - 1)).map fun i =>
      packedLoad32 (fun k => a k ^^^ b k) r.wordCount (r.localBits + i * r.spec.collisionBits)
        r.spec.collisionBits := by
  refine List.map_congr_left fun i hi => ?_
  have hkept : ¬ r.Omits (i + 1) := fun h => Bool.false_ne_true (hfull ▸ h.1)
  have hbits : r.spec.collisionBits ≤ 32 := by
    rw [r.spec.collisionBits_eq]
    decide
  have hend : r.localBits + i * r.spec.collisionBits + r.spec.collisionBits ≤ 32 * r.wordCount := by
    have hlast := field_end_le r.spec (List.mem_range.mp hi)
    have hparent := BucketCollisionRecord.parentBit_of_full hfull
    have hwords := r.parentBit_le
    omega
  rw [loadBucketCollisionField_succ _ bucket hkept, loadBucketCollisionField_succ _ bucket hkept,
    packedLoad32_xor hbits hend]

/-- A field of the exclusive or of two records. -/
def joinedField (a b : Words) (p : ℕ) : UInt32 := packedLoad32 (fun k => a k ^^^ b k) 7 p 24

/-- What the splice of a join reads. -/
theorem joinDirect_loads : joinDirect a b pair out =
    if joinedField a b 12 ||| joinedField a b 36 ||| joinedField a b 60 ||| joinedField a b 84 |||
        joinedField a b 108 ||| joinedField a b 132 = 0 then none
    else some (joinedField a b 12, directRecord (joinedField a b 12) (joinedField a b 36)
      (joinedField a b 60) (joinedField a b 84) (joinedField a b 108) (joinedField a b 132)
      pair.bucket (if pair.aSlot < pair.bSlot then pair.aSlot else pair.bSlot)
      (if pair.aSlot < pair.bSlot then pair.bSlot else pair.aSlot) out) := by
  have h12 : joinedField a b 12 = _ := packedLoad32_12 _ (show 2 ≤ 7 by decide)
  have h36 : joinedField a b 36 = _ := packedLoad32_36 _ (show 2 ≤ 7 by decide)
  have h60 : joinedField a b 60 = _ := packedLoad32_60 _ (show 3 ≤ 7 by decide)
  have h84 : joinedField a b 84 = _ := packedLoad32_84 _ (show 4 ≤ 7 by decide)
  have h108 : joinedField a b 108 = _ := packedLoad32_108 _ (show 5 ≤ 7 by decide)
  have h132 : joinedField a b 132 = _ := packedLoad32_132 _ (show 5 ≤ 7 by decide)
  simp only [joinDirect, h12, h36, h60, h84, h108, h132]

theorem BucketCollisionRecord.compactTrailingField_of_splicesJoin
    (h : r.splicesJoin output = true) : r.compactTrailingField = false := by
  cases output with
  | packed spec fieldCount => exact absurd h Bool.false_ne_true
  | bucket g =>
    simp only [splicesJoin, Bool.and_eq_true, beq_iff_eq] at h
    obtain ⟨⟨⟨⟨⟨⟨⟨-, hfields⟩, -⟩, -⟩, -⟩, -⟩, -⟩, -⟩ := h
    exact compactTrailingField_of_fieldCount (by omega)

theorem joinDirect_eq {g : BucketCollisionRecord} (hsplices : r.splicesJoin (.bucket g) = true)
    (hcount : g.fieldCount + 1 = r.fieldCount) (hpair : pair.InRange (.bucket g)) :
    joinDirect a b pair out =
      if hasNonzeroRemainder (joinValues r a b pair.bucket) then
        some (emitCollision (storeBucketOutputFields (.bucket g) out)
          (joinValues r a b pair.bucket) pair)
      else none := by
  have hfull := BucketCollisionRecord.compactTrailingField_of_splicesJoin hsplices
  simp only [BucketCollisionRecord.splicesJoin, Bool.and_eq_true, beq_iff_eq] at hsplices
  obtain ⟨⟨⟨⟨⟨⟨⟨-, hfields⟩, hlocal⟩, hbits⟩, hslots⟩, hlocal'⟩, hbits'⟩, hslots'⟩ := hsplices
  obtain ⟨hbucket, ha, hb⟩ := hpair
  rw [hbits'] at hbucket
  rw [hslots'] at ha hb
  have hwords : r.wordCount = 7 := by
    simp [BucketCollisionRecord.wordCount, BucketCollisionRecord.bitCount,
      BucketCollisionRecord.trailingBitsOmitted, hfull, BucketCollisionRecord.fullBitCount, hfields,
      hlocal, hbits, hslots, r.spec.collisionBits_eq]
  have hlist : joinValues r a b pair.bucket = [joinedField a b 12, joinedField a b 36,
      joinedField a b 60, joinedField a b 84, joinedField a b 108, joinedField a b 132] := by
    rw [joinValues_eq hfull, hfields, hlocal, hwords, r.spec.collisionBits_eq]
    rfl
  have hlt := joinValues_getD_lt (r := r) (a := a) (b := b) pair.bucket
  rw [hlist] at hlt ⊢
  have hrecord : ∀ left right : UInt32, left.toNat < 2 ^ 14 → right.toNat < 2 ^ 14 →
      directRecord (joinedField a b 12) (joinedField a b 36) (joinedField a b 60)
          (joinedField a b 84) (joinedField a b 108) (joinedField a b 132) pair.bucket left right
          out =
        storeBucketOutputFields (.bucket g) out [joinedField a b 12, joinedField a b 36,
          joinedField a b 60, joinedField a b 84, joinedField a b 108, joinedField a b 132]
          pair.bucket left right pair.inputSlots := fun left right hleft hright =>
    directRecord_eq (by omega) hlocal' hbits' hslots' hlt hbucket hleft hright
  rw [joinDirect_loads, emitCollision]
  by_cases hzero : joinedField a b 12 ||| joinedField a b 36 ||| joinedField a b 60 |||
      joinedField a b 84 ||| joinedField a b 108 ||| joinedField a b 132 = 0
  · rw [if_pos hzero, if_neg (by simp [hasNonzeroRemainder, hzero])]
  · have hnonzero : hasNonzeroRemainder [joinedField a b 12, joinedField a b 36,
        joinedField a b 60, joinedField a b 84, joinedField a b 108,
        joinedField a b 132] = true := by
      simpa [hasNonzeroRemainder] using hzero
    rw [if_neg hzero, if_pos hnonzero]
    by_cases hslot : pair.aSlot < pair.bSlot
    · rw [if_pos hslot, if_pos hslot, if_pos hslot, hrecord _ _ ha hb]
      rfl
    · rw [if_neg hslot, if_neg hslot, if_neg hslot, hrecord _ _ hb ha]
      rfl

/-- **Joins with a splice are the joins field by field.** -/
theorem makeBucketCollisionUnordered_eq (hcount : output.fieldCount + 1 = r.fieldCount)
    (hpair : pair.InRange output) :
    makeBucketCollisionUnordered r output a b pair out =
      makeBucketCollisionFields r output a b pair out := by
  rw [makeBucketCollisionUnordered, makeBucketCollisionFields]
  refine if_congr Iff.rfl rfl ?_
  by_cases hsplices : r.splicesJoin output = true
  · cases output with
    | packed spec fieldCount => exact absurd hsplices Bool.false_ne_true
    | bucket g =>
      have hfull := BucketCollisionRecord.compactTrailingField_of_splicesJoin hsplices
      rw [if_pos hsplices, joinDirect_eq hsplices hcount hpair]
      dsimp only
      rw [hfull, Bool.false_or]
  · rw [if_neg hsplices]
    dsimp only
    rw [emitCollision_eq hpair (joinValues_getD_lt pair.bucket)]

end Joins

/-! ## Exactness -/

/-- A field is read back from any words, and the others are left alone. -/
def FieldsExact : Prop :=
  ∀ (words : Words) (wordCount p width value : ℕ), 1 ≤ width → width ≤ 32 →
    p + width ≤ 32 * wordCount →
      packedLoad (packedStore words wordCount p width value) wordCount p width =
          value % 2 ^ width ∧
        ∀ p' width', 1 ≤ width' → width' ≤ 32 → p' + width' ≤ 32 * wordCount →
          (p' + width' ≤ p ∨ p + width ≤ p') →
            packedLoad (packedStore words wordCount p width value) wordCount p' width' =
              packedLoad words wordCount p' width'

/-- Everything of a row is read back, up to the bits that are left out. -/
def BucketLevel0Record.Lossless (r : BucketLevel0Record) : Prop :=
  ∀ (record : Words) (fields : ℕ → UInt32) (leaf : UInt32),
    (∀ i < r.spec.rounds, (fields i).toNat < 2 ^ 24) → leaf.toNat < 2 ^ 25 →
      let stored := storeBucketLevel0 r record fields leaf
      let bucket := fields 0 >>> UInt32.ofNat r.localBits
      (∀ i < r.spec.rounds, loadBucketLevel0Field r stored bucket i =
        if r.Omits i then UInt32.ofNat ((fields i).toNat % 2 ^ r.retainedFinalBits)
        else fields i) ∧
      loadBucketLevel0Leaf r stored = leaf

/-- Everything of a collision is read back, up to the bits that are left out. -/
def BucketCollisionRecord.Lossless (r : BucketCollisionRecord) : Prop :=
  ∀ (record : Words) (fields : ℕ → UInt32) (parentBucket leftSlot rightSlot : UInt32),
    r.InRange fields parentBucket leftSlot rightSlot →
      let stored := storeBucketCollision r record fields parentBucket leftSlot rightSlot
      let bucket := fields 0 >>> UInt32.ofNat r.localBits
      (∀ i < r.fieldCount, loadBucketCollisionField r stored bucket i =
        if r.Omits i then
          UInt32.ofNat ((fields i).toNat % 2 ^ (r.spec.collisionBits - r.trailingBitsOmitted))
        else fields i) ∧
      loadBucketCollisionParent r stored false =
        parentBucket * UInt32.ofNat r.parentSlots + leftSlot ∧
      loadBucketCollisionParent r stored true =
        parentBucket * UInt32.ofNat r.parentSlots + rightSlot

/-- The stores and joins of a layout do what the code does field by field. -/
def BucketCollisionRecord.SplicesExact (r : BucketCollisionRecord) : Prop :=
  (∀ (record : Words) (fields : ℕ → UInt32) (parentBucket leftSlot rightSlot : UInt32),
    r.InRange fields parentBucket leftSlot rightSlot →
      storeBucketCollision r record fields parentBucket leftSlot rightSlot =
        storeBucketCollisionFields r record fields parentBucket leftSlot rightSlot) ∧
  ∀ (output : OutputRecord) (a b : Words) (pair : Pair) (out : Words),
    output.fieldCount + 1 = r.fieldCount → pair.InRange output →
      makeBucketCollisionUnordered r output a b pair out =
          makeBucketCollisionFields r output a b pair out ∧
        (r.wordCount = 5 →
          r.localBits + (r.fieldCount - 1) * r.spec.collisionBits + r.parentBucketBits ≤ 128 →
            ∀ (tails : ℕ → UInt32) (aIndex bIndex : ℕ),
              makeSplitBucketCollisionUnordered r output a b tails aIndex bIndex pair out =
                makeBucketCollisionFields r output (loadSplitRecord a (tails aIndex))
                  (loadSplitRecord b (tails bIndex)) pair out)

theorem BucketLevel0Record.lossless (r : BucketLevel0Record) : r.Lossless := by
  intro record fields leaf hfields hleaf
  refine ⟨fun i hi => ?_, loadBucketLevel0Leaf_store record hleaf⟩
  by_cases homits : r.Omits i
  · rw [if_pos homits]
    exact loadBucketLevel0Field_of_omits record homits _
  · rw [if_neg homits]
    by_cases hzero : i = 0
    · rw [hzero]
      exact loadBucketLevel0Field_zero record
    · exact loadBucketLevel0Field_of_kept record hzero hi homits _ (hfields i hi)

theorem BucketCollisionRecord.lossless (r : BucketCollisionRecord) : r.Lossless := by
  intro record fields parentBucket leftSlot rightSlot hrange
  rw [storeBucketCollision_eq record hrange]
  obtain ⟨hfields, hbucket, hleft, hright⟩ := hrange
  refine ⟨fun i hi => ?_, loadBucketCollisionParent_store record hbucket hleft hright false,
    loadBucketCollisionParent_store record hbucket hleft hright true⟩
  by_cases homits : r.Omits i
  · rw [if_pos homits]
    exact loadBucketCollisionField_of_omits record homits _
  · rw [if_neg homits]
    by_cases hzero : i = 0
    · rw [hzero]
      exact loadBucketCollisionField_zero record
    · exact loadBucketCollisionField_of_kept record hzero hi homits _ (hfields i hi)

/-- **Packed records are lossless and their splices exact.** -/
theorem packed_records_exact :
    FieldsExact ∧ (∀ r : BucketLevel0Record, r.Lossless) ∧
      ∀ r : BucketCollisionRecord, r.Lossless ∧ r.SplicesExact := by
  refine ⟨?_, BucketLevel0Record.lossless, fun r => ⟨r.lossless, ?_, ?_⟩⟩
  · intro words wordCount p width value _ hwidth hend
    refine ⟨packedLoad_packedStore_self hwidth hend, ?_⟩
    intro p' width' _ hwidth' hend' hdisjoint
    exact packedLoad_packedStore_of_disjoint hwidth hend hwidth' hend' hdisjoint
  · intro record fields parentBucket leftSlot rightSlot hrange
    exact storeBucketCollision_eq record hrange
  · intro output a b pair out hcount hpair
    exact ⟨makeBucketCollisionUnordered_eq hcount hpair, fun hwords hhead tails aIndex bIndex =>
      makeSplitBucketCollisionUnordered_eq hwords hhead hpair tails aIndex bIndex⟩

end MoMiner.Equihash
