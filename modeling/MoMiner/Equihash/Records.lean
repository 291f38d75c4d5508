import MoMiner.Equihash.Proof
import MoMiner.Lib.PackedWords

/-!
# Packed records

The records of the solver's arenas. A level-zero record packs the fields of a row and its leaf, a
collision record the fields that are left and the references to its two parents.

Main results: `loadCollisionField_store`, `loadCollisionLeft_store` and `loadCollisionRight_store`,
which say what is read from a collision record that was stored.
-/

namespace MoMiner.Equihash

open MoMiner.PackedWords

def Spec.parentRefBits : Spec → ℕ
  | .zhash144_5 => 26
  | .equihash192_7 => 32

def Spec.level0Words (spec : Spec) : ℕ :=
  (spec.rounds * spec.collisionBits + spec.indexBits + 31) / 32

def Spec.collisionWords (spec : Spec) (fieldCount : ℕ) : ℕ :=
  (fieldCount * spec.collisionBits + 2 * spec.parentRefBits + 31) / 32

/-! ## Level zero -/

def loadLevel0Field (spec : Spec) (record : Words) (field : ℕ) : ℕ :=
  packedLoad record spec.level0Words (field * spec.collisionBits) spec.collisionBits

def loadLevel0Leaf (spec : Spec) (record : Words) : ℕ :=
  packedLoad record spec.level0Words (spec.rounds * spec.collisionBits) spec.indexBits

theorem loadLevel0Leaf_lt (spec : Spec) (record : Words) : loadLevel0Leaf spec record < 2 ^ 25 :=
  spec.indexBits_eq ▸ packedLoad_lt

/-! ## Collisions -/

section Collisions

variable (spec : Spec) (fieldCount : ℕ)

def loadCollisionField (record : Words) (field : ℕ) : ℕ :=
  packedLoad record (spec.collisionWords fieldCount) (field * spec.collisionBits) spec.collisionBits

def loadCollisionLeft (record : Words) : ℕ :=
  packedLoad record (spec.collisionWords fieldCount) (fieldCount * spec.collisionBits)
    spec.parentRefBits

def loadCollisionRight (record : Words) : ℕ :=
  packedLoad record (spec.collisionWords fieldCount)
    (fieldCount * spec.collisionBits + spec.parentRefBits) spec.parentRefBits

/-- The fields of a collision record, stored one after the other in a cleared record. -/
def storeFields (fields : ℕ → ℕ) (n : ℕ) : Words :=
  (List.range n).foldl (fun record i =>
    packedStore record (spec.collisionWords fieldCount) (i * spec.collisionBits) spec.collisionBits
      (fields i)) fun _ => 0

def storeCollision (fields : ℕ → ℕ) (leftRef rightRef : ℕ) : Words :=
  let record := storeFields spec fieldCount fields fieldCount
  let record := packedStore record (spec.collisionWords fieldCount)
    (fieldCount * spec.collisionBits) spec.parentRefBits leftRef
  packedStore record (spec.collisionWords fieldCount)
    (fieldCount * spec.collisionBits + spec.parentRefBits) spec.parentRefBits rightRef

variable {spec fieldCount} {fields : ℕ → ℕ} {leftRef rightRef : ℕ}

theorem Spec.parentRefBits_le (spec : Spec) : spec.parentRefBits ≤ 32 := by cases spec <;> decide

theorem Spec.le_parentRefBits (spec : Spec) : 26 ≤ spec.parentRefBits := by cases spec <;> decide

theorem collisionBits_le_words (spec : Spec) (fieldCount : ℕ) :
    fieldCount * spec.collisionBits + 2 * spec.parentRefBits ≤
      32 * spec.collisionWords fieldCount := by
  rw [Spec.collisionWords]
  omega

theorem field_end_le (spec : Spec) {i : ℕ} (hi : i < fieldCount) :
    i * spec.collisionBits + spec.collisionBits ≤ fieldCount * spec.collisionBits := by
  rw [← Nat.succ_mul]
  exact Nat.mul_le_mul_right _ hi

theorem loadCollisionField_storeFields {n i : ℕ} (hn : n ≤ fieldCount) (hi : i < n) :
    loadCollisionField spec fieldCount (storeFields spec fieldCount fields n) i =
      fields i % 2 ^ spec.collisionBits := by
  have hwords := collisionBits_le_words spec fieldCount
  have hbits : spec.collisionBits ≤ 32 := by
    rw [spec.collisionBits_eq]
    decide
  induction n with
  | zero => exact absurd hi (Nat.not_lt_zero i)
  | succ n ih =>
    have hstep : storeFields spec fieldCount fields (n + 1) =
        packedStore (storeFields spec fieldCount fields n) (spec.collisionWords fieldCount)
          (n * spec.collisionBits) spec.collisionBits (fields n) := by
      simp [storeFields, List.range_succ]
    have hend := field_end_le spec (show n < fieldCount by omega)
    rw [hstep, loadCollisionField]
    rcases Nat.lt_succ_iff_lt_or_eq.mp hi with hlt | rfl
    · have hend' := field_end_le spec (show i < fieldCount by omega)
      rw [packedLoad_packedStore_of_disjoint hbits (by omega) hbits (by omega)
        (.inl (field_end_le spec hlt))]
      exact ih (by omega) hlt
    · exact packedLoad_packedStore_self hbits (by omega)

theorem loadCollisionField_store {i : ℕ} (hi : i < fieldCount) :
    loadCollisionField spec fieldCount (storeCollision spec fieldCount fields leftRef rightRef) i =
      fields i % 2 ^ spec.collisionBits := by
  have hwords := collisionBits_le_words spec fieldCount
  have hrefs := spec.parentRefBits_le
  have hend := field_end_le spec hi
  have hbits : spec.collisionBits ≤ 32 := by
    rw [spec.collisionBits_eq]
    decide
  rw [loadCollisionField, storeCollision,
    packedLoad_packedStore_of_disjoint hrefs (by omega) hbits (by omega) (.inl (by omega)),
    packedLoad_packedStore_of_disjoint hrefs (by omega) hbits (by omega) (.inl hend)]
  exact loadCollisionField_storeFields le_rfl hi

theorem loadCollisionLeft_store :
    loadCollisionLeft spec fieldCount (storeCollision spec fieldCount fields leftRef rightRef) =
      leftRef % 2 ^ spec.parentRefBits := by
  have hwords := collisionBits_le_words spec fieldCount
  have hrefs := spec.parentRefBits_le
  rw [loadCollisionLeft, storeCollision,
    packedLoad_packedStore_of_disjoint hrefs (by omega) hrefs (by omega) (.inl le_rfl),
    packedLoad_packedStore_self hrefs (by omega)]

theorem loadCollisionRight_store :
    loadCollisionRight spec fieldCount (storeCollision spec fieldCount fields leftRef rightRef) =
      rightRef % 2 ^ spec.parentRefBits := by
  have hwords := collisionBits_le_words spec fieldCount
  have hrefs := spec.parentRefBits_le
  rw [loadCollisionRight, storeCollision, packedLoad_packedStore_self hrefs (by omega)]

end Collisions

end MoMiner.Equihash
