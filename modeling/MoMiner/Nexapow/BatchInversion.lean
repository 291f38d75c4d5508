import MoMiner.Lib.ProductTree
import MoMiner.Nexapow.Inverse
import MoMiner.Nexapow.Reduction

/-!
# Batch inversion

The inverses of all lanes are computed with a single inversion for a group of groups. A first kernel
multiplies the leaves of each work-group in a tree, a second one inverts the products of the groups,
in trees of their own, and a third builds the tree of each group again and carries the inverse of
its product down to the leaves. Lanes that are not in use hold one.

The field is a parameter, as the miner has several representations of it; `portableField` is one.

Main result: `batch_inversion_exact`.
-/

namespace MoMiner.Nexapow

open MoMiner.Limbs MoMiner.ProductTree

/-! ## Representations of a field -/

/-- The operations of a representation of a field, and what they compute. -/
structure FieldCode (Fd K : Type*) [Field K] where
  zero : Fd
  one : Fd
  mul : Fd → Fd → Fd
  inverse : Fd → Fd
  value : Fd → K
  value_zero : value zero = 0
  value_one : value one = 1
  value_mul : ∀ a b, value (mul a b) = value a * value b
  value_inverse : ∀ a, value a ≠ 0 → value (inverse a) = (value a)⁻¹

/-! ## The kernels -/

structure CurvePoint (Fd : Type*) where
  x : Fd
  y : Fd
  zz : Fd
  zzz : Fd
  infinity : Bool

/-- A staged point: the coordinates over the common factor `z`. -/
structure PlanePoint (Fd : Type*) where
  x : Fd
  y : Fd
  z : Fd

section Kernels

variable {Fd K : Type*} [Field K] (F : FieldCode Fd K)

def storeCurve (point : CurvePoint Fd) : PlanePoint Fd :=
  if point.infinity then ⟨F.zero, F.zero, F.zero⟩
  else ⟨F.mul point.x point.zzz, F.mul point.y point.zz, F.mul point.zz point.zzz⟩

/-- The lanes of a search. -/
structure Batch (Fd : Type*) where
  count : ℕ
  valid : ℕ → Bool
  publicPoints : ℕ → CurvePoint Fd
  noncePoints : ℕ → CurvePoint Fd

def Batch.active (b : Batch Fd) (ordinal : ℕ) : Bool := ordinal < b.count && b.valid ordinal

/-- The leaf of a lane. -/
def leaf (b : Batch Fd) (ordinal : ℕ) : Fd :=
  if b.active ordinal then
    F.mul (storeCurve F (b.publicPoints ordinal)).z (storeCurve F (b.noncePoints ordinal)).z
  else F.one

/-- How the groups of a kernel run: their local memory before, and the order of their lanes. -/
structure Launch (Fd : Type*) (w : ℕ) where
  memory : ℕ → ℕ → Fd
  schedule : ℕ → Schedule (2 ^ w)

variable {w : ℕ}

/-- The tree of a group: its leaves are stored, then their products. -/
def groupProducts (run : Launch Fd w) (group : ℕ) (leaves : ℕ → Fd) : ℕ → Fd :=
  treeUp F.mul (run.schedule group).up w fun k =>
    if 2 ^ w ≤ k ∧ k < 2 * 2 ^ w then leaves (k - 2 ^ w) else run.memory group k

/-- The leaves of a group after the way down from the inverse of its product. -/
def groupInverses (run : Launch Fd w) (group : ℕ) (tree : ℕ → Fd) (root : Fd) (lane : ℕ) : Fd :=
  treeDown F.mul (run.schedule group).down w (Function.update tree 1 root) (2 ^ w + lane)

def groupLeaves (w : ℕ) (b : Batch Fd) (group lane : ℕ) : Fd := leaf F b (group * 2 ^ w + lane)

/-- The kernel of products. -/
def products (b : Batch Fd) (run : Launch Fd w) (group : ℕ) : Fd :=
  groupProducts F run group (groupLeaves F w b group) 1

/-- The number of groups of the first kernel. -/
def blocks (w : ℕ) (b : Batch Fd) : ℕ := (b.count + 2 ^ w - 1) / 2 ^ w

/-- The kernel of inverses, over the products of the groups. -/
def inverses (b : Batch Fd) (first run : Launch Fd w) (ordinal : ℕ) : Fd :=
  let group := ordinal / 2 ^ w
  let tree := groupProducts F run group fun lane =>
    if group * 2 ^ w + lane < blocks w b then products F b first (group * 2 ^ w + lane) else F.one
  groupInverses F run group tree (F.inverse (tree 1)) (ordinal % 2 ^ w)

/-- What the last kernel finds in the leaf of a lane. -/
def productInverse (b : Batch Fd) (first second last : Launch Fd w) (ordinal : ℕ) : Fd :=
  let group := ordinal / 2 ^ w
  let tree := groupProducts F last group (groupLeaves F w b group)
  groupInverses F last group tree (inverses F b first second group) (ordinal % 2 ^ w)

end Kernels

/-! ## Groups -/

section Groups

variable {Fd K : Type*} [Field K] {F : FieldCode Fd K} {w : ℕ} {leaves : ℕ → Fd} {group : ℕ}

theorem groupProducts_spec (run : Launch Fd w) :
    (∀ lane < 2 ^ w, groupProducts F run group leaves (2 ^ w + lane) = leaves lane) ∧
      ∀ k, 0 < k → k < 2 ^ w → groupProducts F run group leaves k =
        F.mul (groupProducts F run group leaves (2 * k))
          (groupProducts F run group leaves (2 * k + 1)) := by
  obtain ⟨hkeep, hlaw⟩ := @treeUp_spec _ F.mul w
    (fun k => if 2 ^ w ≤ k ∧ k < 2 * 2 ^ w then leaves (k - 2 ^ w) else run.memory group k) _
    (run.schedule group) (by omega)
  refine ⟨fun lane hlane => ?_, hlaw⟩
  rw [groupProducts, hkeep _ (Nat.le_add_right ..), if_pos (by omega), Nat.add_sub_cancel_left]

/-- The product of a group depends on its leaves only. -/
theorem groupProducts_congr {run run' : Launch Fd w} {group' : ℕ} :
    groupProducts F run group leaves 1 = groupProducts F run' group' leaves 1 := by
  obtain ⟨hleaf, hlaw⟩ := @groupProducts_spec _ _ _ F _ leaves group run
  obtain ⟨hleaf', hlaw'⟩ := @groupProducts_spec _ _ _ F _ leaves group' run'
  have hpos := Nat.two_pow_pos w
  refine tree_unique (fun k hk hlt => ?_) hlaw hlaw' 1 (by omega) (by omega)
  obtain ⟨lane, rfl⟩ := Nat.exists_eq_add_of_le hk
  rw [hleaf lane (by omega), hleaf' lane (by omega)]

theorem groupProducts_ne_zero (run : Launch Fd w) (h : ∀ lane < 2 ^ w, F.value (leaves lane) ≠ 0) :
    F.value (groupProducts F run group leaves 1) ≠ 0 := by
  obtain ⟨hleaf, hlaw⟩ := @groupProducts_spec _ _ _ F _ leaves group run
  have hpos := Nat.two_pow_pos w
  refine (@isUnit_tree _ _ _ _ _ F.value F.value_mul _ (fun k hk hlt => ?_) hlaw 1 (by omega)
    (by omega)).ne_zero
  obtain ⟨lane, rfl⟩ := Nat.exists_eq_add_of_le hk
  rw [hleaf lane (by omega)]
  exact (h lane (by omega)).isUnit

/-- **A group.** From the inverse of its product, every lane gets the inverse of its leaf. -/
theorem groupInverses_spec (run : Launch Fd w) {root : Fd}
    (hroot : F.value root * F.value (groupProducts F run group leaves 1) = 1) {lane : ℕ}
    (hlane : lane < 2 ^ w) :
    F.value (groupInverses F run group (groupProducts F run group leaves) root lane) =
      (F.value (leaves lane))⁻¹ := by
  obtain ⟨hleaf, hlaw⟩ := @groupProducts_spec _ _ _ F _ leaves group run
  obtain ⟨hdown, -⟩ := @treeDown_spec _ _ _ (Function.update (groupProducts F run group leaves) 1
    root) _ _ F.value _ F.value_mul (run.schedule group) _ _ hlaw (by rwa [Function.update_self])
    (fun k hk => Function.update_of_ne (by omega) _ _) le_rfl (by omega)
  have h := hdown (2 ^ w + lane) (by omega) (by omega)
  rw [hleaf lane hlane] at h
  exact eq_inv_of_mul_eq_one_left h

end Groups

/-! ## The batch -/

section Batches

variable {Fd K : Type*} [Field K] {F : FieldCode Fd K} {w : ℕ} {b : Batch Fd}

theorem leaf_ne_zero (h : ∀ ordinal, b.active ordinal = true → F.value (leaf F b ordinal) ≠ 0)
    (ordinal : ℕ) : F.value (leaf F b ordinal) ≠ 0 := by
  by_cases hactive : b.active ordinal = true
  · exact h ordinal hactive
  · rw [leaf, if_neg hactive, F.value_one]
    exact one_ne_zero

theorem inverses_spec (h : ∀ ordinal, b.active ordinal = true → F.value (leaf F b ordinal) ≠ 0)
    (first second : Launch Fd w) {group : ℕ} (hgroup : group < blocks w b) :
    F.value (inverses F b first second group) = (F.value (products F b first group))⁻¹ := by
  have hproducts (g : ℕ) : F.value (products F b first g) ≠ 0 :=
    groupProducts_ne_zero first fun lane _ => leaf_ne_zero h _
  obtain ⟨leaves, hleaves⟩ : ∃ leaves : ℕ → Fd, leaves = fun lane =>
    if group / 2 ^ w * 2 ^ w + lane < blocks w b then
      products F b first (group / 2 ^ w * 2 ^ w + lane) else F.one := ⟨_, rfl⟩
  have hne : ∀ lane < 2 ^ w, F.value (leaves lane) ≠ 0 := by
    intro lane _
    rw [hleaves]
    dsimp only
    split_ifs
    · exact hproducts _
    · rw [F.value_one]
      exact one_ne_zero
  have hroot := @groupProducts_ne_zero _ _ _ _ _ _ (group / 2 ^ w) second hne
  have hlane := @groupInverses_spec _ _ _ _ _ _ _ second _
    (by rw [F.value_inverse _ hroot, inv_mul_cancel₀ hroot]) (group % 2 ^ w)
    (Nat.mod_lt _ (Nat.two_pow_pos w))
  have hself : leaves (group % 2 ^ w) = products F b first group := by
    rw [hleaves]
    dsimp only
    rw [Nat.div_add_mod', if_pos hgroup]
  rw [hself] at hlane
  rw [inverses, ← hleaves]
  exact hlane

theorem productInverse_spec
    (h : ∀ ordinal, b.active ordinal = true → F.value (leaf F b ordinal) ≠ 0)
    (first second last : Launch Fd w) {ordinal : ℕ} (hactive : b.active ordinal = true) :
    F.value (productInverse F b first second last ordinal) = (F.value (leaf F b ordinal))⁻¹ := by
  have hpos := Nat.two_pow_pos w
  have hcount : ordinal < b.count := by
    rw [Batch.active, Bool.and_eq_true, decide_eq_true_iff] at hactive
    exact hactive.1
  have hgroup : ordinal / 2 ^ w < blocks w b := by
    rw [blocks, Nat.div_lt_iff_lt_mul hpos]
    have := Nat.lt_div_mul_add (a := b.count + 2 ^ w - 1) hpos
    omega
  have hne := @groupProducts_ne_zero _ _ _ F _ (groupLeaves F w b (ordinal / 2 ^ w))
    (ordinal / 2 ^ w) last fun lane _ => leaf_ne_zero h _
  have hroot : F.value (inverses F b first second (ordinal / 2 ^ w)) *
      F.value (groupProducts F last (ordinal / 2 ^ w) (groupLeaves F w b (ordinal / 2 ^ w)) 1) =
        1 := by
    rw [inverses_spec h first second hgroup, products, @groupProducts_congr _ _ _ _ _ _ _ _ last
      (ordinal / 2 ^ w), inv_mul_cancel₀ hne]
  have hlane := @groupInverses_spec _ _ _ _ _ _ _ last _ hroot (ordinal % 2 ^ w) (Nat.mod_lt _ hpos)
  rwa [groupLeaves, Nat.div_add_mod'] at hlane

/-- **Batch inversion.** Every active lane gets the inverse of its own leaf, whatever the size of a
group, the other lanes and the order in which lanes run; so two batches with the same leaf agree
there. -/
theorem batch_inversion_exact (F : FieldCode Fd K) (w : ℕ) (b : Batch Fd)
    (h : ∀ ordinal, b.active ordinal = true → F.value (leaf F b ordinal) ≠ 0)
    (first second last : Launch Fd w) (ordinal : ℕ) (hactive : b.active ordinal = true) :
    F.value (productInverse F b first second last ordinal) = (F.value (leaf F b ordinal))⁻¹ ∧
      ∀ (w' : ℕ) (b' : Batch Fd) (first' second' last' : Launch Fd w'),
        (∀ ordinal, b'.active ordinal = true → F.value (leaf F b' ordinal) ≠ 0) →
        b'.active ordinal = true → leaf F b' ordinal = leaf F b ordinal →
          F.value (productInverse F b' first' second' last' ordinal) =
            F.value (productInverse F b first second last ordinal) := by
  have hspec := productInverse_spec h first second last hactive
  refine ⟨hspec, fun w' b' first' second' last' h' hactive' hleaf => ?_⟩
  rw [productInverse_spec h' first' second' last' hactive', hleaf, hspec]

end Batches

/-! ## A representation -/

local instance factFieldPrimeBatch : Fact fieldPrime.Prime := ⟨fieldPrime_prime⟩

/-- The portable representation, which inverts by the reference chain. -/
def portableField : FieldCode U256 (ZMod fieldPrime) where
  zero := zero
  one := one
  mul := mul
  inverse := npFieldInverse
  value a := a.toNat
  value_zero := by
    have h : zero.toNat = 0 := by decide
    rw [h, Nat.cast_zero]
  value_one := by
    have h : one.toNat = 1 := by decide
    rw [h, Nat.cast_one]
  value_mul a b := by rw [mul_spec, ZMod.natCast_mod, Nat.cast_mul]
  value_inverse a ha := by
    have hpower := npFieldInverse_power a
    rw [Power] at hpower
    refine eq_inv_of_mul_eq_one_left ?_
    rw [hpower, ← pow_succ, ← ZMod.pow_card_sub_one_eq_one ha]
    congr 1

/-- A point whose coordinates are all one. -/
def onePoint : CurvePoint U256 where
  x := portableField.one
  y := portableField.one
  zz := portableField.one
  zzz := portableField.one
  infinity := false

/-- A batch of one lane, in a group of two. -/
def oneBatch : Batch U256 where
  count := 1
  valid _ := true
  publicPoints _ := onePoint
  noncePoints _ := onePoint

/-- The lanes in their order. -/
def plainLaunch : Launch U256 1 where
  memory _ _ := portableField.zero
  schedule _ := ⟨fun _ => List.range 2, fun _ => List.range 2, fun _ => .refl _, fun _ => .refl _⟩

theorem value_storeCurve_onePoint :
    portableField.value (storeCurve portableField onePoint).z = 1 := by
  have hstore : (storeCurve portableField onePoint).z =
      portableField.mul onePoint.zz onePoint.zzz := by
    rw [storeCurve, if_neg (show ¬onePoint.infinity = true by decide)]
  have hzz : onePoint.zz = portableField.one := by rw [onePoint]
  have hzzz : onePoint.zzz = portableField.one := by rw [onePoint]
  rw [hstore, hzz, hzzz, portableField.value_mul, portableField.value_one, mul_one]

theorem oneBatch_ne_zero (ordinal : ℕ) (h : oneBatch.active ordinal = true) :
    portableField.value (leaf portableField oneBatch ordinal) ≠ 0 := by
  have hpublic : oneBatch.publicPoints ordinal = onePoint := by rw [oneBatch]
  have hnonce : oneBatch.noncePoints ordinal = onePoint := by rw [oneBatch]
  rw [leaf, if_pos h, portableField.value_mul, hpublic, hnonce, value_storeCurve_onePoint, mul_one]
  exact one_ne_zero

/-- The inverse in a batch of one lane. -/
theorem batch_inversion_exact_one :
    portableField.value
        (productInverse portableField oneBatch plainLaunch plainLaunch plainLaunch 0) =
        (portableField.value (leaf portableField oneBatch 0))⁻¹ ∧
      ∀ (w' : ℕ) (b' : Batch U256) (first' second' last' : Launch U256 w'),
        (∀ ordinal, b'.active ordinal = true →
          portableField.value (leaf portableField b' ordinal) ≠ 0) →
        b'.active 0 = true → leaf portableField b' 0 = leaf portableField oneBatch 0 →
          portableField.value (productInverse portableField b' first' second' last' 0) =
            portableField.value
              (productInverse portableField oneBatch plainLaunch plainLaunch plainLaunch 0) :=
  batch_inversion_exact portableField 1 oneBatch oneBatch_ne_zero plainLaunch plainLaunch
    plainLaunch 0 rfl

end MoMiner.Nexapow
