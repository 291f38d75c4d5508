import Mathlib.Data.Fin.VecNotation

/-!
# The Keccak permutation over any lanes

A round of Keccak-f[1600] acts on 25 lanes with four operations: exclusive or, and, complement and
rotation. Here the lanes are of any type, so that representations of 64-bit lanes are compared by a
map between their operations.

**Main results.** A map that respects the operations respects a round (`fullRound_map`). If complements
can be pulled out of the operations, theta, rho and pi of a state with some lanes complemented are
those of the plain state with other lanes complemented, and which lanes these are is computed by the
same steps on the bits that say so (`linear_hide`).
-/

namespace MoMiner.Keccak

/-- The lanes of a state, with lane `x + 5 * y` in column `x` and row `y`. -/
abbrev State (L : Type*) := Fin 25 → L

/-- The operations on lanes. -/
structure LaneOps (L : Type*) where
  xor : L → L → L
  and : L → L → L
  not : L → L
  rotl : ℕ → L → L

/-! ## Coordinates -/

theorem index_lt (x y : Fin 5) : x.val + 5 * y.val < 25 := by omega

theorem column_lt (k : Fin 25) : k.val % 5 < 5 := Nat.mod_lt _ (by decide)

theorem row_lt (k : Fin 25) : k.val / 5 < 5 := by omega

def index (x y : Fin 5) : Fin 25 := ⟨x.val + 5 * y.val, index_lt x y⟩

def column (k : Fin 25) : Fin 5 := ⟨k.val % 5, column_lt k⟩

def row (k : Fin 25) : Fin 5 := ⟨k.val / 5, row_lt k⟩

/-- The rotation of each lane. -/
def offset : Fin 25 → ℕ :=
  ![0, 1, 62, 28, 27, 36, 44, 6, 55, 20, 3, 10, 43, 25, 39, 41, 45, 15, 21, 8, 18, 2, 61, 56, 14]

theorem offset_lt (k : Fin 25) : offset k < 64 := by
  revert k
  decide

/-! ## A round -/

section

variable {L : Type*} (o : LaneOps L)

def put (st : State L) (k : Fin 25) (v : L) : State L := fun j => if j = k then v else st j

def parity (st : State L) (x : Fin 5) : L :=
  o.xor (o.xor (o.xor (o.xor (st (index x 0)) (st (index x 1))) (st (index x 2))) (st (index x 3)))
    (st (index x 4))

/-- What theta adds to a column. -/
def spread (st : State L) (x : Fin 5) : L :=
  o.xor (parity o st (x + 4)) (o.rotl 1 (parity o st (x + 1)))

def theta (st : State L) : State L := fun k => o.xor (st k) (spread o st (column k))

/-- Where the lane at a place comes from. -/
def origin (k : Fin 25) : Fin 25 := index (column k + 3 * row k) (column k)

def rhoPi (st : State L) : State L := fun k => o.rotl (offset (origin k)) (st (origin k))

def chi (st : State L) : State L := fun k =>
  o.xor (st k)
    (o.and (o.not (st (index (column k + 1) (row k)))) (st (index (column k + 2) (row k))))

def iota (rc : L) (st : State L) : State L := put st 0 (o.xor (st 0) rc)

def fullRound (rc : L) (st : State L) : State L := iota o rc (chi o (rhoPi o (theta o st)))

/-- A lane after theta, rho and pi, without the inner bracket of theta. -/
theorem rhoPi_theta {L : Type*} (o : LaneOps L)
    (assoc : ∀ a b c, o.xor (o.xor a b) c = o.xor a (o.xor b c)) (st : State L) (k : Fin 25) :
    rhoPi o (theta o st) k =
      o.rotl (offset (origin k)) (o.xor
        (o.xor (st (origin k)) (parity o st (column (origin k) + 4)))
        (o.rotl 1 (parity o st (column (origin k) + 1)))) := by
  rw [assoc]
  rfl

end

/-! ## Maps between lanes -/

section

variable {L M : Type*} {o : LaneOps L} {o' : LaneOps M} {f : L → M}

/-- A map that respects the operations. -/
structure LaneOps.Hom (o : LaneOps L) (o' : LaneOps M) (f : L → M) : Prop where
  xor : ∀ a b, f (o.xor a b) = o'.xor (f a) (f b)
  and : ∀ a b, f (o.and a b) = o'.and (f a) (f b)
  not : ∀ a, f (o.not a) = o'.not (f a)
  rotl : ∀ n < 64, ∀ a, f (o.rotl n a) = o'.rotl n (f a)

theorem put_map (st : State L) (k : Fin 25) (v : L) :
    put (f ∘ st) k (f v) = f ∘ put st k v := by
  funext j
  simp only [put, Function.comp_apply, apply_ite f]

theorem parity_map (h : o.Hom o' f) (st : State L) (x : Fin 5) :
    parity o' (f ∘ st) x = f (parity o st x) := by
  simp only [parity, Function.comp_apply, h.xor]

theorem theta_map (h : o.Hom o' f) (st : State L) : theta o' (f ∘ st) = f ∘ theta o st := by
  funext k
  simp only [theta, spread, parity_map h, Function.comp_apply, h.xor, h.rotl 1 (by decide)]

theorem rhoPi_map (h : o.Hom o' f) (st : State L) : rhoPi o' (f ∘ st) = f ∘ rhoPi o st := by
  funext k
  simp only [rhoPi, Function.comp_apply, h.rotl _ (offset_lt _)]

theorem chi_map (h : o.Hom o' f) (st : State L) : chi o' (f ∘ st) = f ∘ chi o st := by
  funext k
  simp only [chi, Function.comp_apply, h.xor, h.and, h.not]

theorem iota_map (h : o.Hom o' f) (rc : L) (st : State L) :
    iota o' (f rc) (f ∘ st) = f ∘ iota o rc st := by
  rw [iota, iota, ← put_map, h.xor, Function.comp_apply]

/-- **A map that respects the operations respects a round.** -/
theorem fullRound_map (h : o.Hom o' f) (rc : L) (st : State L) :
    fullRound o' (f rc) (f ∘ st) = f ∘ fullRound o rc st := by
  rw [fullRound, fullRound, theta_map h, rhoPi_map h, chi_map h, iota_map h]

end

/-! ## Complemented lanes -/

section

variable {L : Type*} {o : LaneOps L}

/-- Complements can be pulled out of exclusive or and rotation. -/
structure LaneOps.Complements (o : LaneOps L) : Prop where
  not_not : ∀ a, o.not (o.not a) = a
  not_xor : ∀ a b, o.xor (o.not a) b = o.not (o.xor a b)
  xor_not : ∀ a b, o.xor a (o.not b) = o.not (o.xor a b)
  rotl_not : ∀ n a, o.rotl n (o.not a) = o.not (o.rotl n a)

def LaneOps.notIf (o : LaneOps L) (b : Bool) (a : L) : L := if b then o.not a else a

/-- A state with some of its lanes complemented. -/
def hide (o : LaneOps L) (mask : State Bool) (st : State L) : State L := fun k =>
  o.notIf (mask k) (st k)

/-- Bits as lanes, which rotations do not change. -/
def bits : LaneOps Bool := ⟨Bool.xor, Bool.and, Bool.not, fun _ b => b⟩

theorem xor_notIf (h : o.Complements) (b c : Bool) (x y : L) :
    o.xor (o.notIf b x) (o.notIf c y) = o.notIf (bits.xor b c) (o.xor x y) := by
  cases b <;> cases c <;> simp [LaneOps.notIf, bits, h.not_xor, h.xor_not, h.not_not]

theorem rotl_notIf (h : o.Complements) (n : ℕ) (b : Bool) (x : L) :
    o.rotl n (o.notIf b x) = o.notIf b (o.rotl n x) := by
  cases b <;> simp [LaneOps.notIf, h.rotl_not]

/-- Complementing the same lanes twice. -/
theorem hide_hide (h : o.Complements) (mask : State Bool) (st : State L) :
    hide o mask (hide o mask st) = st := by
  funext k
  simp only [hide, LaneOps.notIf]
  split_ifs
  · exact h.not_not (st k)
  · rfl

theorem parity_hide (h : o.Complements) (mask : State Bool) (st : State L) (x : Fin 5) :
    parity o (hide o mask st) x = o.notIf (parity bits mask x) (parity o st x) := by
  simp only [parity, hide, xor_notIf h]

theorem theta_hide (h : o.Complements) (mask : State Bool) (st : State L) :
    theta o (hide o mask st) = hide o (theta bits mask) (theta o st) := by
  funext k
  simp only [theta, spread, parity_hide h, hide, xor_notIf h, rotl_notIf h]
  rfl

theorem rhoPi_hide (h : o.Complements) (mask : State Bool) (st : State L) :
    rhoPi o (hide o mask st) = hide o (rhoPi bits mask) (rhoPi o st) := by
  funext k
  simp only [rhoPi, hide, rotl_notIf h]
  rfl

/-- **Theta, rho and pi move the complements as they move bits.** -/
theorem linear_hide (h : o.Complements) (mask : State Bool) (st : State L) :
    rhoPi o (theta o (hide o mask st)) =
      hide o (rhoPi bits (theta bits mask)) (rhoPi o (theta o st)) := by
  rw [theta_hide h, rhoPi_hide h]

end

/-! ## Rotated words -/

/-- The bits of a word that is rotated by two shifts. -/
theorem getLsbD_rotate {w : ℕ} (v : BitVec w) {n i : ℕ} (hi : i < w) :
    ((v <<< n) ||| (v >>> (w - n))).getLsbD i =
      if i < n then v.getLsbD (w - n + i) else v.getLsbD (i - n) := by
  simp only [BitVec.getLsbD_or, BitVec.getLsbD_shiftLeft, BitVec.getLsbD_ushiftRight, hi,
    decide_true, Bool.true_and]
  split_ifs with hin
  · simp [hin]
  · simp [hin, BitVec.getLsbD_of_ge v (w - n + i) (by omega)]

/-! ## Words in halves -/

theorem low_join (low high : BitVec 32) :
    (low.setWidth 64 ||| (high.setWidth 64 <<< 32)).setWidth 32 = low := by
  refine BitVec.eq_of_getLsbD_eq fun i hi => ?_
  simp [hi, show i < 64 by omega]

theorem high_join (low high : BitVec 32) :
    ((low.setWidth 64 ||| (high.setWidth 64 <<< 32)) >>> 32).setWidth 32 = high := by
  refine BitVec.eq_of_getLsbD_eq fun i hi => ?_
  simp [hi, show 32 + i < 64 by omega, BitVec.getLsbD_of_ge low (32 + i) (by omega)]

theorem join_halves (v : BitVec 64) :
    (v.setWidth 32).setWidth 64 ||| (((v >>> 32).setWidth 32).setWidth 64 <<< 32) = v := by
  refine BitVec.eq_of_getLsbD_eq fun i hi => ?_
  simp only [BitVec.getLsbD_or, BitVec.getLsbD_setWidth, BitVec.getLsbD_shiftLeft,
    BitVec.getLsbD_ushiftRight]
  rcases lt_or_ge i 32 with hlow | hhigh
  · simp [hi, hlow]
  · simp [hi, not_lt.mpr hhigh, show i - 32 < 32 by omega, show i - 32 < 64 by omega,
      show 32 + (i - 32) = i by omega]

end MoMiner.Keccak
