import MoMiner.Lib.Limbs

/-!
# Portable field arithmetic

The arithmetic of the field of secp256k1 on numbers of eight 32-bit limbs. A product is written
column by column from an accumulator of three words whose carries are normalized once per column,
and
is reduced by folding its high half.

The results are in `Nexapow.Product` and `Nexapow.Reduction`.
-/

namespace MoMiner.Nexapow

open MoMiner.Limbs

local instance neZeroEight : NeZero 8 := ⟨by decide⟩

local instance neZeroSixteen : NeZero 16 := ⟨by decide⟩

/-- The field prime. -/
def fieldPrime : ℕ := 2 ^ 256 - 2 ^ 32 - 977

def ofBool (b : Bool) : UInt32 := if b then 1 else 0

/-! ## Columns -/

structure Accumulator where
  low : UInt32 := 0
  middle : UInt32 := 0
  high : UInt32 := 0
  lowCarry : UInt32 := 0

def addValue (acc : Accumulator) (low middle high : UInt32) : Accumulator where
  low := acc.low + low
  lowCarry := acc.lowCarry + ofBool (acc.low + low < acc.low)
  middle := acc.middle + middle
  high := acc.high + (high + ofBool (acc.middle + middle < acc.middle))

def addProduct (acc : Accumulator) (a b : UInt32) : Accumulator :=
  let product := a.toUInt64 * b.toUInt64
  addValue acc product.toUInt32 (product >>> 32).toUInt32 0

/-- Add a product twice without losing its 65th bit. -/
def addDoubledProduct (acc : Accumulator) (a b : UInt32) : Accumulator :=
  let product := a.toUInt64 * b.toUInt64
  let low := product.toUInt32
  let high := (product >>> 32).toUInt32
  addValue acc (low <<< 1) ((high <<< 1) ||| (low >>> 31)) (high >>> 31)

/-- Emit the low word and normalize the carries into the next column. -/
def outputLimb (acc : Accumulator) : Accumulator × UInt32 :=
  let low := acc.middle + acc.lowCarry
  (⟨low, acc.high + ofBool (low < acc.middle), 0, 0⟩, acc.low)

def multiplyColumn (a b : Number 8) (acc : Accumulator) (column : ℕ) : Accumulator × UInt32 :=
  outputLimb
    ((columnPairs 8 column).foldl (fun acc p => addProduct acc (a.get p.1) (b.get p.2)) acc)

def multiplyWide (a b : Number 8) : Number 16 :=
  let r := scan (multiplyColumn a b) {} (List.range 15)
  ⟨r.2 ++ [r.1.low], by simp [r]⟩

/-- One term of a square: pairs of different limbs are counted twice. -/
def addSquareTerm (value : Number 8) (acc : Accumulator) (p : Fin 8 × Fin 8) : Accumulator :=
  if p.1 = p.2 then addProduct acc (value.get p.1) (value.get p.1)
  else addDoubledProduct acc (value.get p.1) (value.get p.2)

def squareColumn (value : Number 8) (acc : Accumulator) (column : ℕ) : Accumulator × UInt32 :=
  outputLimb (((columnPairs 8 column).filter fun p => p.1 ≤ p.2).foldl (addSquareTerm value) acc)

def squareWide (value : Number 8) : Number 16 :=
  let r := scan (squareColumn value) {} (List.range 15)
  ⟨r.2 ++ [r.1.low], by simp [r]⟩

/-! ## Differences -/

/-- Subtract a limb and the borrow. -/
def subtractProductLimb (borrow : UInt32) (output product : UInt32) : UInt32 × UInt32 :=
  let difference := output - product
  (ofBool (output < product) ||| ofBool (difference < borrow), difference - borrow)

/-- Subtract the limb that a column emits. -/
def subtractColumn (a b : Number 8) (s : Accumulator × UInt32) (limb : UInt32 × ℕ) :
    (Accumulator × UInt32) × UInt32 :=
  let r := multiplyColumn a b s.1 limb.2
  let d := subtractProductLimb s.2 limb.1 r.2
  ((r.1, d.1), d.2)

/-- Subtract a product; the mask is all ones when the difference is negative. -/
def subtractProductWide (output : Number 16) (a b : Number 8) : UInt32 × Number 16 :=
  let r := scan (subtractColumn a b) ({}, 0) ((output.limbs.take 15).zip (List.range 15))
  let d := subtractProductLimb r.1.2 (output.get 15) r.1.1.low
  (0 - d.1, ⟨r.2 ++ [d.2], by simp [r, output.length_eq]⟩)

/-! ## Reduction -/

/-- A limb plus 977 times a high limb, a shifted high limb and a carry. -/
def reduceLimb (carryIn : UInt32) (input : UInt32 × UInt32 × UInt32) : UInt32 × UInt32 :=
  let product := input.2.1.toUInt64 * 977
  let low₀ := product.toUInt32
  let high₀ := (product >>> 32).toUInt32
  let low₁ := low₀ + input.1
  let high₁ := high₀ + ofBool (low₁ < low₀)
  let low₂ := low₁ + input.2.2
  let high₂ := high₁ + ofBool (low₂ < low₁)
  let low₃ := low₂ + carryIn
  let high₃ := high₂ + ofBool (low₃ < low₂)
  (high₃, low₃)

/-- Fold the part above 256 bits into the limbs. -/
def foldHigh (r : Number 8) (high : UInt64) : UInt64 × Number 8 :=
  let highLow := high.toUInt32
  let highTop := (high >>> 32).toUInt32
  let first := reduceLimb 0 (r.get 0, highLow, 0)
  let rest := scan reduceLimb (first.1 + highTop * 977)
    [(r.get 1, 0, highLow), (r.get 2, 0, highTop), (r.get 3, 0, 0), (r.get 4, 0, 0),
      (r.get 5, 0, 0), (r.get 6, 0, 0), (r.get 7, 0, 0)]
  (rest.1.toUInt64, ⟨first.2 :: rest.2, by simp [rest]⟩)

/-- The test for a number that is not below the prime. -/
def notBelowPrime (r : Number 8) : Bool :=
  r.get 7 = 0xffffffff && r.get 6 = 0xffffffff && r.get 5 = 0xffffffff && r.get 4 = 0xffffffff &&
    r.get 3 = 0xffffffff && r.get 2 = 0xffffffff &&
    (r.get 1 = 0xffffffff || (r.get 1 = 0xfffffffe && r.get 0 ≥ 0xfffffc2f))

/-- A limb plus the carry in 64 bits. -/
def sumLimb (carry : UInt64) (input : UInt32 × UInt32) : UInt64 × UInt32 :=
  let sum := carry + input.1.toUInt64 + input.2.toUInt64
  (sum >>> 32, sum.toUInt32)

/-- Subtract the prime: add `2 ^ 32 + 977` and drop what is above 256 bits. -/
def subtractPrime (r : Number 8) : Number 8 :=
  let s := scan sumLimb 0 (r.limbs.zip [977, 1, 0, 0, 0, 0, 0, 0])
  ⟨s.2, by simp [s, r.length_eq]⟩

/-- Fold the high half; the first component is what is left above 256 bits. -/
def foldHalf (input : Number 16) : UInt64 × Number 8 :=
  let first := scan reduceLimb 0 ((input.limbs.take 8).zip
    ((input.limbs.drop 8).zip (0 :: (input.limbs.drop 8).take 7)))
  ((input.get 15).toUInt64 + first.1.toUInt64, ⟨first.2, by simp [first, input.length_eq]⟩)

/-- A fold that is left out when there is nothing above 256 bits. -/
def foldAgain (s : UInt64 × Number 8) : UInt64 × Number 8 :=
  if s.1 ≠ 0 then foldHigh s.2 s.1 else s

def reduce (input : Number 16) : Number 8 :=
  let s := foldHalf input
  let r := (foldAgain (foldAgain (foldHigh s.2 s.1))).2
  if notBelowPrime r then subtractPrime r else r

/-! ## The field -/

def mul (a b : Number 8) : Number 8 := reduce (multiplyWide a b)

def square (value : Number 8) : Number 8 := reduce (squareWide value)

def subtractPair (borrow : UInt32) (p : UInt32 × UInt32) : UInt32 × UInt32 :=
  subtractProductLimb borrow p.1 p.2

/-- Subtract, and restore the modulus on a borrow. -/
def sub (a b : Number 8) : Number 8 :=
  let r := scan subtractPair 0 (a.limbs.zip b.limbs)
  let mask := 0 - r.1
  let s := scan subtractPair 0 (r.2.zip [977 &&& mask, 1 &&& mask, 0, 0, 0, 0, 0, 0])
  ⟨s.2, by simp [s, r, a.length_eq, b.length_eq]⟩

/-- The correction of a difference of products: nothing, or `2 ^ 512` modulo the prime. -/
def correction (mask : UInt32) : Number 8 :=
  ⟨[0x000e90a1 &&& mask, 0x000007a2 &&& mask, 0x00000001 &&& mask, 0, 0, 0, 0, 0], rfl⟩

def mulSubMul (a b c d : Number 8) : Number 8 :=
  let s := subtractProductWide (multiplyWide a b) c d
  sub (reduce s.2) (correction s.1)

end MoMiner.Nexapow
