import Mathlib.Algebra.Group.Nat.Defs
import Mathlib.Data.Nat.Notation

/-!
# Polynomials over the Octopus field

Octopus evaluates polynomials of 1024 coefficients in a prime field. The portable kernel runs
Horner's loop with a reduction by a reciprocal; the matrix kernels split coefficients and powers of
the point into three signed digits, multiply six planes of 8-bit digits, and recombine and
normalize the six sums.
-/

namespace MoMiner.Octopus

/-- The field prime, `MOD`. -/
def modulus : ℕ :=
  1032193

/-- A field value in its canonical form. -/
structure Residue where
  value : UInt32
  lt : value.toNat < modulus

/-- The number of coefficients, and of columns and terms of the matrix product. -/
def polynomialSize : ℕ :=
  1024

/-! ## Horner's loop -/

/-- Reduce a bounded product: a reciprocal gives a quotient that is at most one low. -/
def modField (value : UInt64) : UInt32 :=
  let productHigh := ((value.toUInt32.toUInt64 * 2130438) >>> 32).toUInt32
  let quotient := (productHigh + (value >>> 32).toUInt32 * 2130438) >>> 9
  let remainder := (value - quotient.toUInt64 * 1032193).toUInt32
  if remainder ≥ 1032193 then remainder - 1032193 else remainder

/-- Multiply and add in the field, as the compatibility builds do it. -/
def madField (a b c : UInt32) : UInt32 :=
  modField (a.toUInt64 * b.toUInt64 + c.toUInt64)

/-- Horner's loop, from the last coefficient to the first. -/
def horner (x : UInt32) (coefficients : List UInt32) : UInt32 :=
  coefficients.foldr (fun term value => madField value x term) 0

/-! ## Digits -/

/-- The signed digit of one turn of the splitting loop. -/
def splitDigit (remaining : UInt32) : Int32 :=
  let digit := (remaining &&& 127).toInt32
  if digit ≥ 64 then digit - 128 else digit

/-- What the turn leaves for the next one. -/
def splitRest (remaining : UInt32) : UInt32 :=
  ((remaining.toInt32 - splitDigit remaining) / 128).toUInt32

/-- The six planes of a field value: three signed digits and their pairwise sums. -/
def nativeSplitField (value : UInt32) : Vector Int8 6 :=
  let limb₀ := (splitDigit value).toInt8
  let limb₁ := (splitDigit (splitRest value)).toInt8
  let limb₂ := (splitDigit (splitRest (splitRest value))).toInt8
  #v[limb₀, limb₁, limb₂, (limb₀.toInt32 + limb₁.toInt32).toInt8,
    (limb₀.toInt32 + limb₂.toInt32).toInt8, (limb₁.toInt32 + limb₂.toInt32).toInt8]

/-- The weight of a plane in the recombination. -/
def nativeWeight (product : Fin 6) : Int64 :=
  let b : Int64 := 128
  let b2 := b * b
  let b3 := b2 * b
  let b4 := b2 * b2
  match product with
  | 0 => 1 - b - b2
  | 1 => -b + b2 - b3
  | 2 => -b2 - b3 + b4
  | 3 => b
  | 4 => b2
  | 5 => b3

/-! ## The matrix product -/

/-- The powers of the point, from `power` on. -/
def powers (x : UInt32) : ℕ → UInt64 → List UInt32
  | 0, _ => []
  | count + 1, power => power.toUInt32 :: powers x count (power * x.toUInt64 % 1032193)

/-- Add one product of digits to a 32-bit accumulator. -/
def dotStep (product : Fin 6) (accumulator : Int32) (p : Vector Int8 6 × Vector Int8 6) : Int32 :=
  accumulator + (p.1.get product).toInt32 * (p.2.get product).toInt32

/-- The 32-bit dot product of one plane. -/
def dotProduct (product : Fin 6) (a b : List (Vector Int8 6)) : Int32 :=
  (a.zip b).foldl (dotStep product) 0

/-- The weighted sum of the dot products of some planes. -/
def weightedTotal (planes : List (Fin 6)) (a b : List (Vector Int8 6)) : Int64 :=
  planes.foldl (fun total product =>
    total + (dotProduct product a b).toInt64 * nativeWeight product) 0

/-- The weighted sum of all six planes for one polynomial and one point. -/
def nativeTotal (x : UInt32) (coefficients : List UInt32) : Int64 :=
  weightedTotal (List.finRange 6) (coefficients.map nativeSplitField)
    ((powers x polynomialSize 1).map nativeSplitField)

/-! ## Normalization -/

/-- The signed remainder, made nonnegative. -/
def signedRemainder (total : Int64) : Int32 :=
  let fieldValue := total % 1032193
  (if fieldValue < 0 then fieldValue + 1032193 else fieldValue).toInt32

def nativeModMask : ℕ :=
  2 ^ 20 - 1

def nativeModFoldFactor : ℕ :=
  2 ^ 14 - 1

def fold64 (value : UInt64) : UInt64 :=
  let high := value >>> 20
  (value &&& (0xfffff : UInt64)) + ((high <<< 14) - high)

def fold32 (reduced : UInt32) : UInt32 :=
  let high := reduced >>> 20
  (reduced &&& (0xfffff : UInt32)) + ((high <<< 14) - high)

/-- Five folds, the last two of them in 32 bits, and one conditional subtraction. -/
def nativeReduce (total : Int64) : Int32 :=
  let value := fold64 (fold64 (fold64 total.toUInt64))
  let reduced := fold32 (fold32 value.toUInt32)
  (if reduced ≥ 1032193 then reduced - 1032193 else reduced).toInt32

/-- The largest value of a fold of the numbers up to `max`. -/
def nativeMaxAfterFold (max : ℕ) : ℕ :=
  let quotient := max >>> 20
  let remainder := max &&& nativeModMask
  let lastFull :=
    if quotient = 0 then remainder else (quotient - 1) * nativeModFoldFactor + nativeModMask
  let tail := quotient * nativeModFoldFactor + remainder
  if lastFull > tail then lastFull else tail

def nativeMaxTotal : ℕ :=
  polynomialSize * (modulus - 1) * (modulus - 1)

end MoMiner.Octopus
