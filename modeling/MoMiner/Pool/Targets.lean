import MoMiner.Js.Value
import MoMiner.Lib.Fallible

/-!
# Targets and difficulties

The conversions of `helper/hash.js`: a share target is a hexadecimal boundary, a difficulty is a
decimal, and each dialect has its own numerator between the two. Every conversion that can fail
does so on the text of its argument, before any arithmetic.
-/

namespace MoMiner.Pool

open MoMiner.Bytes MoMiner.Js

/-! ## Decimal literals -/

/-- The digits of a decimal literal before and after the point, and its exponent. -/
structure Decimal where
  whole : List Char
  fraction : List Char
  exponent : ℤ

def parseExponent (digits : List Char) : Option ℤ :=
  let value (ds : List Char) : Option ℤ :=
    if isDigits (String.ofList ds) then some (decimalValue (String.ofList ds)) else none
  match digits with
  | '+' :: ds => value ds
  | '-' :: ds => (value ds).map (-·)
  | ds => value ds

/-- `/^(?:\d+(?:\.\d*)?|\.\d+)(?:e[+-]?\d+)?$/i`. -/
def parseDecimal (s : String) : Option Decimal :=
  let notE (c : Char) : Bool := c ≠ 'e' && c ≠ 'E'
  let mantissa := s.toList.takeWhile notE
  let whole := mantissa.takeWhile (· ≠ '.')
  let point := mantissa.dropWhile (· ≠ '.')
  let fraction := point.drop 1
  let exponent := match s.toList.dropWhile notE with
    | [] => some 0
    | _ :: digits => parseExponent digits
  if whole.all Char.isDigit && fraction.all Char.isDigit && (whole ≠ [] || fraction ≠ []) then
    exponent.map fun e => ⟨whole, fraction, e⟩
  else none

def Decimal.digits (d : Decimal) : List Char := (d.whole ++ d.fraction).dropWhile (· = '0')

def Decimal.value (d : Decimal) : ℚ :=
  decimalValue (String.ofList d.digits) * 10 ^ (d.exponent - d.fraction.length)

/-- `decimalToRatio`, on the unsigned literals and finite numbers its callers let through. -/
def decimalToRatio : Scalar → Except String ℚ
  | .number n => match n.finite? with
    | none => .error "Invalid decimal value"
    | some q => .ok q
  | .text s => do
    throwIf (4096 < jsLength s) "Decimal value is too large"
    match parseDecimal s with
    | none => .error "Invalid decimal value"
    | some d =>
      throwIf (1000 < d.exponent ∨ d.exponent < -1000 ∨ 1000 < d.digits.length ∨
        1000 < d.fraction.length) "Decimal value is too large"
      return d.value

/-! ## Targets from difficulties -/

def uint256Max : ℕ := 2 ^ 256 - 1

def ethStratumDiff1Target : ℕ := 0xffff * 2 ^ 208

/-- A target clamped to 256 bits, as 64 digits. -/
def target256ToHex (target : ℕ) : String := String.ofList (hexFixed 64 (min target uint256Max))

/-- `⌊numerator / difficulty⌋` as a target, with a dialect's answer for no difficulty. -/
def quotientTarget (numerator : ℕ) (difficulty : ℚ) (none : ℕ) : String :=
  target256ToHex (if difficulty ≤ 0 then none else (numerator / difficulty).floor.toNat)

def ethDiff2Target (difficulty : ℚ) (multiplier : ℕ) : String :=
  quotientTarget (ethStratumDiff1Target * multiplier) difficulty 0

def fullDiff2Target (difficulty : ℚ) (base : ℕ) : String :=
  quotientTarget base difficulty uint256Max

/-- A decimal target, as the 256-bit boundary it denotes. -/
def decimalTargetToHex (value : ℕ) : String := target256ToHex value

/-- `diff2target`: the compact little-endian target of an integer difficulty. -/
def diff2target (difficulty : ℕ) : String :=
  if difficulty = 0 then "0000000000000000"
  else
    let hex := reverseHex (hexFixed 16 ((2 ^ 64 - 1) / difficulty))
    String.ofList (if hex.take 8 = List.replicate 8 '0' then hex.drop 8 else hex)

/-! ## Work from targets -/

def targetHex (target : String) (maxLength : ℕ) : Except String String := do
  let hex := stripHexMark target
  throwIf (hex = "" ∨ maxLength < jsLength hex ∨ ¬isHex hex) "Invalid target"
  return hex

def target2diff (target : String) : Except String ℕ := do
  let hex ← targetHex target 16
  throwIf (hex.length % 2 ≠ 0) "Invalid target"
  let wide := if hex.length = 8 then "00000000" ++ hex else hex
  return (2 ^ 64 - 1) / hexNumber (String.ofList (reverseHex wide.toList))

def kawpowTarget2diff (target : String) : Except String ℕ := do
  let hex ← targetHex target 64
  return (2 ^ 64 - 1) / hexNumber (padEnd 16 '0' (slice 0 16 hex))

def parseTarget256 (target : String) : Except String ℕ := do
  let hex ← targetHex target 64
  return hexNumber hex

def target256ToWork (target : String) : Except String ℕ := do
  let div ← parseTarget256 target
  return uint256Max / div

/-! ## PearlHash -/

/-- The matrix shape of a PearlHash job. -/
structure PearlShape where
  m : ℕ
  n : ℕ
  k : ℕ
  rank : ℕ
  deriving DecidableEq, Repr

def pearlhashEffectiveK (k rank : ℕ) : Except String ℕ := do
  throwIf (k < 1024 ∨ 0x10000 < k ∨ k % 64 ≠ 0) "Invalid PearlHash K"
  throwIf (rank < 128 ∨ 1024 < rank ∨ rank &&& (rank - 1) ≠ 0) "Invalid PearlHash rank"
  throwIf (k < 16 * rank ∨ 4 * rank * rank < k) "Invalid PearlHash K/rank"
  return k - k % rank

def pearlhashTarget (baseTarget : String) (k rank : ℕ) : Except String String := do
  throwIf (rank < 128) "PearlHash certificate version 3 requires rank >= 128"
  let base ← parseTarget256 baseTarget
  let effectiveK ← pearlhashEffectiveK k rank
  return target256ToHex (base * (256 * (effectiveK / rank * 128)))

def pearlhashTargetWork (target : String) (k rank : ℕ) : Except String ℕ := do
  let effectiveK ← pearlhashEffectiveK k rank
  let work ← target256ToWork target
  return work * (256 * (effectiveK / rank * 128))

end MoMiner.Pool
