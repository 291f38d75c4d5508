import MoMiner.Js.Value

/-!
# The text of a number

`String(value)` shows a double by the shortest decimal that rounds to it: the digits of that decimal
and the place of its point decide between plain digits, a point and an exponent.
-/

namespace MoMiner.Js

/-- The shortest decimal of a double that is not zero: `0.d₁d₂…d_k · 10 ^ point`. -/
structure ShortestDecimal where
  negative : Bool
  digits : List Char
  point : ℤ
  isDigit : ∀ c ∈ digits, c.isDigit
  ne_nil : digits ≠ []
  length_le : digits.length ≤ 17
  point_ge : -323 ≤ point
  point_le : point ≤ 309

/-- A value of type `number`. -/
inductive Double
  | zero
  | nonzero (d : ShortestDecimal)
  | infinite (negative : Bool)
  | nan

namespace ShortestDecimal

/-- The digits as an integer, scaled to the place of the point. -/
def magnitude (d : ShortestDecimal) : ℚ :=
  decimalValue (String.ofList d.digits) * 10 ^ (d.point - d.digits.length)

def value (d : ShortestDecimal) : ℚ := if d.negative then -d.magnitude else d.magnitude

/-- The text without its sign. -/
def unsignedText (d : ShortestDecimal) : List Char :=
  let k := d.digits.length
  let n := d.point
  if -5 ≤ n ∧ n ≤ 21 then
    if k ≤ n then d.digits ++ List.replicate (n - k).toNat '0'
    else if 0 < n then d.digits.take n.toNat ++ '.' :: d.digits.drop n.toNat
    else '0' :: '.' :: (List.replicate (-n).toNat '0' ++ d.digits)
  else
    let exponent := (if n - 1 < 0 then '-' else '+') :: Nat.toDigits 10 (n - 1).natAbs
    if k = 1 then d.digits ++ 'e' :: exponent
    else d.digits.take 1 ++ '.' :: (d.digits.drop 1 ++ 'e' :: exponent)

def text (d : ShortestDecimal) : String :=
  String.ofList (if d.negative then '-' :: d.unsignedText else d.unsignedText)

end ShortestDecimal

namespace Double

/-- `Number.isFinite(value)`. -/
def isFinite : Double → Bool
  | zero | nonzero _ => true
  | infinite _ | nan => false

/-- `value > 0`. -/
def isPositive : Double → Bool
  | nonzero d => !d.negative
  | infinite negative => !negative
  | zero | nan => false

/-- The number that the text of a finite double denotes. -/
def value : Double → ℚ
  | nonzero d => d.value
  | _ => 0

/-- `String(value)`. -/
def text : Double → String
  | zero => "0"
  | nonzero d => d.text
  | infinite negative => if negative then "-Infinity" else "Infinity"
  | nan => "NaN"

end Double

end MoMiner.Js
