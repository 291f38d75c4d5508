import Mathlib.Data.Rat.Floor
import MoMiner.Lib.Bytes

/-!
# JavaScript values

The controller is JavaScript: it inspects parsed JSON with `typeof`, property reads and a few
regular expressions. This module has the values and those inspections.

**Numbers.** A finite number is represented by the decimal that `String()` prints for it. A
number is a safe integer, positive, or equal to a small integer exactly when that decimal is, and
the conversions of `helper/hash.js` work on the printed decimal anyway. `JSON.parse` yields
infinities (`1e999`) but no NaN.

**Objects.** A parsed object has each key once, so the first entry of a key is its value. A
missing property is `none`.
-/

namespace MoMiner.Js

open MoMiner.Bytes

/-! ## Numbers -/

inductive Number
  | finite (value : ℚ)
  | infinite (negative : Bool)
  deriving DecidableEq

/-- `Number.MAX_SAFE_INTEGER`. -/
def maxSafeInteger : ℕ := 2 ^ 53 - 1

/-- The integer a number is, when `Number.isSafeInteger` holds of it. -/
def Number.safe? : Number → Option ℤ
  | .finite q => if q.den = 1 ∧ q.num.natAbs ≤ maxSafeInteger then some q.num else none
  | .infinite _ => none

/-- A safe integer that is not negative. -/
def Number.safeNat? (n : Number) : Option ℕ :=
  n.safe?.bind fun i => if 0 ≤ i then some i.toNat else none

theorem Number.safeNat?_eq_some {m : Number} {n : ℕ} :
    m.safeNat? = some n ↔ m = .finite n ∧ n ≤ maxSafeInteger := by
  cases m with
  | infinite => simp [safeNat?, safe?]
  | finite q =>
    constructor
    · intro h
      simp only [safeNat?, safe?, Option.bind_eq_some_iff, Option.ite_none_right_eq_some,
        Option.some.injEq] at h
      obtain ⟨_, ⟨⟨hden, hmax⟩, rfl⟩, hpos, rfl⟩ := h
      have hq : q = ((q.num.toNat : ℕ) : ℚ) := by
        rw [← Int.cast_natCast, Int.toNat_of_nonneg hpos, Rat.den_eq_one_iff q |>.mp hden]
      exact ⟨congrArg _ hq, by omega⟩
    · rintro ⟨h, hn⟩
      cases h
      simp [safeNat?, safe?, hn]

/-- A number with `Number.isFinite`. -/
def Number.finite? : Number → Option ℚ
  | .finite q => some q
  | .infinite _ => none

instance (n : ℕ) : OfNat Number n := ⟨.finite n⟩

/-! ## Values -/

inductive Json
  | null
  | bool (b : Bool)
  | num (n : Number)
  | str (s : String)
  | arr (items : List Json)
  | obj (fields : List (String × Json))

namespace Json

/-- `value[key]`. -/
def get? : Json → String → Option Json
  | .obj fields, key => fields.lookup key
  | _, _ => none

/-- `{...value, [key]: entry}`. -/
def set : Json → String → Json → Json
  | .obj fields, key, entry => .obj ((key, entry) :: fields.filter (·.1 ≠ key))
  | j, _, _ => j

def str? : Json → Option String
  | .str s => some s
  | _ => none

def num? : Json → Option Number
  | .num n => some n
  | _ => none

def arr? : Json → Option (List Json)
  | .arr items => some items
  | _ => none

def isObject : Json → Bool
  | .obj _ => true
  | _ => false

def isArray : Json → Bool
  | .arr _ => true
  | _ => false

def isString : Json → Bool
  | .str _ => true
  | _ => false

def isBool : Json → Bool
  | .bool _ => true
  | _ => false

/-- `value === text`. -/
def isText (text : String) : Json → Bool
  | .str s => s = text
  | _ => false

/-- `value === n`, for an integer `n`. -/
def isNumber (n : ℕ) : Json → Bool
  | .num m => m = .finite n
  | _ => false

/-- `value === true`. -/
def isTrue : Json → Bool
  | .bool b => b
  | _ => false

/-- `value === null || value === undefined`. -/
def isNullish : Option Json → Bool
  | none | some .null => true
  | _ => false

/-- `Object.hasOwn(value, key)`. -/
def has (j : Json) (key : String) : Bool := (j.get? key).isSome

/-- A property that is a string. -/
def text? (j : Json) (key : String) : Option String := (j.get? key).bind str?

/-- A property that is an array. -/
def items? (j : Json) (key : String) : Option (List Json) := (j.get? key).bind arr?

/-- A property that is an object. -/
def object? (j : Json) (key : String) : Option Json := (j.get? key).filter isObject

/-- `json.method === name`. -/
def methodIs (j : Json) (name : String) : Bool := (j.get? "method").any (isText name)

theorem get?_set_self {j : Json} (h : j.isObject) (key : String) (entry : Json) :
    (j.set key entry).get? key = some entry := by
  cases j <;> simp_all [set, get?, isObject]

theorem get?_set_of_ne {key other : String} (h : other ≠ key) (j entry : Json) :
    (j.set key entry).get? other = j.get? other := by
  cases j with
  | obj fields =>
    simp only [set, get?, List.lookup_cons, beq_eq_false_iff_ne.mpr h]
    induction fields with
    | nil => rfl
    | cons p fields ih =>
      obtain ⟨k, v⟩ := p
      by_cases hk : k = key
      · subst hk
        simpa [List.lookup_cons, beq_eq_false_iff_ne.mpr h] using ih
      · by_cases ho : other = k
        · simp [ho, hk]
        · simpa [List.lookup_cons, hk, beq_eq_false_iff_ne.mpr ho] using ih
  | _ => rfl

end Json

/-- A value that is a number or a string, as identifiers and difficulties are. -/
inductive Scalar
  | number (n : Number)
  | text (s : String)
  deriving DecidableEq

def Json.scalar? : Json → Option Scalar
  | .num n => some (.number n)
  | .str s => some (.text s)
  | _ => none

/-- `String(value)`, for a string or a safe integer. -/
def Scalar.toText : Scalar → String
  | .number (.finite q) => toString q.num
  | .number (.infinite negative) => if negative then "-Infinity" else "Infinity"
  | .text s => s

/-! ## Text -/

/-- The length of a string, in UTF-16 code units. -/
def jsLength (s : String) : ℕ := (s.toList.map fun c => if c.toNat < 0x10000 then 1 else 2).sum

/-- `text.toLowerCase()`; names of algorithms are ASCII. -/
def toLowerCase (s : String) : String := String.ofList (s.toList.map Char.toLower)

/-- No character outside `[0-9a-f]`, in either case. -/
def isHex (s : String) : Bool := s.toList.all fun c => (hexValue c).isSome

/-- `/^\d+$/`. -/
def isDigits (s : String) : Bool := s ≠ "" && s.toList.all Char.isDigit

/-- The value of a string of decimal digits. -/
def decimalValue (s : String) : ℕ := s.toList.foldl (fun v c => 10 * v + (c.toNat - 48)) 0

/-- The value of a string of hexadecimal digits. -/
def hexNumber (s : String) : ℕ :=
  s.toList.foldl (fun v c => 16 * v + (hexValue c).getD 0) 0

/-- `text.replace(/^0x/i, "")`. -/
def stripHexMark (s : String) : String :=
  match s.toList with
  | '0' :: 'x' :: rest | '0' :: 'X' :: rest => String.ofList rest
  | _ => s

/-- `text.padStart(width, fill)`, for a fill of one character. -/
def padStart (width : ℕ) (fill : Char) (s : String) : String :=
  String.ofList (List.replicate (width - s.length) fill ++ s.toList)

/-- `text.padEnd(width, fill)`, for a fill of one character. -/
def padEnd (width : ℕ) (fill : Char) (s : String) : String :=
  String.ofList (s.toList ++ List.replicate (width - s.length) fill)

/-- `text.slice(from, to)`. -/
def slice (i j : ℕ) (s : String) : String := String.ofList ((s.toList.take j).drop i)

/-- `digit.repeat(count)`. -/
def repeatChar (count : ℕ) (c : Char) : String := String.ofList (List.replicate count c)

/-- `value.toString(16)`. -/
def toHexString (n : ℕ) : String := String.ofList (Nat.toDigits 16 n)

end MoMiner.Js
