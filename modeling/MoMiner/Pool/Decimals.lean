import MoMiner.Js.NumberText
import MoMiner.Js.Text
import MoMiner.Pool.Targets
import MoMiner.Pool.Thresholds

/-!
# Exact decimal difficulties

`decimalToRatio` of `helper/hash.js` reads a decimal as a pair of integers, and the targets of a
difficulty are quotients of that pair. Here the pair is compared with the number that the text
denotes, and the targets with the rounded quotient of that number.

Main result: `exact_difficulties`.
-/

namespace MoMiner.Pool.Decimals

open MoMiner.Bytes MoMiner.Js

/-! ## The conversions -/

/-- A value handed to the conversions, by its `typeof`. -/
inductive Value
  | text (s : String)
  | number (x : Double)
  | bigint (z : ℤ)
  | other

/-- `String(value)`, after the checks of the type. -/
def Value.raw : Value → Except String String
  | .text s => .ok s
  | .number x => if x.isFinite then .ok x.text else .error "Invalid decimal value"
  | .bigint z => .ok (toString z)
  | .other => .error "Invalid decimal value"

/-- `/^([+-])?(?:(\d+)(?:\.(\d*))?|\.(\d+))(?:e([+-]?\d+))?$/`, with the sign. -/
def matchDecimal : List Char → Option (Bool × Decimal)
  | '+' :: text => (parseDecimal (String.ofList text)).map (false, ·)
  | '-' :: text => (parseDecimal (String.ofList text)).map (true, ·)
  | text => (parseDecimal (String.ofList text)).map (false, ·)

/-- The pair of a decimal: the digits without the point, and the powers of ten. -/
def ratio (negative : Bool) (d : Decimal) : ℤ × ℤ :=
  let digits : ℤ := decimalValue (String.ofList d.digits)
  let scale : ℤ := 10 ^ d.fraction.length
  let numerator := if 0 < d.exponent then digits * 10 ^ d.exponent.toNat else digits
  let denominator := if d.exponent < 0 then scale * 10 ^ (-d.exponent).toNat else scale
  (if negative then -numerator else numerator, denominator)

def decimalToRatio (value : Value) : Except String (ℤ × ℤ) := do
  let raw ← value.raw
  throwIf (4096 < jsLength raw) "Decimal value is too large"
  match matchDecimal (lowerCase (trim raw.toList)) with
  | none => .error "Invalid decimal value"
  | some (negative, d) =>
    throwIf (1000 < d.exponent ∨ d.exponent < -1000 ∨ 1000 < d.digits.length ∨
      1000 < d.fraction.length) "Decimal value is too large"
    return ratio negative d

def ethDiff2Target (diff : Value) (multiplier : ℤ) : Except String String := do
  throwIf (multiplier ≤ 0) "Eth difficulty multiplier must be a positive bigint"
  let (numerator, denominator) ← decimalToRatio diff
  if numerator ≤ 0 then return repeatChar 64 '0'
  return target256ToHex ((ethStratumDiff1Target : ℤ) * multiplier * denominator / numerator).toNat

def fullDiff2Target (diff : Value) (base : ℤ) : Except String String := do
  throwIf (base ≤ 0) "Full difficulty base must be a positive bigint"
  let (numerator, denominator) ← decimalToRatio diff
  if numerator ≤ 0 then return target256ToHex uint256Max
  return target256ToHex (base * denominator / numerator).toNat

/-- `positiveDifficulty`, where `number` is `Number(text)` on a decimal literal. -/
def positiveDifficulty (number : String → Double) (value : Value) (label : String) :
    Except String Double :=
  let positive (x : Double) : Except String Double :=
    if x.isFinite && x.isPositive then .ok x else .error ("Invalid " ++ label ++ " difficulty")
  match value with
  | .number x => positive x
  | .text s =>
    if (parseDecimal s).isSome then positive (number s)
    else .error ("Invalid " ++ label ++ " difficulty")
  | _ => .error ("Invalid " ++ label ++ " difficulty")

def kaspaDiffToTarget (number : String → Double) (diff : Value) : Except String String := do
  let _ ← positiveDifficulty number diff "Kaspa"
  fullDiff2Target diff (2 ^ 224 - 1)

/-! ## The grammar of decimals -/

/-- The digits before and after the point of a mantissa. -/
inductive Mantissa : List Char → List Char → List Char → Prop
  | whole {w : List Char} (hne : w ≠ []) (hw : ∀ c ∈ w, c.isDigit) : Mantissa w w []
  | point {w f : List Char} (hne : w ≠ []) (hw : ∀ c ∈ w, c.isDigit) (hf : ∀ c ∈ f, c.isDigit) :
    Mantissa (w ++ '.' :: f) w f
  | leading {f : List Char} (hne : f ≠ []) (hf : ∀ c ∈ f, c.isDigit) : Mantissa ('.' :: f) [] f

/-- The value of an exponent part. -/
inductive ExponentPart : List Char → ℤ → Prop
  | none : ExponentPart [] 0
  | plain {e : Char} {ds : List Char} (he : e = 'e' ∨ e = 'E') (hne : ds ≠ [])
    (hds : ∀ c ∈ ds, c.isDigit) : ExponentPart (e :: ds) (decimalValue (String.ofList ds))
  | plus {e : Char} {ds : List Char} (he : e = 'e' ∨ e = 'E') (hne : ds ≠ [])
    (hds : ∀ c ∈ ds, c.isDigit) : ExponentPart (e :: '+' :: ds) (decimalValue (String.ofList ds))
  | minus {e : Char} {ds : List Char} (he : e = 'e' ∨ e = 'E') (hne : ds ≠ [])
    (hds : ∀ c ∈ ds, c.isDigit) :
    ExponentPart (e :: '-' :: ds) (-(decimalValue (String.ofList ds) : ℤ))

def UnsignedText (text : List Char) (d : Decimal) : Prop :=
  ∃ mantissa exponent, text = mantissa ++ exponent ∧ Mantissa mantissa d.whole d.fraction ∧
    ExponentPart exponent d.exponent

/-- A decimal text with an optional sign. -/
inductive DecimalText : List Char → Bool → Decimal → Prop
  | unsigned {text : List Char} {d : Decimal} (h : UnsignedText text d) : DecimalText text false d
  | plus {text : List Char} {d : Decimal} (h : UnsignedText text d) :
    DecimalText ('+' :: text) false d
  | minus {text : List Char} {d : Decimal} (h : UnsignedText text d) :
    DecimalText ('-' :: text) true d

/-- The number that the parts of a decimal text denote. -/
def denoted (negative : Bool) (d : Decimal) : ℚ :=
  (if negative then -1 else 1) *
    (decimalValue (String.ofList d.whole) +
      decimalValue (String.ofList d.fraction) / 10 ^ d.fraction.length) * 10 ^ d.exponent

/-! ## The parser reads the grammar -/

theorem isDigits_iff {ds : List Char} :
    isDigits (String.ofList ds) = true ↔ ds ≠ [] ∧ ∀ c ∈ ds, c.isDigit := by
  have hne : String.ofList ds = "" ↔ ds = [] := by
    rw [← String.toList_inj, String.toList_ofList]
    rfl
  simp [isDigits, hne]

theorem parseExponent_eq_some {ds : List Char} {v : ℤ} {e : Char} (he : e = 'e' ∨ e = 'E') :
    parseExponent ds = some v ↔ ExponentPart (e :: ds) v := by
  constructor
  · intro h
    unfold parseExponent at h
    split at h
    · simp only [Option.ite_none_right_eq_some, Option.some.injEq] at h
      obtain ⟨hds, rfl⟩ := h
      obtain ⟨hne, hds⟩ := isDigits_iff.mp hds
      exact .plus he hne hds
    · simp only [Option.map_eq_some_iff, Option.ite_none_right_eq_some, Option.some.injEq] at h
      obtain ⟨_, ⟨hds, rfl⟩, rfl⟩ := h
      obtain ⟨hne, hds⟩ := isDigits_iff.mp hds
      exact .minus he hne hds
    · simp only [Option.ite_none_right_eq_some, Option.some.injEq] at h
      obtain ⟨hds, rfl⟩ := h
      obtain ⟨hne, hds⟩ := isDigits_iff.mp hds
      exact .plain he hne hds
  · intro h
    cases h with
    | plain _ hne hds =>
      have hdigits := isDigits_iff.mpr ⟨hne, hds⟩
      unfold parseExponent
      split
      · simp at hds
      · simp at hds
      · simp [hdigits]
    | plus _ hne hds => simp [parseExponent, isDigits_iff.mpr ⟨hne, hds⟩]
    | minus _ hne hds => simp [parseExponent, isDigits_iff.mpr ⟨hne, hds⟩]

/-- A text is cut at the first character that fails a test. -/
theorem span_eq {p : Char → Bool} {front : List Char} (back : List Char) (hfront : ∀ c ∈ front, p c)
    (hback : ∀ c ∈ back.head?, p c = false) :
    (front ++ back).takeWhile p = front ∧ (front ++ back).dropWhile p = back := by
  rw [List.takeWhile_append_of_pos hfront, List.dropWhile_append_of_pos hfront]
  cases back with
  | nil => simp
  | cons c cs => simp [hback c rfl]

theorem ne_of_isDigit {c d : Char} (hc : c.isDigit) (hd : d.isDigit = false) : c ≠ d := by
  rintro rfl
  rw [hc] at hd
  cases hd

theorem Mantissa.notE {m w f : List Char} (h : Mantissa m w f) :
    ∀ c ∈ m, c ≠ 'e' ∧ c ≠ 'E' := by
  have hdigit : ∀ c : Char, c.isDigit → c ≠ 'e' ∧ c ≠ 'E' :=
    fun c hc => ⟨ne_of_isDigit hc (by decide), ne_of_isDigit hc (by decide)⟩
  intro c hc
  cases h with
  | whole _ hw => exact hdigit c (hw c hc)
  | point _ hw hf =>
    rcases List.mem_append.mp hc with hc | hc
    · exact hdigit c (hw c hc)
    · rcases List.mem_cons.mp hc with rfl | hc
      · decide
      · exact hdigit c (hf c hc)
  | leading _ hf =>
    rcases List.mem_cons.mp hc with rfl | hc
    · decide
    · exact hdigit c (hf c hc)

/-- The two runs of digits of a mantissa. -/
theorem mantissa_iff {m w f : List Char} :
    Mantissa m w f ↔ m.takeWhile (· ≠ '.') = w ∧ (m.dropWhile (· ≠ '.')).drop 1 = f ∧
      w.all Char.isDigit ∧ f.all Char.isDigit ∧ (w ≠ [] ∨ f ≠ []) := by
  have hpoint : ∀ {ds : List Char}, (∀ c ∈ ds, c.isDigit) → ∀ c ∈ ds, decide (c ≠ '.') = true :=
    fun hds c hc => decide_eq_true (ne_of_isDigit (hds c hc) (by decide))
  constructor
  · intro h
    cases h with
    | whole hne hw =>
      obtain ⟨htake, hdrop⟩ := span_eq [] (hpoint hw) (by simp)
      rw [List.append_nil] at htake hdrop
      exact ⟨htake, by rw [hdrop, List.drop_nil], by simpa using hw, rfl, .inl hne⟩
    | point hne hw hf =>
      obtain ⟨htake, hdrop⟩ := span_eq ('.' :: f) (hpoint hw) (by simp)
      exact ⟨htake, by rw [hdrop]; rfl, by simpa using hw, by simpa using hf, .inl hne⟩
    | leading hne hf =>
      exact ⟨rfl, rfl, rfl, by simpa using hf, .inr hne⟩
  · rintro ⟨rfl, rfl, hw, hf, hne⟩
    have hsplit := List.takeWhile_append_dropWhile (p := (· ≠ '.')) (l := m)
    generalize m.takeWhile (· ≠ '.') = w at *
    have hhead : ∀ c ∈ (m.dropWhile (· ≠ '.')).head?, c = '.' := by
      intro c hc
      have hnot := List.head?_dropWhile_not (fun c => decide (c ≠ '.')) m
      rw [Option.mem_def.mp hc] at hnot
      simpa using hnot
    generalize m.dropWhile (· ≠ '.') = rest at *
    cases rest with
    | nil =>
      rw [List.append_nil] at hsplit
      subst hsplit
      refine .whole (by simpa using hne) (by simpa using hw)
    | cons c f =>
      obtain rfl := hhead c rfl
      rw [List.drop_one, List.tail_cons] at hf hne ⊢
      rw [← hsplit]
      by_cases hnil : w = []
      · subst hnil
        exact .leading (by simpa using hne) (by simpa using hf)
      · exact .point hnil (by simpa using hw) (by simpa using hf)

theorem ExponentPart.head {e : List Char} {v : ℤ} (h : ExponentPart e v) :
    ∀ c ∈ e.head?, c = 'e' ∨ c = 'E' := by
  intro c hc
  cases h with
  | none => cases hc
  | plain he | plus he | minus he =>
    cases hc
    exact he

/-- **The parser of unsigned decimals accepts their grammar.** -/
theorem parseDecimal_eq_some {s : String} {d : Decimal} :
    parseDecimal s = some d ↔ UnsignedText s.toList d := by
  unfold parseDecimal
  extract_lets notE mantissa whole point fraction exponent
  constructor
  · intro h
    simp only [Option.ite_none_right_eq_some, Option.map_eq_some_iff, Bool.and_eq_true,
      Bool.or_eq_true, decide_eq_true_eq] at h
    obtain ⟨⟨⟨hw, hf⟩, hne⟩, e, he, rfl⟩ := h
    refine ⟨mantissa, s.toList.dropWhile notE, List.takeWhile_append_dropWhile.symm,
      mantissa_iff.mpr ⟨rfl, rfl, hw, hf, hne⟩, ?_⟩
    have hhead := List.head?_dropWhile_not notE s.toList
    simp only [exponent] at he
    generalize s.toList.dropWhile notE = rest at he hhead
    cases rest with
    | nil =>
      cases he
      exact .none
    | cons c ds =>
      have hc : c = 'e' ∨ c = 'E' := by
        by_contra hc
        simp_all [notE]
      exact (parseExponent_eq_some hc).mp he
  · rintro ⟨m, e, htext, hm, he⟩
    obtain ⟨htake, hdrop⟩ := span_eq (p := notE) e
      (fun c hc => by simpa [notE] using hm.notE c hc)
      (fun c hc => by rcases he.head c hc with rfl | rfl <;> decide)
    rw [← htext] at htake hdrop
    obtain ⟨hwhole, hfraction, hw, hf, hne⟩ := mantissa_iff.mp hm
    have hexponent : exponent = some d.exponent := by
      simp only [exponent, hdrop]
      generalize d.exponent = v at he ⊢
      cases e with
      | nil =>
        cases he
        rfl
      | cons c ds => exact (parseExponent_eq_some (he.head c rfl)).mpr he
    have hmantissa : mantissa = m := htake
    have hwhole' : whole = d.whole := by rw [← hwhole, ← hmantissa]
    have hfraction' : fraction = d.fraction := by rw [← hfraction, ← hmantissa]
    rw [hwhole', hfraction', hexponent, if_pos (by simp [hw, hf, hne])]
    rfl

theorem UnsignedText.head {text : List Char} {d : Decimal} (h : UnsignedText text d) :
    ∀ c ∈ text.head?, c ≠ '+' ∧ c ≠ '-' := by
  have hdigit : ∀ {ds : List Char}, (∀ c ∈ ds, c.isDigit) → ∀ c ∈ ds.head?, c ≠ '+' ∧ c ≠ '-' := by
    intro ds hds c hc
    have hc' := hds c (List.mem_of_mem_head? hc)
    exact ⟨ne_of_isDigit hc' (by decide), ne_of_isDigit hc' (by decide)⟩
  obtain ⟨m, e, rfl, hm, -⟩ := h
  intro c hc
  generalize d.fraction = f at hm
  generalize d.whole = w at hm
  cases hm with
  | whole hne hw =>
    rw [List.head?_append_of_ne_nil _ hne] at hc
    exact hdigit hw c hc
  | point hne hw hf =>
    rw [List.append_assoc, List.head?_append_of_ne_nil _ hne] at hc
    exact hdigit hw c hc
  | leading hne hf =>
    cases hc
    decide

theorem matchDecimal_eq_some {text : List Char} {negative : Bool} {d : Decimal} :
    matchDecimal text = some (negative, d) ↔ DecimalText text negative d := by
  have hmap : ∀ (sign : Bool) (rest : List Char),
      (parseDecimal (String.ofList rest)).map (sign, ·) = some (negative, d) ↔
        UnsignedText rest d ∧ sign = negative := by
    intro sign rest
    have hparse := @parseDecimal_eq_some (String.ofList rest) d
    rw [String.toList_ofList] at hparse
    simp [← hparse, and_comm]
  unfold matchDecimal
  split
  · next rest =>
    rw [hmap]
    constructor
    · rintro ⟨h, rfl⟩
      exact .plus h
    · intro h
      cases h with
      | unsigned h => exact absurd rfl (h.head '+' rfl).1
      | plus h => exact ⟨h, rfl⟩
  · next rest =>
    rw [hmap]
    constructor
    · rintro ⟨h, rfl⟩
      exact .minus h
    · intro h
      cases h with
      | unsigned h => exact absurd rfl (h.head '-' rfl).2
      | minus h => exact ⟨h, rfl⟩
  · next hplus hminus =>
    rw [hmap]
    constructor
    · rintro ⟨h, rfl⟩
      exact .unsigned h
    · intro h
      cases h with
      | unsigned h => exact ⟨h, rfl⟩
      | plus h => exact absurd rfl (hplus _)
      | minus h => exact absurd rfl (hminus _)

/-! ## The pair of a decimal -/

theorem decimalValue_append (as bs : List Char) :
    decimalValue (String.ofList (as ++ bs)) =
      decimalValue (String.ofList as) * 10 ^ bs.length + decimalValue (String.ofList bs) := by
  simp only [decimalValue, String.toList_ofList]
  induction bs using List.reverseRecOn with
  | nil => simp
  | append_singleton bs c ih =>
    rw [← List.append_assoc, List.foldl_append, ih, List.foldl_append, List.length_append]
    simp only [List.foldl_cons, List.foldl_nil, List.length_singleton, pow_succ]
    ring

theorem decimalValue_dropWhile (ds : List Char) :
    decimalValue (String.ofList (ds.dropWhile (· = '0'))) = decimalValue (String.ofList ds) := by
  induction ds with
  | nil => rfl
  | cons c ds ih =>
    by_cases hc : c = '0'
    · subst hc
      rw [List.dropWhile_cons_of_pos (by simp), ih]
      simp [decimalValue]
    · rw [List.dropWhile_cons_of_neg (by simp [hc])]

/-- The digits of a decimal, without the point. -/
theorem decimalValue_digits (d : Decimal) :
    decimalValue (String.ofList d.digits) =
      decimalValue (String.ofList d.whole) * 10 ^ d.fraction.length +
        decimalValue (String.ofList d.fraction) := by
  rw [Decimal.digits, decimalValue_dropWhile, decimalValue_append]

/-- **The pair is exact.** -/
theorem ratio_spec (negative : Bool) (d : Decimal) :
    0 < (ratio negative d).2 ∧
      ((ratio negative d).1 : ℚ) / (ratio negative d).2 = denoted negative d := by
  have hscale : (10 : ℚ) ^ d.fraction.length ≠ 0 := pow_ne_zero _ (by norm_num)
  have hvalue : (decimalValue (String.ofList d.whole) +
      decimalValue (String.ofList d.fraction) / 10 ^ d.fraction.length : ℚ) =
        decimalValue (String.ofList d.digits) / 10 ^ d.fraction.length := by
    rw [decimalValue_digits]
    push_cast
    field_simp
  unfold ratio denoted
  rw [hvalue]
  extract_lets digits scale numerator denominator
  have hquotient : (numerator : ℚ) / denominator =
      decimalValue (String.ofList d.digits) / 10 ^ d.fraction.length * 10 ^ d.exponent := by
    rcases lt_trichotomy d.exponent 0 with h | h | h
    · obtain ⟨k, hk⟩ := Int.eq_ofNat_of_zero_le (Int.neg_nonneg.mpr h.le)
      have hk' : d.exponent = -(k : ℤ) := by omega
      simp only [numerator, denominator, digits, scale, if_neg h.not_gt, if_pos h, hk,
        Int.toNat_natCast]
      rw [hk', zpow_neg, zpow_natCast]
      push_cast
      field_simp
    · simp [numerator, denominator, digits, scale, h]
    · obtain ⟨k, hk⟩ := Int.eq_ofNat_of_zero_le h.le
      simp only [numerator, denominator, digits, scale, if_neg h.not_gt, if_pos h, hk,
        Int.toNat_natCast]
      rw [zpow_natCast]
      push_cast
      field_simp
  refine ⟨?_, ?_⟩
  · simp only [denominator, scale]
    split_ifs <;> positivity
  · cases negative with
    | false => simpa using hquotient
    | true =>
      simp only [if_true]
      push_cast
      rw [neg_div, hquotient]
      ring

/-! ## What is accepted -/

/-- The bounds of the conversion on the parts of a decimal. -/
structure Bounded (d : Decimal) : Prop where
  exponent_le : d.exponent ≤ 1000
  exponent_ge : -1000 ≤ d.exponent
  digits_le : d.digits.length ≤ 1000
  fraction_le : d.fraction.length ≤ 1000

/-- The text of a value is a decimal of these parts. -/
def Value.Spells (value : Value) (negative : Bool) (d : Decimal) : Prop :=
  ∃ raw, value.raw = .ok raw ∧ jsLength raw ≤ 4096 ∧
    DecimalText (lowerCase (trim raw.toList)) negative d

theorem decimalToRatio_eq_ok {value : Value} {p : ℤ × ℤ} :
    decimalToRatio value = .ok p ↔
      ∃ negative d, value.Spells negative d ∧ Bounded d ∧ p = ratio negative d := by
  unfold decimalToRatio
  simp only [Except.bind_eq_ok, throwIf_eq_ok, not_lt, exists_const]
  constructor
  · rintro ⟨raw, hraw, hlength, h⟩
    split at h
    · cases h
    · next negative d hmatch =>
      simp only [Except.bind_eq_ok, throwIf_eq_ok, not_or, not_lt, exists_const] at h
      obtain ⟨⟨h₁, h₂, h₃, h₄⟩, h⟩ := h
      cases h
      exact ⟨negative, d, ⟨raw, hraw, hlength, matchDecimal_eq_some.mp hmatch⟩,
        ⟨h₁, h₂, h₃, h₄⟩, rfl⟩
  · rintro ⟨negative, d, ⟨raw, hraw, hlength, htext⟩, hbounds, rfl⟩
    refine ⟨raw, hraw, hlength, ?_⟩
    rw [matchDecimal_eq_some.mpr htext]
    simp only [Except.bind_eq_ok, throwIf_eq_ok, not_or, not_lt, exists_const]
    exact ⟨⟨hbounds.exponent_le, hbounds.exponent_ge, hbounds.digits_le, hbounds.fraction_le⟩, rfl⟩

/-! ## The texts of numbers -/

/-- The characters of a mantissa are digits and points. -/
theorem Mantissa.chars {m w f : List Char} (h : Mantissa m w f) :
    ∀ c ∈ m, c.isDigit ∨ c = '.' := by
  intro c hc
  cases h with
  | whole _ hw => exact .inl (hw c hc)
  | point _ hw hf =>
    rcases List.mem_append.mp hc with hc | hc
    · exact .inl (hw c hc)
    · exact (List.mem_cons.mp hc).symm.imp_left (hf c)
  | leading _ hf => exact (List.mem_cons.mp hc).symm.imp_left (hf c)

/-- Digits and points stay as they are in lower case. -/
theorem lowerCase_eq_self {text : List Char} (h : ∀ c ∈ text, c.isDigit ∨ c = '.') :
    lowerCase text = text := by
  rw [lowerCase]
  conv_rhs => rw [← List.map_id text]
  refine List.map_congr_left fun c hc => ?_
  rcases h c hc with hdigit | rfl
  · have hkelvin : c.toNat ≠ 0x212a := by
      intro hk
      simp only [Char.isDigit, Bool.and_eq_true, decide_eq_true_eq] at hdigit
      have hle : c.toNat ≤ 57 := UInt32.le_iff_toNat_le.mp hdigit.2
      omega
    rw [if_neg hkelvin, toLower_of_isDigit hdigit]
    rfl
  · rfl

theorem ExponentPart.lowerCase {e : List Char} {v : ℤ} (h : ExponentPart e v) :
    ExponentPart (lowerCase e) v := by
  have hdigits : ∀ {ds : List Char}, (∀ c ∈ ds, c.isDigit) → Js.lowerCase ds = ds :=
    fun hds => lowerCase_eq_self fun c hc => .inl (hds c hc)
  have hmark : ∀ {e : Char} {ds : List Char}, (e = 'e' ∨ e = 'E') →
      Js.lowerCase (e :: ds) = 'e' :: Js.lowerCase ds := by
    rintro e ds (rfl | rfl)
    · rfl
    · rfl
  cases h with
  | none => exact .none
  | plain he hne hds =>
    rw [hmark he, hdigits hds]
    exact .plain (.inl rfl) hne hds
  | plus he hne hds =>
    have hsign : ∀ ds : List Char, Js.lowerCase ('+' :: ds) = '+' :: Js.lowerCase ds :=
      fun _ => rfl
    rw [hmark he, hsign, hdigits hds]
    exact .plus (.inl rfl) hne hds
  | minus he hne hds =>
    have hsign : ∀ ds : List Char, Js.lowerCase ('-' :: ds) = '-' :: Js.lowerCase ds :=
      fun _ => rfl
    rw [hmark he, hsign, hdigits hds]
    exact .minus (.inl rfl) hne hds

theorem UnsignedText.lowerCase {text : List Char} {d : Decimal} (h : UnsignedText text d) :
    UnsignedText (lowerCase text) d := by
  obtain ⟨m, e, rfl, hm, he⟩ := h
  refine ⟨m, Js.lowerCase e, ?_, hm, he.lowerCase⟩
  conv_rhs => rw [← lowerCase_eq_self hm.chars]
  exact List.map_append

/-- The characters of an unsigned decimal. -/
theorem UnsignedText.chars {text : List Char} {d : Decimal} (h : UnsignedText text d) :
    ∀ c ∈ text, c.isDigit ∨ c ∈ ['.', 'e', 'E', '+', '-'] := by
  obtain ⟨m, e, rfl, hm, he⟩ := h
  intro c hc
  rcases List.mem_append.mp hc with hc | hc
  · exact (hm.chars c hc).imp_right fun h => by simp [h]
  · generalize d.exponent = v at he
    cases he with
    | none => cases hc
    | plain he _ hds =>
      rcases List.mem_cons.mp hc with rfl | hc
      · exact .inr (by rcases he with rfl | rfl <;> simp)
      · exact .inl (hds c hc)
    | plus he _ hds | minus he _ hds =>
      rcases List.mem_cons.mp hc with rfl | hc
      · exact .inr (by rcases he with rfl | rfl <;> simp)
      · rcases List.mem_cons.mp hc with rfl | hc
        · exact .inr (by simp)
        · exact .inl (hds c hc)

theorem UnsignedText.isSpace {text : List Char} {d : Decimal} (h : UnsignedText text d) :
    ∀ c ∈ text, isSpace c = false := by
  intro c hc
  rcases h.chars c hc with hdigit | hmark
  · simp only [Char.isDigit, Bool.and_eq_true, decide_eq_true_eq] at hdigit
    have hlo : 48 ≤ c.toNat := UInt32.le_iff_toNat_le.mp hdigit.1
    have hhi : c.toNat ≤ 57 := UInt32.le_iff_toNat_le.mp hdigit.2
    simp [Js.isSpace]
    omega
  · simp only [List.mem_cons, List.not_mem_nil, or_false] at hmark
    rcases hmark with rfl | rfl | rfl | rfl | rfl <;> rfl

/-- **A decimal text has no white space, and is the same decimal in lower case.** -/
theorem DecimalText.normalized {text : List Char} {negative : Bool} {d : Decimal}
    (h : DecimalText text negative d) : DecimalText (lowerCase (trim text)) negative d := by
  have hspace : ∀ c ∈ text, isSpace c = false := by
    intro c hc
    cases h with
    | unsigned h => exact h.isSpace c hc
    | plus h | minus h =>
      rcases List.mem_cons.mp hc with rfl | hc
      · rfl
      · exact h.isSpace c hc
  rw [trim_of_forall hspace]
  cases h with
  | unsigned h => exact .unsigned h.lowerCase
  | plus h => exact .plus h.lowerCase
  | minus h => exact .minus h.lowerCase

/-! ## The texts of numbers -/

theorem denoted_eq (negative : Bool) (d : Decimal) :
    denoted negative d = (if negative then -1 else 1) *
      (decimalValue (String.ofList (d.whole ++ d.fraction)) / 10 ^ d.fraction.length) *
        10 ^ d.exponent := by
  have hscale : (10 : ℚ) ^ d.fraction.length ≠ 0 := pow_ne_zero _ (by norm_num)
  rw [denoted, decimalValue_append]
  push_cast
  field_simp

theorem denoted_neg (d : Decimal) : denoted true d = -denoted false d := by
  rw [denoted, denoted, if_pos rfl, if_neg Bool.false_ne_true]
  ring

/-- The digits of a decimal and the place of its point are enough to know it. -/
theorem denoted_of_digits {d : Decimal} {v j : ℕ} {z : ℤ}
    (hv : decimalValue (String.ofList (d.whole ++ d.fraction)) = v * 10 ^ j)
    (hz : j - d.fraction.length + d.exponent = z) : denoted false d = v * 10 ^ z := by
  have h10 : (10 : ℚ) ≠ 0 := by norm_num
  rw [denoted_eq, if_neg Bool.false_ne_true, hv, ← hz, zpow_add₀ h10, zpow_sub₀ h10,
    zpow_natCast, zpow_natCast]
  push_cast
  ring

theorem decimalValue_replicate (n : ℕ) :
    decimalValue (String.ofList (List.replicate n '0')) = 0 := by
  induction n with
  | zero => rfl
  | succ n ih =>
    rw [List.replicate_succ', decimalValue_append, ih]
    rfl

theorem Bounded.of_length {d : Decimal} (hle : d.exponent ≤ 1000) (hge : -1000 ≤ d.exponent)
    (hlen : d.whole.length + d.fraction.length ≤ 1000) : Bounded d where
  exponent_le := hle
  exponent_ge := hge
  digits_le := by
    refine (List.dropWhile_sublist _).length_le.trans ?_
    rwa [List.length_append]
  fraction_le := by omega

/-- The exponent of a number's text, with its sign. -/
theorem exponentPart_toDigits (e : ℤ) :
    ExponentPart ('e' :: (if e < 0 then '-' else '+') :: Nat.toDigits 10 e.natAbs) e := by
  have hvalue : decimalValue (String.ofList (Nat.toDigits 10 e.natAbs)) = e.natAbs := by
    rw [decimalValue, String.toList_ofList]
    exact Nat.ofDigitChars_ten_toDigits
  have hdigits : ∀ c ∈ Nat.toDigits 10 e.natAbs, c.isDigit :=
    fun c hc => Nat.isDigit_of_mem_toDigits (by decide) (by decide) hc
  by_cases h : e < 0
  · have hminus := ExponentPart.minus (.inl rfl) Nat.toDigits_ne_nil hdigits
    rw [hvalue] at hminus
    rw [if_pos h]
    convert hminus using 1
    omega
  · have hplus := ExponentPart.plus (.inl rfl) Nat.toDigits_ne_nil hdigits
    rw [hvalue] at hplus
    rw [if_neg h]
    convert hplus using 1
    omega

/-- A text shows the magnitude of a number, within the bounds. -/
def Shows (x : ShortestDecimal) (text : List Char) : Prop :=
  ∃ d, UnsignedText text d ∧ denoted false d = x.magnitude ∧ Bounded d ∧ text.length ≤ 50

section

variable (x : ShortestDecimal)

theorem isDigit_replicate (n : ℕ) : ∀ c ∈ List.replicate n '0', c.isDigit := by
  intro c hc
  rw [List.eq_of_mem_replicate hc]
  rfl

theorem isDigit_take (n : ℕ) : ∀ c ∈ x.digits.take n, c.isDigit :=
  fun c hc => x.isDigit c (List.mem_of_mem_take hc)

theorem isDigit_drop (n : ℕ) : ∀ c ∈ x.digits.drop n, c.isDigit :=
  fun c hc => x.isDigit c (List.mem_of_mem_drop hc)

theorem take_ne_nil {n : ℕ} (hn : 0 < n) : x.digits.take n ≠ [] := by
  rw [Ne, List.take_eq_nil_iff]
  simp only [x.ne_nil, or_false]
  omega

/-- The digits of an integer, padded with zeros. -/
theorem shows_integer (hle : x.digits.length ≤ x.point) (hmax : x.point ≤ 21) :
    Shows x (x.digits ++ List.replicate (x.point - x.digits.length).toNat '0') := by
  have hdigit : ∀ c ∈ x.digits ++ List.replicate (x.point - x.digits.length).toNat '0', c.isDigit :=
    fun c hc => (List.mem_append.mp hc).elim (x.isDigit c) (isDigit_replicate _ c)
  refine ⟨⟨x.digits ++ List.replicate (x.point - x.digits.length).toNat '0', [], 0⟩,
    ⟨_, [], (List.append_nil _).symm, .whole (by simp [x.ne_nil]) hdigit, .none⟩,
    denoted_of_digits (j := (x.point - x.digits.length).toNat) ?_ ?_, .of_length ?_ ?_ ?_, ?_⟩
  · rw [List.append_nil, decimalValue_append, decimalValue_replicate, List.length_replicate,
      Nat.add_zero]
  · simp only [List.length_nil]
    omega
  · simp
  · simp
  · simp only [List.length_append, List.length_replicate, List.length_nil]
    omega
  · simp only [List.length_append, List.length_replicate]
    omega

/-- A point between two digits. -/
theorem shows_point (hpos : 0 < x.point) (hlt : x.point < x.digits.length) :
    Shows x (x.digits.take x.point.toNat ++ '.' :: x.digits.drop x.point.toNat) := by
  have hk := x.length_le
  refine ⟨⟨x.digits.take x.point.toNat, x.digits.drop x.point.toNat, 0⟩,
    ⟨_, [], (List.append_nil _).symm,
      .point (take_ne_nil x (by omega)) (isDigit_take x _) (isDigit_drop x _), .none⟩,
    denoted_of_digits (j := 0) ?_ ?_, .of_length ?_ ?_ ?_, ?_⟩
  · rw [List.take_append_drop, pow_zero, Nat.mul_one]
  · simp only [List.length_drop]
    omega
  · simp
  · simp
  · simp only [List.length_take, List.length_drop]
    omega
  · simp only [List.length_append, List.length_cons, List.length_take, List.length_drop]
    omega

/-- Zeros between the point and the digits. -/
theorem shows_leading (hge : -5 ≤ x.point) (hle : x.point ≤ 0) :
    Shows x ('0' :: '.' :: (List.replicate (-x.point).toNat '0' ++ x.digits)) := by
  have hk := x.length_le
  have hfraction : ∀ c ∈ List.replicate (-x.point).toNat '0' ++ x.digits, c.isDigit :=
    fun c hc => (List.mem_append.mp hc).elim (isDigit_replicate _ c) (x.isDigit c)
  refine ⟨⟨['0'], List.replicate (-x.point).toNat '0' ++ x.digits, 0⟩,
    ⟨_, [], (List.append_nil _).symm,
      Mantissa.point (w := ['0']) (by simp) (isDigit_replicate 1) hfraction, .none⟩,
    denoted_of_digits (j := 0) ?_ ?_, .of_length ?_ ?_ ?_, ?_⟩
  · rw [← List.append_assoc, decimalValue_append, show ['0'] = List.replicate 1 '0' from rfl,
      List.replicate_append_replicate, decimalValue_replicate]
    simp
  · simp only [List.length_append, List.length_replicate]
    omega
  · simp
  · simp
  · simp only [List.length_append, List.length_replicate, List.length_singleton]
    omega
  · simp only [List.length_append, List.length_cons, List.length_replicate]
    omega

/-- The exponent of a double has at most three digits. -/
theorem length_exponent : (Nat.toDigits 10 (x.point - 1).natAbs).length ≤ 3 := by
  have hlo := x.point_ge
  have hhi := x.point_le
  exact (Nat.length_toDigits_le_iff (by decide) (by decide)).mpr (by omega)

/-- One digit and an exponent. -/
theorem shows_digit (hone : x.digits.length = 1) :
    Shows x (x.digits ++ 'e' :: (if x.point - 1 < 0 then '-' else '+') ::
      Nat.toDigits 10 (x.point - 1).natAbs) := by
  have hlo := x.point_ge
  have hhi := x.point_le
  have hexponent := length_exponent x
  refine ⟨⟨x.digits, [], x.point - 1⟩,
    ⟨x.digits, _, rfl, .whole x.ne_nil x.isDigit, exponentPart_toDigits _⟩,
    denoted_of_digits (j := 0) ?_ ?_, .of_length ?_ ?_ ?_, ?_⟩
  · rw [List.append_nil, pow_zero, Nat.mul_one]
  · simp only [List.length_nil]
    omega
  · simp only
    omega
  · simp only
    omega
  · simp only [List.length_nil]
    omega
  · simp only [List.length_append, List.length_cons]
    omega

/-- A point after the first digit, and an exponent. -/
theorem shows_scientific : Shows x (x.digits.take 1 ++ '.' :: (x.digits.drop 1 ++
    'e' :: (if x.point - 1 < 0 then '-' else '+') :: Nat.toDigits 10 (x.point - 1).natAbs)) := by
  have hk := x.length_le
  have hpos : 0 < x.digits.length := List.length_pos_iff.mpr x.ne_nil
  have hlo := x.point_ge
  have hhi := x.point_le
  have hexponent := length_exponent x
  refine ⟨⟨x.digits.take 1, x.digits.drop 1, x.point - 1⟩,
    ⟨x.digits.take 1 ++ '.' :: x.digits.drop 1, _, by simp,
      .point (take_ne_nil x (by decide)) (isDigit_take x _) (isDigit_drop x _),
      exponentPart_toDigits _⟩,
    denoted_of_digits (j := 0) ?_ ?_, .of_length ?_ ?_ ?_, ?_⟩
  · rw [List.take_append_drop, pow_zero, Nat.mul_one]
  · simp only [List.length_drop]
    omega
  · simp only
    omega
  · simp only
    omega
  · simp only [List.length_take, List.length_drop]
    omega
  · simp only [List.length_append, List.length_cons, List.length_take, List.length_drop]
    omega

/-- The text of a number without its sign is a decimal of its magnitude, within the bounds. -/
theorem shows_unsignedText : Shows x x.unsignedText := by
  unfold ShortestDecimal.unsignedText
  extract_lets k n exponent
  by_cases hplain : -5 ≤ n ∧ n ≤ 21
  · rw [if_pos hplain]
    by_cases hinteger : k ≤ n
    · rw [if_pos hinteger]
      exact shows_integer x hinteger hplain.2
    · rw [if_neg hinteger]
      by_cases hpoint : 0 < n
      · rw [if_pos hpoint]
        exact shows_point x hpoint (not_le.mp hinteger)
      · rw [if_neg hpoint]
        exact shows_leading x hplain.1 (not_lt.mp hpoint)
  · rw [if_neg hplain]
    by_cases hone : k = 1
    · rw [if_pos hone]
      exact shows_digit x hone
    · rw [if_neg hone]
      exact shows_scientific x

end

theorem jsLength_le (cs : List Char) : jsLength (String.ofList cs) ≤ 2 * cs.length := by
  rw [jsLength, String.toList_ofList]
  have hle : ∀ n ∈ cs.map fun c => if c.toNat < 0x10000 then 1 else 2, n ≤ 2 := by
    intro n hn
    obtain ⟨c, -, rfl⟩ := List.mem_map.mp hn
    split_ifs <;> decide
  have := List.sum_le_card_nsmul _ 2 hle
  rw [List.length_map, smul_eq_mul] at this
  omega

/-- **Numbers.** Every finite number is accepted, with the value that it is printed with. -/
theorem decimalToRatio_number {x : Double} (hx : x.isFinite = true) :
    ∃ p, decimalToRatio (.number x) = .ok p ∧ (p.1 : ℚ) / p.2 = x.value := by
  have hraw : (Value.number x).raw = .ok x.text := if_pos hx
  have hread : ∀ {negative : Bool} {d : Decimal}, DecimalText x.text.toList negative d →
      Bounded d → x.text.length ≤ 51 → denoted negative d = x.value →
      ∃ p, decimalToRatio (.number x) = .ok p ∧ (p.1 : ℚ) / p.2 = x.value := by
    intro negative d htext hbounds hlength hvalue
    have hle := jsLength_le x.text.toList
    rw [String.ofList_toList, String.length_toList] at hle
    exact ⟨_, decimalToRatio_eq_ok.mpr
      ⟨negative, d, ⟨x.text, hraw, by omega, htext.normalized⟩, hbounds, rfl⟩,
      (ratio_spec negative d).2.trans hvalue⟩
  cases x with
  | zero =>
    have hzero : ∀ c ∈ ['0'], c.isDigit := List.forall_mem_singleton.mpr rfl
    refine @hread false ⟨['0'], [], 0⟩ (.unsigned ⟨['0'], [], rfl, .whole (by simp) hzero, .none⟩)
      (.of_length (by simp) (by simp) (by simp)) (by decide) ?_
    simp [denoted, Double.value, decimalValue]
  | nonzero d =>
    obtain ⟨parts, htext, hvalue, hbounds, hlength⟩ := shows_unsignedText d
    by_cases hneg : d.negative = true
    · have hraw' : (Double.nonzero d).text = String.ofList ('-' :: d.unsignedText) := by
        rw [Double.text, ShortestDecimal.text, if_pos hneg]
      refine @hread true parts ?_ hbounds ?_ ?_
      · rw [hraw', String.toList_ofList]
        exact .minus htext
      · rw [hraw', String.length_ofList, List.length_cons]
        omega
      · rw [Double.value, ShortestDecimal.value, if_pos hneg, ← hvalue, denoted_neg]
    · have hraw' : (Double.nonzero d).text = String.ofList d.unsignedText := by
        rw [Double.text, ShortestDecimal.text, if_neg hneg]
      refine @hread false parts ?_ hbounds ?_ ?_
      · rw [hraw', String.toList_ofList]
        exact .unsigned htext
      · rw [hraw', String.length_ofList]
        omega
      · rw [Double.value, ShortestDecimal.value, if_neg hneg, hvalue]
  | infinite => cases hx
  | nan => cases hx

/-- On an unsigned literal, the quotient of the pair is what the adapters compute with. -/
theorem decimalToRatio_unsigned {s : String} {d : Decimal} (h : UnsignedText s.toList d) :
    Pool.decimalToRatio (.text s) =
      (decimalToRatio (.text s)).map fun p => (p.1 : ℚ) / p.2 := by
  have hparse := parseDecimal_eq_some.mpr h
  have hmatch := matchDecimal_eq_some.mpr (DecimalText.unsigned h).normalized
  have hvalue : d.value = ((ratio false d).1 : ℚ) / (ratio false d).2 := by
    rw [(ratio_spec false d).2, Decimal.value]
    refine (denoted_of_digits (j := 0) ?_ (by simp; ring)).symm
    rw [decimalValue_digits, decimalValue_append, pow_zero, Nat.mul_one]
  by_cases hlength : 4096 < jsLength s
  · simp only [Pool.decimalToRatio, decimalToRatio, Value.raw, throwIf, bind, Except.bind,
      if_pos hlength]
    rfl
  by_cases hbounds : 1000 < d.exponent ∨ d.exponent < -1000 ∨ 1000 < d.digits.length ∨
      1000 < d.fraction.length
  · simp only [Pool.decimalToRatio, decimalToRatio, Value.raw, throwIf, if_neg hlength,
      bind, Except.bind, hparse, hmatch, if_pos hbounds]
    rfl
  · simp only [Pool.decimalToRatio, decimalToRatio, Value.raw, throwIf, if_neg hlength,
      bind, Except.bind, hparse, hmatch, if_neg hbounds, hvalue]
    rfl

/-! ## Targets -/

/-- The 64 digits of `min (2^256 - 1) ⌊base / difficulty⌋`. -/
def boundary (base : ℤ) (difficulty : ℚ) : String :=
  String.ofList (hexFixed 64 (min uint256Max (⌊base / difficulty⌋).toNat))

theorem target256ToHex_eq {base n d : ℤ} (hn : 0 < n) (hd : 0 < d) :
    target256ToHex (base * d / n).toNat = boundary base (n / d) := by
  obtain ⟨m, rfl⟩ := Int.eq_ofNat_of_zero_le hn.le
  have hd' : (d : ℚ) ≠ 0 := by exact_mod_cast hd.ne'
  have hquotient : (base : ℚ) / (((m : ℤ) : ℚ) / d) = ((base * d : ℤ) : ℚ) / (m : ℚ) := by
    push_cast
    rw [div_div_eq_mul_div]
  rw [target256ToHex, boundary, hquotient, Rat.floor_intCast_div_natCast, min_comm]

theorem hexNumber_boundary (base : ℤ) (difficulty : ℚ) :
    hexNumber (boundary base difficulty) = min uint256Max (⌊base / difficulty⌋).toNat := by
  have hlt : min uint256Max (⌊base / difficulty⌋).toNat < 256 ^ 32 :=
    lt_of_le_of_lt (min_le_left _ _) (by decide)
  rw [boundary, show 64 = 2 * 32 from rfl, hexFixed_eq, hexNumber_of_ofHex (ofHex_toHex _),
    ofBE_beBytes, Nat.mod_eq_of_lt hlt]

/-- A larger difficulty has no larger boundary. -/
theorem boundary_antitone {base : ℤ} (hbase : 0 ≤ base) {a b : ℚ} (ha : 0 < a) (hab : a ≤ b) :
    hexNumber (boundary base b) ≤ hexNumber (boundary base a) := by
  rw [hexNumber_boundary, hexNumber_boundary]
  have hbase' : (0 : ℚ) ≤ base := by exact_mod_cast hbase
  have hfloor : ⌊(base : ℚ) / b⌋ ≤ ⌊(base : ℚ) / a⌋ :=
    Int.floor_le_floor (div_le_div_of_nonneg_left hbase' ha hab)
  exact min_le_min_left _ (Int.toNat_le_toNat hfloor)

section

variable {value : Value} {p : ℤ × ℤ} (h : decimalToRatio value = .ok p) (hp : 0 < p.1)
include h hp

theorem ethDiff2Target_eq {multiplier : ℤ} (hm : 0 < multiplier) :
    ethDiff2Target value multiplier =
      .ok (boundary (ethStratumDiff1Target * multiplier) (p.1 / p.2)) := by
  obtain ⟨negative, d, -, -, hratio⟩ := decimalToRatio_eq_ok.mp h
  have hp2 : 0 < p.2 := hratio ▸ (ratio_spec negative d).1
  simp only [ethDiff2Target, h, Except.bind_eq_ok, throwIf_eq_ok]
  refine ⟨(), not_le.mpr hm, p, rfl, ?_⟩
  rw [if_neg (not_le.mpr hp), target256ToHex_eq hp hp2]
  rfl

theorem fullDiff2Target_eq {base : ℤ} (hb : 0 < base) :
    fullDiff2Target value base = .ok (boundary base (p.1 / p.2)) := by
  obtain ⟨negative, d, -, -, hratio⟩ := decimalToRatio_eq_ok.mp h
  have hp2 : 0 < p.2 := hratio ▸ (ratio_spec negative d).1
  simp only [fullDiff2Target, h, Except.bind_eq_ok, throwIf_eq_ok]
  refine ⟨(), not_le.mpr hb, p, rfl, ?_⟩
  rw [if_neg (not_le.mpr hp), target256ToHex_eq hp hp2]
  rfl

end

/-- What `positiveDifficulty` lets through: a finite positive number, and an unsigned decimal without
white space whose number is one. -/
def Value.Positive (number : String → Double) : Value → Prop
  | .number x => x.isFinite = true ∧ x.isPositive = true
  | .text s => (∃ d, UnsignedText s.toList d) ∧ (number s).isFinite = true ∧
    (number s).isPositive = true
  | _ => False

theorem positiveDifficulty_cases (number : String → Double) (value : Value) :
    (value.Positive number ∧ ∃ x, positiveDifficulty number value "Kaspa" = .ok x) ∨
      (¬value.Positive number ∧
        positiveDifficulty number value "Kaspa" = .error "Invalid Kaspa difficulty") := by
  have hpositive : ∀ x : Double, (x.isFinite && x.isPositive) = true ↔
      x.isFinite = true ∧ x.isPositive = true := fun x => Bool.and_eq_true_iff
  cases value with
  | text s =>
    have hsome : (parseDecimal s).isSome = true ↔ ∃ d, UnsignedText s.toList d := by
      rw [Option.isSome_iff_exists]
      exact exists_congr fun d => parseDecimal_eq_some
    by_cases htext : (parseDecimal s).isSome = true
    · by_cases hx : ((number s).isFinite && (number s).isPositive) = true
      · exact .inl ⟨⟨hsome.mp htext, (hpositive _).mp hx⟩, number s, by
          simp only [positiveDifficulty, if_pos htext, if_pos hx]⟩
      · exact .inr ⟨fun h => hx ((hpositive _).mpr h.2), by
          simp only [positiveDifficulty, if_pos htext, if_neg hx]
          rfl⟩
    · exact .inr ⟨fun h => htext (hsome.mpr h.1), by
        simp only [positiveDifficulty, if_neg htext]
        rfl⟩
  | number x =>
    by_cases hx : (x.isFinite && x.isPositive) = true
    · exact .inl ⟨(hpositive _).mp hx, x, by simp only [positiveDifficulty, if_pos hx]⟩
    · exact .inr ⟨fun h => hx ((hpositive _).mpr h), by
        simp only [positiveDifficulty, if_neg hx]
        rfl⟩
  | bigint z => exact .inr ⟨id, rfl⟩
  | other => exact .inr ⟨id, rfl⟩

/-- **Exact decimal difficulties.** The pair of a value is the number that its text denotes, the
texts of the grammar within the bounds are accepted and no others, and the targets of a positive
difficulty are the rounded quotients, which do not grow with the difficulty. The Kaspa conversion
first rejects what is not an unsigned literal of a positive number. -/
theorem exact_difficulties (number : String → Double) :
    (∀ value p, decimalToRatio value = .ok p → 0 < p.2 ∧
      ∃ negative d, value.Spells negative d ∧ (p.1 : ℚ) / p.2 = denoted negative d) ∧
    (∀ x : Double, x.isFinite = true →
      ∃ p, decimalToRatio (.number x) = .ok p ∧ (p.1 : ℚ) / p.2 = x.value) ∧
    (∀ value, (∃ p, decimalToRatio value = .ok p) ↔
      ∃ negative d, value.Spells negative d ∧ Bounded d) ∧
    (∀ value p, decimalToRatio value = .ok p → 0 < p.1 →
      (∀ multiplier, 0 < multiplier → ethDiff2Target value multiplier =
        .ok (boundary (ethStratumDiff1Target * multiplier) (p.1 / p.2))) ∧
      (∀ base, 0 < base → fullDiff2Target value base = .ok (boundary base (p.1 / p.2))) ∧
      (value.Positive number →
        kaspaDiffToTarget number value = .ok (boundary (2 ^ 224 - 1) (p.1 / p.2)))) ∧
    (∀ value, ¬value.Positive number →
      kaspaDiffToTarget number value = .error "Invalid Kaspa difficulty") ∧
    (∀ base a b, 0 ≤ base → 0 < a → a ≤ b →
      hexNumber (boundary base b) ≤ hexNumber (boundary base a)) := by
  refine ⟨fun value p h => ?_, fun x hx => decimalToRatio_number hx, fun value => ?_,
    fun value p h hp => ⟨fun m hm => ethDiff2Target_eq h hp hm,
      fun base hb => fullDiff2Target_eq h hp hb, fun hpositive => ?_⟩, fun value hnot => ?_,
    fun base a b hbase ha hab => boundary_antitone hbase ha hab⟩
  · obtain ⟨negative, d, hspells, -, rfl⟩ := decimalToRatio_eq_ok.mp h
    exact ⟨(ratio_spec negative d).1, negative, d, hspells, (ratio_spec negative d).2⟩
  · constructor
    · rintro ⟨p, h⟩
      obtain ⟨negative, d, hspells, hbounds, -⟩ := decimalToRatio_eq_ok.mp h
      exact ⟨negative, d, hspells, hbounds⟩
    · rintro ⟨negative, d, hspells, hbounds⟩
      exact ⟨_, decimalToRatio_eq_ok.mpr ⟨negative, d, hspells, hbounds, rfl⟩⟩
  · rcases positiveDifficulty_cases number value with ⟨-, x, hx⟩ | ⟨hnot, -⟩
    · rw [kaspaDiffToTarget, hx]
      have hbase : (0 : ℤ) < 2 ^ 224 - 1 := by norm_num
      exact fullDiff2Target_eq h hp hbase
    · exact absurd hpositive hnot
  · rcases positiveDifficulty_cases number value with ⟨hpositive, -⟩ | ⟨-, herror⟩
    · exact absurd hpositive hnot
    · rw [kaspaDiffToTarget, herror]
      rfl

/-- The decimal `+1` is a positive difficulty that the Kaspa conversion rejects, whatever its number
is. -/
theorem kaspa_rejects_sign : ¬∃ number : String → Double, ∀ value p,
    decimalToRatio value = .ok p → 0 < p.1 →
      kaspaDiffToTarget number value = .ok (boundary (2 ^ 224 - 1) (p.1 / p.2)) := by
  rintro ⟨number, h⟩
  cases h (.text "+1") (1, 1) rfl (by decide)

end MoMiner.Pool.Decimals
