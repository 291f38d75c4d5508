import Mathlib.Data.List.Basic
import Mathlib.Data.List.Infix

/-!
# Strings as code units

A string of the language is a sequence of 16-bit code units, surrogates paired or not. `quoted` is
what `JSON.stringify` writes of a string between the quotes.

**Main results.** Quoting a string does not shorten it (`length_le_quoted`), it changes a string
only by writing a backslash (`quoted_eq_self`), and `<` and `>` are written for themselves only
(`mem_of_mem_quoted`).
-/

namespace MoMiner.Js

abbrev CodeUnit := UInt16

/-- The code units of an ASCII literal. -/
def ascii (literal : String) : List CodeUnit := literal.toList.map fun c => c.toNat.toUInt16

def backslash : CodeUnit := 0x5c

/-! ## JSON quotation -/

def isLeadSurrogate (u : CodeUnit) : Bool := 0xd800 ≤ u && u ≤ 0xdbff

def isTrailSurrogate (u : CodeUnit) : Bool := 0xdc00 ≤ u && u ≤ 0xdfff

/-- A hexadecimal digit, in lower case. -/
def hexDigit (n : CodeUnit) : CodeUnit := if n < 10 then 0x30 + n else 0x57 + n

/-- `\u` and four hexadecimal digits. -/
def unicodeEscape (u : CodeUnit) : List CodeUnit :=
  [backslash, 0x75, hexDigit (u / 0x1000), hexDigit (u / 0x100 % 0x10), hexDigit (u / 0x10 % 0x10),
    hexDigit (u % 0x10)]

/-- What is written for a code unit that is not half of a pair. -/
def quotedUnit (u : CodeUnit) : List CodeUnit :=
  if u = 0x08 then [backslash, 0x62]
  else if u = 0x09 then [backslash, 0x74]
  else if u = 0x0a then [backslash, 0x6e]
  else if u = 0x0c then [backslash, 0x66]
  else if u = 0x0d then [backslash, 0x72]
  else if u = 0x22 || u = backslash then [backslash, u]
  else if u < 0x20 || isLeadSurrogate u || isTrailSurrogate u then unicodeEscape u
  else [u]

/-- `JSON.stringify(text).slice(1, -1)`. -/
def quoted : List CodeUnit → List CodeUnit
  | [] => []
  | [u] => quotedUnit u
  | u :: v :: rest =>
    if isLeadSurrogate u && isTrailSurrogate v then u :: v :: quoted rest
    else quotedUnit u ++ quoted (v :: rest)

theorem quotedUnit_cases (u : CodeUnit) :
    quotedUnit u = [u] ∨ ∃ first rest, quotedUnit u = backslash :: first :: rest := by
  simp only [quotedUnit, unicodeEscape]
  grind

theorem length_le_quoted (text : List CodeUnit) : text.length ≤ (quoted text).length := by
  fun_induction quoted text with
  | case1 => simp
  | case2 u =>
    rcases quotedUnit_cases u with h | ⟨first, rest, h⟩ <;> simp [h]
  | case3 u v rest _ ih => simpa using ih
  | case4 u v rest _ ih =>
    rw [List.length_cons, List.length_append]
    have hu : 0 < (quotedUnit u).length := by
      rcases quotedUnit_cases u with h | ⟨first, rest, h⟩ <;> simp [h]
    omega

/-- A text that is written differently is written with a backslash. -/
theorem quoted_eq_self {text : List CodeUnit} (h : backslash ∉ quoted text) :
    quoted text = text := by
  have hunit {u : CodeUnit} (hu : backslash ∉ quotedUnit u) : quotedUnit u = [u] := by
    rcases quotedUnit_cases u with hself | ⟨first, rest, hescape⟩
    · exact hself
    · exact absurd (by simp [hescape]) hu
  fun_induction quoted text with
  | case1 => rfl
  | case2 u => exact hunit h
  | case3 u v rest _ ih =>
    simp only [List.mem_cons, not_or] at h
    rw [ih h.2.2]
  | case4 u v rest _ ih =>
    simp only [List.mem_append, not_or] at h
    rw [hunit h.1, ih h.2, List.singleton_append]

theorem hexDigit_ne {n : CodeUnit} (hn : n < 0x10) : hexDigit n ≠ 0x3c ∧ hexDigit n ≠ 0x3e := by
  rw [hexDigit]
  grind

/-- Angle brackets are written for themselves only. -/
theorem mem_of_mem_quotedUnit {u x : CodeUnit} (hx : x = 0x3c ∨ x = 0x3e)
    (h : x ∈ quotedUnit u) : x = u := by
  have hhigh : u / 0x1000 < 0x10 := by
    have hlt := u.toNat_lt
    rw [UInt16.lt_iff_toNat_lt, UInt16.toNat_div]
    exact Nat.div_lt_of_lt_mul hlt
  have hmod (n : CodeUnit) : n % 0x10 < 0x10 := by
    rw [UInt16.lt_iff_toNat_lt, UInt16.toNat_mod]
    exact Nat.mod_lt _ (by decide)
  have h₁ := hexDigit_ne hhigh
  have h₂ := hexDigit_ne (hmod (u / 0x100))
  have h₃ := hexDigit_ne (hmod (u / 0x10))
  have h₄ := hexDigit_ne (hmod u)
  simp only [quotedUnit, unicodeEscape, backslash] at h
  grind

theorem mem_of_mem_quoted {text : List CodeUnit} {x : CodeUnit} (hx : x = 0x3c ∨ x = 0x3e)
    (h : x ∈ quoted text) : x ∈ text := by
  fun_induction quoted text with
  | case1 => exact h
  | case2 u => exact List.mem_singleton.mpr (mem_of_mem_quotedUnit hx h)
  | case3 u v rest _ ih =>
    simp only [List.mem_cons] at h ⊢
    exact h.imp_right (Or.imp_right ih)
  | case4 u v rest _ ih =>
    rcases List.mem_append.mp h with hu | hrest
    · exact List.mem_cons.mpr (.inl (mem_of_mem_quotedUnit hx hu))
    · exact List.mem_cons_of_mem _ (ih hrest)

end MoMiner.Js
