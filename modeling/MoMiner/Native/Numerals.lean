import MoMiner.Js.Value
import MoMiner.Native.Job

/-!
# Numbers that cross the job boundary

The controller prints the numbers of a job, in decimal or as padded hexadecimal, and the native
core parses them. `optUint_toString` and `optU64Hex_paddedHex` say that the core reads the number that
the controller printed.
-/

namespace MoMiner.Native

open MoMiner.Js

variable {maximum b n : ℕ}

theorem digitOf_digitChar {d : ℕ} (h : d < 16) : digitOf (Nat.digitChar d) = some d := by
  interval_cases d <;> decide

theorem parseDigits_append (maximum radix value : ℕ) (xs ys : List Char) :
    parseDigits maximum radix value (xs ++ ys) =
      (parseDigits maximum radix value xs).bind fun v => parseDigits maximum radix v ys := by
  induction xs generalizing value with
  | nil => rfl
  | cons c cs ih =>
    simp only [List.cons_append, parseDigits, ih]
    cases digitOf c with
    | none => rfl
    | some digit =>
      simp only [Option.bind_eq_bind, Option.bind_some]
      split_ifs <;> rfl

/-- A printed number is parsed, unless it exceeds the maximum. -/
theorem parseDigits_toDigits (hb : 1 < b) (hb' : b ≤ 16) (hn : n ≤ maximum) :
    parseDigits maximum b 0 (Nat.toDigits b n) = some n := by
  induction n using Nat.strong_induction_on with
  | _ n ih =>
    have last : ∀ v, v * b + n % b = n → v = n / b →
        parseDigits maximum b v [Nat.digitChar (n % b)] = some n := by
      intro v hv hdiv
      have hlt : n % b < b := Nat.mod_lt _ (by omega)
      have hroom : v ≤ (maximum - n % b) / b := by
        rw [Nat.le_div_iff_mul_le (by omega)]
        omega
      simp only [parseDigits, digitOf_digitChar (lt_of_lt_of_le hlt hb'), Option.bind_eq_bind,
        Option.bind_some]
      rw [if_neg (by omega), if_neg (by omega), hv]
    rw [Nat.toDigits_eq_if hb]
    split_ifs with hlt
    · have := last 0 (by simp [Nat.mod_eq_of_lt hlt]) (Nat.div_eq_of_lt hlt).symm
      rwa [Nat.mod_eq_of_lt hlt] at this
    · have hdiv : n / b < n := Nat.div_lt_self (by omega) hb
      rw [parseDigits_append, ih _ hdiv (by omega), Option.bind_some]
      exact last _ (Nat.div_add_mod' n b) rfl

theorem parseDigits_replicate_zero (k : ℕ) (hb : 1 < b) :
    parseDigits maximum b 0 (List.replicate k '0') = some 0 := by
  induction k with
  | zero => rfl
  | succ k ih =>
    rw [List.replicate_succ]
    simp only [parseDigits, show digitOf '0' = some 0 by decide, Option.bind_eq_bind,
      Option.bind_some]
    rw [if_neg (by omega), if_neg (Nat.not_lt_zero _), Nat.zero_mul]
    exact ih

theorem parseDigits_mono {maximum' radix value m : ℕ} {text : List Char} (hm : maximum ≤ maximum')
    (h : parseDigits maximum radix value text = some m) :
    parseDigits maximum' radix value text = some m := by
  induction text generalizing value with
  | nil => exact h
  | cons c cs ih =>
    simp only [parseDigits, Option.bind_eq_bind, Option.bind_eq_some_iff] at h ⊢
    obtain ⟨digit, hdigit, h⟩ := h
    split_ifs at h with hd hroom
    refine ⟨digit, hdigit, ?_⟩
    have : (maximum - digit) / radix ≤ (maximum' - digit) / radix :=
      Nat.div_le_div_right (by omega)
    rw [if_neg hd, if_neg (by omega)]
    exact ih h

/-- A printed number is parsed as itself, and refused exactly when it exceeds the maximum. -/
theorem parseDigits_toDigits_eq_some (hb : 1 < b) (hb' : b ≤ 16) (hm : b ≤ maximum + 1) {m : ℕ} :
    parseDigits maximum b 0 (Nat.toDigits b n) = some m ↔ m = n ∧ n ≤ maximum := by
  constructor
  · intro h
    have hle := parseDigits_le (by omega) hm (Nat.zero_le _) h
    have hwide := parseDigits_mono (le_max_left maximum n) h
    rw [parseDigits_toDigits hb hb' (le_max_right maximum n)] at hwide
    cases hwide
    exact ⟨rfl, hle⟩
  · rintro ⟨rfl, hle⟩
    exact parseDigits_toDigits hb hb' hle

/-! ## Decimal -/

theorem parseUnsigned_toString {m : ℕ} (hm : 9 ≤ maximum) :
    parseUnsigned maximum (toString n).toList 10 false = some m ↔ m = n ∧ n ≤ maximum := by
  rw [Nat.toString_eq_ofList_toDigits, String.toList_ofList, parseUnsigned, if_neg (by decide)]
  simp only [Bool.false_and, Bool.false_eq_true, if_false, if_neg Nat.toDigits_ne_nil]
  exact parseDigits_toDigits_eq_some (by decide) (by decide) (by omega)

theorem parseUint_toString {key : String} {m : {m : ℕ // m ≤ maximum}} (hm : maximum ≤ 2 ^ 64 - 1) :
    parseUint (toString n).toList 10 maximum key = .ok m ↔ m.val = n := by
  have hbase : ((10 : ℕ) == 16) = false := by decide
  unfold parseUint
  rw [hbase]
  cases hp : parseUnsigned (2 ^ 64 - 1) (toString n).toList 10 false with
  | none =>
    simp only [reduceCtorEq, false_iff]
    intro hmn
    have hn : n ≤ 2 ^ 64 - 1 := hmn ▸ m.property.trans hm
    rw [(parseUnsigned_toString (by decide)).mpr ⟨rfl, hn⟩] at hp
    cases hp
  | some r =>
    obtain ⟨rfl, -⟩ := (parseUnsigned_toString (by decide)).mp hp
    by_cases hr : maximum < r
    · simp only [dif_pos hr, reduceCtorEq, false_iff]
      intro hmr
      exact absurd (hmr ▸ m.property) (not_le.mpr hr)
    · simp only [dif_neg hr, Except.ok.injEq, ← Subtype.val_inj]
      exact eq_comm

/-- The core reads the decimal that the controller printed, when it fits 32 bits. -/
theorem optUint_toString {v : MessageValues} {key : String} {default m : ℕ}
    (hv : v.lookup key = some (toString n)) :
    optUint v key default = .ok m ↔ m = n ∧ n ≤ 2 ^ 32 - 1 := by
  rw [optUint, hv]
  simp only [Except.bind_eq_ok, parseUint_toString (show 2 ^ 32 - 1 ≤ 2 ^ 64 - 1 by decide)]
  constructor
  · rintro ⟨r, rfl, h⟩
    cases h
    exact ⟨rfl, r.property⟩
  · rintro ⟨rfl, h⟩
    exact ⟨⟨m, h⟩, rfl, rfl⟩

/-! ## Padded hexadecimal -/

/-- `value.toString(16).padStart(width, "0")`. -/
def paddedHex (width n : ℕ) : String := padStart width '0' (toHexString n)

theorem toList_paddedHex (width n : ℕ) : ∃ k, (paddedHex width n).toList =
    List.replicate k '0' ++ Nat.toDigits 16 n := by
  refine ⟨width - (toHexString n).length, ?_⟩
  simp [paddedHex, padStart, toHexString]

theorem mem_toDigits_ne {c : Char} (h : c ∈ Nat.toDigits 16 n) : c ≠ 'x' ∧ c ≠ 'X' := by
  induction n using Nat.strong_induction_on with
  | _ n ih =>
    have digit : ∀ d < 16, Nat.digitChar d ≠ 'x' ∧ Nat.digitChar d ≠ 'X' := by decide
    rw [Nat.toDigits_eq_if (by decide)] at h
    split_ifs at h with hlt
    · rw [List.mem_singleton.mp h]
      exact digit _ hlt
    · rcases List.mem_append.mp h with h | h
      · exact ih _ (Nat.div_lt_self (by omega) (by decide)) h
      · rw [List.mem_singleton.mp h]
        exact digit _ (Nat.mod_lt _ (by decide))

theorem hasHexPrefix_paddedHex (width n : ℕ) : hasHexPrefix (paddedHex width n).toList = false := by
  obtain ⟨k, hk⟩ := toList_paddedHex width n
  have hmem : ∀ c ∈ (paddedHex width n).toList, c ≠ 'x' ∧ c ≠ 'X' := by
    rw [hk]
    intro c hc
    rcases List.mem_append.mp hc with hc | hc
    · rw [List.eq_of_mem_replicate hc]
      decide
    · exact mem_toDigits_ne hc
  unfold hasHexPrefix
  split
  · rename_i h
    exact absurd rfl (hmem 'x' (by simp [h])).1
  · rename_i h
    exact absurd rfl (hmem 'X' (by simp [h])).2
  · rfl

theorem parseUnsigned_paddedHex {width : ℕ} (h : n ≤ maximum) :
    parseUnsigned maximum (paddedHex width n).toList 16 true = some n := by
  obtain ⟨k, hk⟩ := toList_paddedHex width n
  have hne : (paddedHex width n).toList ≠ [] := by
    rw [hk]
    exact List.append_ne_nil_of_right_ne_nil _ Nat.toDigits_ne_nil
  rw [parseUnsigned, if_neg (by decide)]
  simp only [hasHexPrefix_paddedHex, Bool.and_false, Bool.false_eq_true, if_false, if_neg hne]
  rw [hk, parseDigits_append, parseDigits_replicate_zero k (by decide), Option.bind_some]
  exact parseDigits_toDigits (by decide) (by decide) h

/-- The core reads the padded hexadecimal number that the controller printed. -/
theorem optU64Hex_paddedHex {v : MessageValues} {key : String} {width : ℕ}
    (hv : v.lookup key = some (paddedHex width n)) (h : n ≤ 2 ^ 64 - 1) :
    optU64Hex v key = .ok ⟨n, h⟩ := by
  have hbase : ((16 : ℕ) == 16) = true := by decide
  rw [optU64Hex, hv]
  simp only [parseUint, hbase, parseUnsigned_paddedHex h, dif_neg (not_lt.mpr h)]

end MoMiner.Native
