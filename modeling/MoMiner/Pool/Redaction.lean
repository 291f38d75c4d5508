import MoMiner.Js.CodeUnits
import MoMiner.Lib.Masking

/-!
# Credentials in logged texts

`redactPoolText` replaces the parts of a pool's login, its worker name and its password in a text
that is logged. Each is looked for as it is and as JSON writes it, the longest first; a short one
only where it stands as a word.

**Main result (`credential_redacted`).** No credential of four units or more is left in the text,
nor its JSON form, unless the mark itself could be mistaken for a part of it. The order of the
passes does not matter for this: each pass masks parts of the text, a later pass adds no occurrence
(`Masked.isInfix`), and the credential's own pass leaves none.

The case folding of the regular expressions is a parameter.
-/

namespace MoMiner.Pool

open MoMiner.Js MoMiner.Masking

/-! ## Needles -/

/-- What a pool of `global.opt.pools` has of credentials. -/
structure Account where
  login : Option (List CodeUnit) := none
  worker : Option (List CodeUnit) := none
  pass : Option (List CodeUnit) := none

def dot : CodeUnit := 0x2e

/-- `text.lastIndexOf(unit)`. -/
def lastIndexOf? (text : List CodeUnit) (unit : CodeUnit) : Option ℕ :=
  (text.reverse.idxOf? unit).map fun i => text.length - 1 - i

/-- The login, the wallet before its first and before its last dot, the part after the last dot,
the worker name and the password, as far as they are not empty. -/
def credentials (pool : Account) : List (List CodeUnit) :=
  let login := pool.login.getD []
  let (wallet, rig) := match lastIndexOf? login dot with
    | some (n + 1) => (login.take (n + 1), login.drop (n + 2))
    | _ => ([], [])
  [login, login.takeWhile (· ≠ dot), wallet, rig, pool.worker.getD [], pool.pass.getD []].filter
    (· ≠ [])

/-- What is looked for, each text once and the longest first. -/
def needles (pool : Account) : List (List CodeUnit) :=
  ((credentials pool).flatMap fun credential => [credential, quoted credential]).eraseDups.mergeSort
    fun left right => right.length ≤ left.length

theorem mem_needles {pool : Account} {credential : List CodeUnit}
    (h : credential ∈ credentials pool) :
    credential ∈ needles pool ∧ quoted credential ∈ needles pool := by
  simp only [needles, List.mem_mergeSort, List.mem_eraseDups, List.mem_flatMap]
  exact ⟨⟨credential, h, by simp⟩, ⟨credential, h, by simp⟩⟩

/-! ## Passes -/

/-- `<redacted>`. -/
def redacted : List CodeUnit := 0x3c :: ascii "redacted" ++ [0x3e]

/-- An occurrence of the needle: `text.split(needle)`. -/
def literal (needle : List CodeUnit) (_start : Bool) (text : List CodeUnit) : Option Match :=
  if h : needle ≠ [] ∧ needle <+: text then
    some ⟨0, needle.length, List.length_pos_iff.mpr h.1⟩
  else none

section

variable (canonicalize : CodeUnit → CodeUnit)

/-- `/[a-z0-9]/i`. -/
def isWordUnit (unit : CodeUnit) : Bool :=
  ((List.range 26).map (0x61 + UInt16.ofNat ·) ++ (List.range 10).map (0x30 + UInt16.ofNat ·)).any
    fun member => canonicalize member = canonicalize unit

/-- The needle stands here, in either case, and no letter or digit follows. -/
def standsAt (needle text : List CodeUnit) : Bool :=
  (needle.map canonicalize).isPrefixOf (text.map canonicalize) &&
    ((text.drop needle.length).head?.all fun unit => !isWordUnit canonicalize unit)

/-- ``(^|[^a-z0-9])${escaped}(?=$|[^a-z0-9])`` with its flag `i`, of which the group stays. -/
def asWord (needle : List CodeUnit) (start : Bool) (text : List CodeUnit) : Option Match :=
  if h : needle = [] then none
  else if start && standsAt canonicalize needle text then
    some ⟨0, needle.length, List.length_pos_iff.mpr h⟩
  else match text with
    | unit :: rest =>
      if !isWordUnit canonicalize unit && standsAt canonicalize needle rest then
        some ⟨1, needle.length, List.length_pos_iff.mpr h⟩
      else none
    | [] => none

def redactNeedle (text needle : List CodeUnit) : List CodeUnit :=
  if text = needle then redacted
  else if 4 ≤ needle.length then replaceAll (literal needle) redacted true text
  else replaceAll (asWord canonicalize needle) redacted true text

def redactPoolText (pool : Account) (value : List CodeUnit) : List CodeUnit :=
  (needles pool).foldl (redactNeedle canonicalize) value

/-- What `pool_log_json` logs of a message, whose printing may throw or give `undefined`. -/
def poolLogJson (pool : Account) (printed : Except Unit (Option (List CodeUnit))) :
    List CodeUnit :=
  match printed with
  | .ok json => redactPoolText canonicalize pool (json.getD (ascii "undefined"))
  | .error _ => ascii "\"<unprintable pool JSON>\""

/-! ## What is left -/

theorem redactNeedle_masked (text needle : List CodeUnit) :
    Masked redacted text (redactNeedle canonicalize text needle) := by
  rw [redactNeedle]
  split
  · exact Masked.whole redacted text
  · split
    · exact replaceAll_masked _ redacted true text
    · exact replaceAll_masked _ redacted true text

/-- The needle's own pass leaves none. -/
theorem not_isInfix_redactNeedle {needle : List CodeUnit} (text : List CodeUnit)
    (h : Avoids 0x3c (ascii "redacted") 0x3e needle) (hlength : 4 ≤ needle.length) :
    ¬ needle <:+: redactNeedle canonicalize text needle := by
  rw [redactNeedle, if_pos hlength]
  split
  · exact h.not_isInfix_mark
  · refine not_isInfix_replaceAll true text h (fun _ text hnone => ?_) (fun _ text m hsome => ?_)
    · intro hstart
      rw [literal, dif_pos ⟨h.ne_nil, hstart⟩] at hnone
      cases hnone
    · rw [literal] at hsome
      split at hsome
      · cases hsome
        rfl
      · cases hsome

theorem not_isInfix_foldl {needle : List CodeUnit} (passes : List (List CodeUnit))
    {text : List CodeUnit} (h : Avoids 0x3c (ascii "redacted") 0x3e needle)
    (hnone : ¬ needle <:+: text) : ¬ needle <:+: passes.foldl (redactNeedle canonicalize) text := by
  induction passes generalizing text with
  | nil => exact hnone
  | cons pass passes ih =>
    exact ih fun hinside => hnone ((redactNeedle_masked canonicalize text pass).isInfix h hinside)

/-- A long needle that avoids the mark is gone after all passes. -/
theorem not_isInfix_redactPoolText {pool : Account} {needle : List CodeUnit}
    (hmem : needle ∈ needles pool) (h : Avoids 0x3c (ascii "redacted") 0x3e needle)
    (hlength : 4 ≤ needle.length) (value : List CodeUnit) :
    ¬ needle <:+: redactPoolText canonicalize pool value := by
  obtain ⟨before, after, hsplit⟩ := List.append_of_mem hmem
  rw [redactPoolText, hsplit, List.foldl_append, List.foldl_cons]
  exact not_isInfix_foldl canonicalize after h (not_isInfix_redactNeedle canonicalize _ h hlength)

end

/-- JSON writes nothing of the mark into a needle. -/
theorem avoids_quoted {needle : List CodeUnit}
    (h : Avoids 0x3c (ascii "redacted") 0x3e needle) :
    Avoids 0x3c (ascii "redacted") 0x3e (quoted needle) where
  ne_nil hnil := by
    have hlength := length_le_quoted needle
    rw [hnil] at hlength
    exact h.ne_nil (List.length_eq_zero_iff.mp (Nat.le_zero.mp hlength))
  front hmem := h.front (mem_of_mem_quoted (.inl rfl) hmem)
  back hmem := h.back (mem_of_mem_quoted (.inr rfl) hmem)
  inner hinside := by
    have hplain : backslash ∉ ascii "redacted" := by decide
    rw [quoted_eq_self fun hmem => hplain (hinside.subset hmem)] at hinside
    exact h.inner hinside

/-- **Credentials do not survive redaction.** A credential of at least four units that the mark
cannot be mistaken for is in no redacted text and no logged message, as it is or as JSON writes
it. -/
theorem credential_redacted (canonicalize : CodeUnit → CodeUnit) (pool : Account)
    {credential : List CodeUnit} (hmem : credential ∈ credentials pool)
    (hlength : 4 ≤ credential.length) (hfront : 0x3c ∉ credential) (hback : 0x3e ∉ credential)
    (hword : ¬ credential <:+: ascii "redacted") :
    (∀ value, ¬ credential <:+: redactPoolText canonicalize pool value ∧
      ¬ quoted credential <:+: redactPoolText canonicalize pool value) ∧
    ∀ json, ¬ credential <:+: poolLogJson canonicalize pool (.ok json) ∧
      ¬ quoted credential <:+: poolLogJson canonicalize pool (.ok json) := by
  have hne : credential ≠ [] := fun hnil => by simp [hnil] at hlength
  have havoids : Avoids 0x3c (ascii "redacted") 0x3e credential := ⟨hne, hfront, hback, hword⟩
  obtain ⟨hplain, hquoted⟩ := mem_needles hmem
  have hgone (value : List CodeUnit) : ¬ credential <:+: redactPoolText canonicalize pool value ∧
      ¬ quoted credential <:+: redactPoolText canonicalize pool value :=
    ⟨not_isInfix_redactPoolText canonicalize hplain havoids hlength value,
      not_isInfix_redactPoolText canonicalize hquoted (avoids_quoted havoids)
        (hlength.trans (length_le_quoted credential)) value⟩
  exact ⟨hgone, fun json => hgone _⟩

/-- The canonicalization of ASCII letters. -/
def upperUnit (unit : CodeUnit) : CodeUnit :=
  if 0x61 ≤ unit && unit ≤ 0x7a then unit - 0x20 else unit

/-- The password ends as the login begins, and the text has them overlapping. -/
theorem wallet_redacted :
    ¬ ascii "4Axyz" <:+: redactPoolText upperUnit
        { login := some (ascii "4Axyz.rig"), pass := some (ascii "rig:4Ax") }
        (ascii "rig:4Axyz.rig") ∧
      ¬ quoted (ascii "4Axyz") <:+: redactPoolText upperUnit
        { login := some (ascii "4Axyz.rig"), pass := some (ascii "rig:4Ax") }
        (ascii "rig:4Axyz.rig") :=
  (@credential_redacted upperUnit
    { login := some (ascii "4Axyz.rig"), pass := some (ascii "rig:4Ax") } (ascii "4Axyz")
    (by decide) (by decide) (by decide) (by decide) (by decide)).1 _

end MoMiner.Pool
