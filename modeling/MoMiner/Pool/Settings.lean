import MoMiner.Pool.Controls

/-!
# What the controls set

A control gives values to settings. Which fields of the job state hold a setting depends on the
dialect (`Setting.read`), and so does what a control carries (`Control.carries`). A control need
not carry all settings of its kind: an extranonce may come without a size, and an empty Raven
target stands for the one before it.

Main result: `applyPoolControl_reads`, the effect of one control on every setting.
-/

namespace MoMiner.Pool

open MoMiner.Js

/-- The settings of the jobs of a pool. -/
inductive Setting
  | target | difficulty
  /-- The difficulty that the dialect's own adapter reads, and the target computed from it. -/
  | dialectDifficulty | difficultyTarget
  | extranonce | extranonceSize
  /-- The extranonce as the adapters of Iron Fish and Beam read it. -/
  | noncePrefix
  | publicKey
  deriving DecidableEq, Repr

def Setting.kind : Setting → ControlKind
  | .target => .target
  | .difficulty | .dialectDifficulty | .difficultyTarget => .difficulty
  | .extranonce | .extranonceSize | .noncePrefix | .publicKey => .extranonce

def numberScalar (q : ℚ) : Scalar := .number (.finite q)

/-- The digits of a target; its `0x` mark may be written twice. -/
def targetDigits (target : String) : String := stripHexMark (stripHexMark target)

/-- The target that Raven jobs use when they have none of their own. -/
def standingRavenTarget (j : JobState) : Option Scalar :=
  let digits := targetDigits (firstText j.ravenTarget j.stratumTarget)
  if digits = "" then none else some (.text (padEnd 64 '0' digits))

/-- The value of a setting in the job state of a dialect. -/
def Setting.read (dialect : Dialect) (j : JobState) : Setting → Option Scalar
  | .target => match dialect with
    | .raven => standingRavenTarget j
    | .eth => j.ethTarget.map .text
    | .zelhash => j.zelhashTarget.map .text
    | .ironfish => j.ironfishTarget.map .text
    | _ => j.stratumTarget.map .text
  | .difficulty => j.ethDifficulty.map numberScalar
  | .dialectDifficulty => match dialect with
    | .xelis => j.xelisDifficulty
    | .verthash => j.verthashDifficulty.map numberScalar
    | .pearlhash => j.pearlhashDifficulty.map numberScalar
    | .kaspa | .hoosat => j.kaspaDifficulty.map numberScalar
    | .echelon => j.nexaDifficulty.map numberScalar
    | _ => none
  | .difficultyTarget => match dialect with
    | .kaspa | .hoosat => j.kaspaTarget.map .text
    | .echelon => j.nexaTarget.map .text
    | _ => none
  | .extranonce => if dialect = .xelis then j.xelisExtraNonce.map .text else j.extraNonce.map .text
  | .extranonceSize => j.extraNonce2Size.map fun n => numberScalar n
  | .noncePrefix => match dialect with
    | .ironfish => j.ironfishXn.map .text
    | .beam => j.beamNonceprefix.map .text
    | _ => none
  | .publicKey => if dialect = .xelis then j.xelisPublicKey.map .text else none

/-! ## What a control carries -/

/-- The target of a `set_target`, as its dialect writes it. -/
def carriedTarget (dialect : Dialect) : Json → Option Scalar
  | .str text => match dialect with
    | .raven => if text = "" then none else some (.text (padEnd 64 '0' (targetDigits text)))
    | .zelhash | .ironfish => some (.text (padStart 64 '0' (stripHexMark text)))
    | _ => some (.text (stripHexMark text))
  | _ => none

def carriedDifficulty (host : Host) (raw : Json) : Option ℚ :=
  (positiveDifficulty host (some raw) "pool").toOption

/-- A XELIS difficulty keeps its spelling, since it may exceed what a number holds. -/
def carriedXelisDifficulty : Json → Option Scalar
  | .str s => some (.text s)
  | raw => (xelisDifficulty (some raw)).toOption.map fun d => numberScalar d

/-- The extranonce and the key that a XELIS `set_extranonce` carries. -/
def carriedXelisExtranonce (value : Json) (rest : List Json) : Option String × Option String :=
  let extraNonce := validHexBytes (some value) 32
  if 2 ≤ rest.length then
    match extraNonce, validHexBytes rest[1]? 32 with
    | some xn, some key => (some xn, some key)
    | _, _ => (some "", some "")
  else (extraNonce, none)

/-- The value that a control carries for a setting, in a dialect that accepts it. -/
def Control.carries (host : Host) (dialect : Dialect) : Control → Setting → Option Scalar
  | .target value, .target => carriedTarget dialect value
  | .difficulty raw, .difficulty =>
    if dialect = .xelis then none else (carriedDifficulty host raw).map numberScalar
  | .difficulty raw, .dialectDifficulty => match dialect with
    | .xelis => carriedXelisDifficulty raw
    | .verthash | .pearlhash | .kaspa | .hoosat | .echelon =>
      (carriedDifficulty host raw).map numberScalar
    | _ => none
  | .difficulty raw, .difficultyTarget => match dialect with
    | .kaspa | .hoosat => (kaspaDiffToTarget host (some raw)).toOption.map .text
    | .echelon => (carriedDifficulty host raw).map fun d => .text (ethDiff2Target d 1)
    | _ => none
  | .extranonce value rest, .extranonce =>
    if dialect = .xelis then (carriedXelisExtranonce value rest).1.map .text
    else some (.text (validExtraNonce (some value)))
  | .extranonce _ rest, .extranonceSize =>
    if dialect = .xelis then none else (rest[0]?.bind extraNonceSize?).map fun n => numberScalar n
  | .extranonce value _, .noncePrefix => match dialect with
    | .ironfish | .beam => some (.text (validExtraNonce (some value)))
    | _ => none
  | .extranonce value rest, .publicKey =>
    if dialect = .xelis then (carriedXelisExtranonce value rest).2.map .text else none
  | _, _ => none

/-- A control carries settings of its own kind only. -/
theorem Control.carries_kind {host : Host} {dialect : Dialect} {control : Control} {k : Setting}
    (h : control.kind ≠ k.kind) : control.carries host dialect k = none := by
  cases control <;> cases k <;> first | rfl | exact absurd rfl h

/-! ## The effect of one control -/

section

variable {host : Host} {dialect : Dialect} {j j' : JobState}

theorem stripHexMark_of_isHex {s : String} (h : isHex s) : stripHexMark s = s := by
  unfold stripHexMark
  split
  · next rest hs => simp [isHex, hs, Bytes.hexValue] at h
  · next rest hs => simp [isHex, hs, Bytes.hexValue] at h
  · rfl

theorem isHex_padEnd {s : String} {width : ℕ} (h : isHex s) : isHex (padEnd width '0' s) := by
  simp only [isHex, padEnd, String.toList_ofList, List.all_append, Bool.and_eq_true] at h ⊢
  refine ⟨h, List.all_eq_true.mpr fun c hc => ?_⟩
  rw [List.eq_of_mem_replicate hc]
  rfl

theorem length_padEnd (width : ℕ) (s : String) : (padEnd width '0' s).length = max width s.length := by
  simp only [padEnd, String.length_ofList, List.length_append, List.length_replicate,
    String.length_toList]
  omega

theorem padEnd_padEnd {m n : ℕ} (h : m ≤ n) (s : String) :
    padEnd n '0' (padEnd m '0' s) = padEnd n '0' s := by
  simp only [padEnd, String.toList_ofList, String.length_ofList, List.length_append,
    List.length_replicate, String.length_toList, List.append_assoc, List.replicate_append_replicate]
  congr 3
  omega

/-- A mark in front is all that `stripHexMark` takes away. -/
theorem stripHexMark_cases (s : String) : stripHexMark s = s ∨
    ∃ c, (c = 'x' ∨ c = 'X') ∧ s = String.ofList ('0' :: c :: (stripHexMark s).toList) := by
  unfold stripHexMark
  split
  · next rest hs => exact .inr ⟨'x', .inl rfl, by rw [String.toList_ofList, ← hs, String.ofList_toList]⟩
  · next rest hs => exact .inr ⟨'X', .inr rfl, by rw [String.toList_ofList, ← hs, String.ofList_toList]⟩
  · exact .inl rfl

theorem stripHexMark_mark {c : Char} (hc : c = 'x' ∨ c = 'X') (cs : List Char) :
    stripHexMark (String.ofList ('0' :: c :: cs)) = String.ofList cs := by
  rcases hc with rfl | rfl <;> simp [stripHexMark]

/-- Padding a target on the right pads its digits. -/
theorem targetDigits_padEnd {s : String} (h : isHex (stripHexMark s)) :
    ∃ n, 0 < n ∧ n ≤ 64 ∧ targetDigits (padEnd 64 '0' s) = padEnd n '0' (stripHexMark s) := by
  rcases stripHexMark_cases s with hs | ⟨c, hc, hs⟩
  · rw [hs] at h ⊢
    have hpad : stripHexMark (padEnd 64 '0' s) = padEnd 64 '0' s :=
      stripHexMark_of_isHex (isHex_padEnd h)
    exact ⟨64, by decide, le_rfl, by rw [targetDigits, hpad, hpad]⟩
  · have hmark : padEnd 64 '0' s =
        String.ofList ('0' :: c :: (padEnd 62 '0' (stripHexMark s)).toList) := by
      conv_lhs => rw [hs]
      simp only [padEnd, String.toList_ofList, String.length_ofList, List.length_cons,
        String.length_toList, List.cons_append]
      congr 5
      omega
    refine ⟨62, by decide, by decide, ?_⟩
    rw [targetDigits, hmark, stripHexMark_mark hc, String.ofList_toList,
      stripHexMark_of_isHex (isHex_padEnd h)]

theorem padEnd_ne_empty {n : ℕ} (h : 0 < n) (s : String) : padEnd n '0' s ≠ "" := by
  intro hempty
  have hlen := length_padEnd n s
  rw [hempty, String.length_empty] at hlen
  omega

theorem standingRavenTarget_set {t : String} (h : boundedHex (stripHexMark t) 32) :
    standingRavenTarget { j with ravenTarget := some (padEnd 64 '0' (stripHexMark t)) } =
      some (.text (padEnd 64 '0' (targetDigits t))) := by
  simp only [boundedHex, Bool.and_eq_true] at h
  have hne := padEnd_ne_empty (n := 64) (by decide) (stripHexMark t)
  have hfirst : firstText (some (padEnd 64 '0' (stripHexMark t))) j.stratumTarget =
      padEnd 64 '0' (stripHexMark t) := by
    simp [firstText, firstName, hne]
  obtain ⟨n, hpos, hle, hdigits⟩ := targetDigits_padEnd h.2
  simp only [standingRavenTarget, hfirst, hdigits, if_neg (padEnd_ne_empty hpos _),
    padEnd_padEnd hle]
  rfl

theorem ravenTarget_reads {text target : String} (h : ravenTarget j (some (.str text)) = .ok target) :
    standingRavenTarget { j with ravenTarget := some target } =
      (carriedTarget .raven (.str text)).or (standingRavenTarget j) := by
  unfold ravenTarget at h
  obtain ⟨_, hbound, h⟩ := Except.bind_eq_ok.mp h
  cases h
  rw [throwIf_eq_ok, not_not] at hbound
  by_cases htext : text = ""
  · -- the standing target is spelled out once more
    simp only [Json.isText, htext, decide_true, Option.any_some, Bool.or_true, if_true,
      hexWithoutPrefix] at hbound ⊢
    rw [standingRavenTarget_set hbound]
    simp only [boundedHex, Bool.and_eq_true, decide_eq_true_eq] at hbound
    have hdigits : targetDigits (firstText j.ravenTarget j.stratumTarget) ≠ "" := hbound.1.1
    simp [carriedTarget, standingRavenTarget, hdigits]
  · simp only [Json.isText, htext, decide_false, Option.any_some, Json.isNullish, Bool.or_self,
      Bool.false_eq_true, if_false, hexWithoutPrefix] at hbound ⊢
    rw [standingRavenTarget_set hbound]
    simp [carriedTarget, htext]

theorem Setting.kind_eq_target {k : Setting} : k.kind = .target ↔ k = .target := by
  cases k <;> decide

theorem handleSetTarget_reads {value : Json} (h : handleSetTarget dialect j value = .ok j')
    (k : Setting) :
    k.read dialect j' = ((Control.target value).carries host dialect k).or (k.read dialect j) := by
  cases value with
  | str text =>
    simp only [handleSetTarget] at h
    by_cases hk : k = .target
    · subst hk
      by_cases hraven : dialect = .raven
      · subst hraven
        obtain ⟨target, htarget, h⟩ := Except.bind_eq_ok.mp h
        cases h
        exact ravenTarget_reads htarget
      · simp only [if_neg hraven] at h
        obtain ⟨_, _, h⟩ := Except.bind_eq_ok.mp h
        cases dialect <;> cases h <;> first | exact (hraven rfl).elim | rfl
    · -- the other settings are in other fields
      have hkind : (Control.target (.str text)).kind ≠ k.kind :=
        fun h => hk (Setting.kind_eq_target.mp h.symm)
      rw [Control.carries_kind hkind, Option.none_or]
      split at h
      · obtain ⟨target, -, h⟩ := Except.bind_eq_ok.mp h
        cases h
        cases k <;> first | exact (hk rfl).elim | rfl
      · obtain ⟨_, -, h⟩ := Except.bind_eq_ok.mp h
        split at h <;> cases h <;> cases k <;> first | exact (hk rfl).elim | rfl
  | _ => cases h

/-- What a difficulty writes outside XELIS: the common field, and those of the dialect. -/
theorem handleSetDifficulty_eq_ok {raw : Json} (hxelis : dialect ≠ .xelis)
    (h : handleSetDifficulty host dialect j raw = .ok j') :
    ∃ d, carriedDifficulty host raw = some d ∧ j' = { j with
      ethDifficulty := some d
      verthashDifficulty := if dialect = .verthash then some d else j.verthashDifficulty
      pearlhashDifficulty := if dialect = .pearlhash then some d else j.pearlhashDifficulty
      kaspaDifficulty :=
        if dialect = .kaspa ∨ dialect = .hoosat then some d else j.kaspaDifficulty
      kaspaTarget :=
        if dialect = .kaspa ∨ dialect = .hoosat then
          (kaspaDiffToTarget host (some raw)).toOption.or j.kaspaTarget
        else j.kaspaTarget
      nexaDifficulty := if dialect = .echelon then some d else j.nexaDifficulty
      nexaTarget := if dialect = .echelon then some (ethDiff2Target d 1) else j.nexaTarget } := by
  simp only [handleSetDifficulty, if_neg hxelis] at h
  obtain ⟨d, hd, h⟩ := Except.bind_eq_ok.mp h
  refine ⟨d, by rw [carriedDifficulty, hd]; rfl, ?_⟩
  cases dialect with
  | kaspa | hoosat =>
    obtain ⟨target, htarget, h⟩ := Except.bind_eq_ok.mp h
    cases h
    simp [htarget, Except.toOption]
  | xelis => exact (hxelis rfl).elim
  | _ =>
    cases h
    rfl

theorem handleSetDifficulty_reads {raw : Json} (h : handleSetDifficulty host dialect j raw = .ok j')
    (k : Setting) :
    k.read dialect j' = ((Control.difficulty raw).carries host dialect k).or (k.read dialect j) := by
  by_cases hxelis : dialect = .xelis
  · subst hxelis
    obtain ⟨exact, hexact, h⟩ := Except.bind_eq_ok.mp h
    cases h
    cases k with
    | dialectDifficulty =>
      cases raw <;> simp [Setting.read, Control.carries, carriedXelisDifficulty, hexact,
        Except.toOption, numberScalar]
    | _ => rfl
  · obtain ⟨d, hd, rfl⟩ := handleSetDifficulty_eq_ok hxelis h
    cases k with
    | difficulty => simp [Setting.read, Control.carries, hxelis, hd]
    | dialectDifficulty => cases dialect <;> simp [Setting.read, Control.carries, hd] at hxelis ⊢
    | difficultyTarget =>
      cases dialect <;> simp [Setting.read, Control.carries, hd] <;>
        cases kaspaDiffToTarget host (some raw) <;> rfl
    | _ => rfl

theorem rememberXelisExtranonce_eq (value : Json) (rest : List Json) :
    j.rememberXelisExtranonce value rest = { j with
      xelisExtraNonce := (carriedXelisExtranonce value rest).1.or j.xelisExtraNonce
      xelisPublicKey := (carriedXelisExtranonce value rest).2.or j.xelisPublicKey } := by
  unfold JobState.rememberXelisExtranonce carriedXelisExtranonce
  split_ifs
  · cases validHexBytes (some value) 32 <;> cases validHexBytes rest[1]? 32 <;> rfl
  · cases validHexBytes (some value) 32 <;> rfl

/-- What an extranonce writes outside XELIS: a size only when it comes with one. -/
theorem handleSetExtranonce_eq_ok {value : Json} {rest : List Json} (hxelis : dialect ≠ .xelis)
    (h : handleSetExtranonce dialect j value rest = .ok j') :
    j' = { j with
      extraNonce := some (validExtraNonce (some value))
      ironfishXn :=
        if dialect = .ironfish then some (validExtraNonce (some value)) else j.ironfishXn
      beamNonceprefix :=
        if dialect = .beam then some (validExtraNonce (some value)) else j.beamNonceprefix
      extraNonce2Size := (rest[0]?.bind extraNonceSize?).or j.extraNonce2Size } := by
  have hsize : ∀ {j₁ j₂ : JobState}, j₁.rememberExtraNonceSize rest[0]? = .ok j₂ →
      j₂ = { j₁ with
        extraNonce2Size := (rest[0]?.bind extraNonceSize?).or j₁.extraNonce2Size } := by
    intro j₁ j₂ h
    unfold JobState.rememberExtraNonceSize at h
    split at h
    · next hrest =>
      cases h
      simp [hrest]
    · next v hrest =>
      cases hv : extraNonceSize? v with
      | none => simp [hv] at h
      | some size =>
        simp only [hv] at h
        cases h
        simp [hrest, hv]
  simp only [handleSetExtranonce, if_neg hxelis] at h
  obtain ⟨_, -, h⟩ := Except.bind_eq_ok.mp h
  cases dialect with
  | beam =>
    obtain ⟨_, -, h⟩ := Except.bind_eq_ok.mp h
    exact hsize h
  | xelis => exact (hxelis rfl).elim
  | _ => exact hsize h

theorem handleSetExtranonce_reads {value : Json} {rest : List Json}
    (h : handleSetExtranonce dialect j value rest = .ok j') (k : Setting) :
    k.read dialect j' =
      ((Control.extranonce value rest).carries host dialect k).or (k.read dialect j) := by
  by_cases hxelis : dialect = .xelis
  · subst hxelis
    simp only [handleSetExtranonce, if_true] at h
    cases h
    rw [rememberXelisExtranonce_eq]
    cases k with
    | extranonce =>
      simp only [Setting.read, Control.carries, if_true]
      cases (carriedXelisExtranonce value rest).1 <;> rfl
    | publicKey =>
      simp only [Setting.read, Control.carries, if_true]
      cases (carriedXelisExtranonce value rest).2 <;> rfl
    | _ => rfl
  · cases handleSetExtranonce_eq_ok hxelis h
    cases k with
    | extranonce => simp [Setting.read, Control.carries, hxelis]
    | extranonceSize =>
      simp only [Setting.read, Control.carries, if_neg hxelis]
      cases rest[0]?.bind extraNonceSize? <;> rfl
    | noncePrefix => cases dialect <;> simp [Setting.read, Control.carries] at hxelis ⊢
    | publicKey => simp [Setting.read, Control.carries, hxelis]
    | _ => rfl

/-- **One control.** A control gives its settings the values that it carries, and leaves every
other setting as it was. -/
theorem applyPoolControl_reads {control : Control}
    (h : applyPoolControl host dialect j control = .ok j') (k : Setting) :
    k.read dialect j' = (control.carries host dialect k).or (k.read dialect j) := by
  cases control with
  | target value => exact handleSetTarget_reads h k
  | difficulty raw => exact handleSetDifficulty_reads h k
  | extranonce value rest => exact handleSetExtranonce_reads h k

end

end MoMiner.Pool
