import MoMiner.Native.Commands
import MoMiner.Pool.Settings

/-!
# Difficulties and thresholds

The controller writes a difficulty as a compact target (`diff2target`) and shows the difficulty of a
target (`target2diff`); the native worker reads its 64-bit threshold from the same text
(`parse_target_hex`).

Main results: `diff2target_threshold` and `target2diff_iff`.
-/

namespace MoMiner.Pool

open MoMiner.Bytes MoMiner.Js MoMiner.Native

/-! ## Bytes as text -/

theorem ofHex_append {as bs : List Char} {xs ys : List UInt8} (ha : ofHex as = some xs)
    (hb : ofHex bs = some ys) : ofHex (as ++ bs) = some (xs ++ ys) := by
  induction as using List.twoStepInduction generalizing xs with
  | nil =>
    cases ha
    exact hb
  | singleton c => cases ha
  | cons_cons a b cs ih =>
    rw [ofHex_cons_cons] at ha
    obtain ⟨hi, hhi, lo, hlo, rest, hrest, hxs⟩ := ha
    cases hxs
    rw [List.cons_append, List.cons_append, ofHex_cons_cons]
    exact ⟨hi, hhi, lo, hlo, _, ih hrest, rfl⟩

theorem ofHex_reverseHex {cs : List Char} {bs : List UInt8} (h : ofHex cs = some bs) :
    ofHex (reverseHex cs) = some bs.reverse := by
  induction cs using List.twoStepInduction generalizing bs with
  | nil =>
    cases h
    rfl
  | singleton c => cases h
  | cons_cons a b cs ih =>
    rw [ofHex_cons_cons] at h
    obtain ⟨hi, hhi, lo, hlo, rest, hrest, hbs⟩ := h
    cases hbs
    have hpair : ofHex [a, b] = some [UInt8.ofNat (hi * 16 + lo)] := by simp [ofHex, hhi, hlo]
    rw [reverseHex, List.reverse_cons]
    exact ofHex_append (ih hrest) hpair

/-- A text of hexadecimal digits of even length is the text of some bytes. -/
theorem exists_ofHex {cs : List Char} (h : ∀ c ∈ cs, (hexValue c).isSome)
    (heven : cs.length % 2 = 0) : ∃ bs, ofHex cs = some bs := by
  induction cs using List.twoStepInduction with
  | nil => exact ⟨[], rfl⟩
  | singleton c => simp at heven
  | cons_cons a b cs ih =>
    obtain ⟨hi, hhi⟩ := Option.isSome_iff_exists.mp (h a (by simp))
    obtain ⟨lo, hlo⟩ := Option.isSome_iff_exists.mp (h b (by simp))
    have htail : ∀ c ∈ cs, (hexValue c).isSome := fun c hc => h c (by simp [hc])
    obtain ⟨rest, hrest⟩ := ih htail (by simp only [List.length_cons] at heven; omega)
    exact ⟨UInt8.ofNat (hi * 16 + lo) :: rest, by simp only [ofHex, hhi, hlo, hrest,
      Option.bind_eq_bind, Option.bind_some]⟩

theorem isHex_of_ofHex {s : String} {bs : List UInt8} (h : ofHex s.toList = some bs) :
    isHex s = true := by
  unfold isHex
  generalize s.toList = cs at h
  induction cs using List.twoStepInduction generalizing bs with
  | nil => rfl
  | singleton c => cases h
  | cons_cons a b cs ih =>
    rw [ofHex_cons_cons] at h
    obtain ⟨hi, hhi, lo, hlo, rest, hrest, -⟩ := h
    simp only [List.all_cons, hhi, hlo, Option.isSome_some, Bool.true_and]
    exact ih hrest

theorem ofLE_append (as bs : List UInt8) :
    ofLE (as ++ bs) = ofLE as + 256 ^ as.length * ofLE bs := by
  induction as with
  | nil => simp [ofLE]
  | cons a as ih =>
    rw [List.cons_append, ofLE, ofLE, ih, List.length_cons, pow_succ]
    ring

@[simp] theorem ofLE_replicate_zero (n : ℕ) : ofLE (List.replicate n 0) = 0 := by
  induction n with
  | zero => rfl
  | succ n ih => simp [List.replicate_succ, ofLE, ih]

theorem ofHex_replicate_zero (n : ℕ) :
    ofHex (List.replicate (2 * n) '0') = some (List.replicate n 0) := by
  induction n with
  | zero => rfl
  | succ n ih =>
    rw [Nat.mul_succ, List.replicate_add, Nat.add_comm n 1, List.replicate_add]
    rw [List.replicate_append_replicate, Nat.add_comm (2 * n), ← List.replicate_append_replicate]
    exact ofHex_append rfl ih

theorem hexValue_lt {c : Char} {v : ℕ} (h : hexValue c = some v) : v < 16 ∧ (v = 0 → c = '0') := by
  have hle : ∀ a : Char, c ≤ a ↔ c.toNat ≤ a.toNat := fun a => UInt32.le_iff_toNat_le
  have hge : ∀ a : Char, a ≤ c ↔ a.toNat ≤ c.toNat := fun a => UInt32.le_iff_toNat_le
  have hchar : c.toNat = 48 → c = '0' := fun h => Char.toNat_inj.mp h
  unfold hexValue at h
  simp only [hle, hge, show '0'.toNat = 48 by rfl, show '9'.toNat = 57 by rfl,
    show 'a'.toNat = 97 by rfl, show 'f'.toNat = 102 by rfl, show 'A'.toNat = 65 by rfl,
    show 'F'.toNat = 70 by rfl] at h
  split_ifs at h with h₁ h₂ h₃
  · cases h
    exact ⟨by omega, fun h => hchar (by omega)⟩
  · cases h
    exact ⟨by omega, fun h => by omega⟩
  · cases h
    exact ⟨by omega, fun h => by omega⟩

/-- The number of a text is that of its bytes. -/
theorem hexNumber_of_ofHex {cs : List Char} {bs : List UInt8} (h : ofHex cs = some bs) :
    hexNumber (String.ofList cs) = ofBE bs := by
  have hrun : ∀ v, cs.foldl (fun v c => 16 * v + (hexValue c).getD 0) v =
      bs.foldl (fun v b => v * 256 + b.toNat) v := by
    induction cs using List.twoStepInduction generalizing bs with
    | nil =>
      cases h
      exact fun v => rfl
    | singleton c => cases h
    | cons_cons a b cs ih =>
      rw [ofHex_cons_cons] at h
      obtain ⟨hi, hhi, lo, hlo, rest, hrest, hbs⟩ := h
      cases hbs
      intro v
      have hbyte : (UInt8.ofNat (hi * 16 + lo)).toNat = hi * 16 + lo := by
        have := (hexValue_lt hhi).1
        have := (hexValue_lt hlo).1
        rw [UInt8.toNat_ofNat']
        omega
      rw [List.foldl_cons, List.foldl_cons, List.foldl_cons, ih hrest, hbyte, hhi, hlo]
      congr 1
      simp only [Option.getD_some]
      omega
  rw [hexNumber, String.toList_ofList, ofBE]
  exact hrun 0

/-- Bytes that are all zero are written with zeros. -/
theorem eq_zero_of_ofLE {cs : List Char} {bs : List UInt8} (h : ofHex cs = some bs)
    (hzero : ofLE bs = 0) : ∀ c ∈ cs, c = '0' := by
  induction cs using List.twoStepInduction generalizing bs with
  | nil => simp
  | singleton c => cases h
  | cons_cons a b cs ih =>
    rw [ofHex_cons_cons] at h
    obtain ⟨hi, hhi, lo, hlo, rest, hrest, hbs⟩ := h
    cases hbs
    have hhi' := hexValue_lt hhi
    have hlo' := hexValue_lt hlo
    rw [ofLE, UInt8.toNat_ofNat'] at hzero
    refine List.forall_mem_cons.mpr ⟨hhi'.2 (by omega), List.forall_mem_cons.mpr ⟨hlo'.2 (by omega), ?_⟩⟩
    exact ih hrest (by omega)

theorem jsLength_of_isHex {s : String} (h : isHex s = true) : jsLength s = s.length := by
  have hnarrow : ∀ c, (hexValue c).isSome → c.toNat < 0x10000 := by
    intro c hc
    have hle : ∀ a : Char, c ≤ a ↔ c.toNat ≤ a.toNat := fun a => UInt32.le_iff_toNat_le
    unfold hexValue at hc
    simp only [hle, show '9'.toNat = 57 by rfl, show 'f'.toNat = 102 by rfl,
      show 'F'.toNat = 70 by rfl] at hc
    split_ifs at hc with h₁ h₂ h₃
    · omega
    · omega
    · omega
    · cases hc
  have hone : ∀ c ∈ s.toList, (if c.toNat < 0x10000 then 1 else 2) = 1 := fun c hc =>
    if_pos (hnarrow c (List.all_eq_true.mp h c hc))
  rw [jsLength, List.map_congr_left hone, List.map_const', List.sum_replicate, smul_eq_mul, mul_one,
    String.length_toList]

/-! ## Two divisions -/

/-- A divisor below the square root is recovered from its quotient. -/
theorem div_div_self {N d : ℕ} (hd : 0 < d) (h : d * d ≤ N) : N / (N / d) = d := by
  have hle : d ≤ N / d := (Nat.le_div_iff_mul_le hd).mpr h
  have hq : 0 < N / d := hd.trans_le hle
  refine Nat.div_eq_of_lt_le ?_ ?_
  · exact Nat.mul_div_le N d
  · calc N < d * (N / d + 1) := Nat.lt_mul_div_succ N hd
      _ = d * (N / d) + d := Nat.mul_succ d _
      _ ≤ d * (N / d) + N / d := Nat.add_le_add_left hle _
      _ = (d + 1) * (N / d) := (Nat.succ_mul d _).symm

/-- The low half of a quotient of the largest word of two halves is not zero. -/
theorem quotient_low_ne_zero {b d : ℕ} (hb : 0 < b) (hd : 0 < d) (hlt : d < b * b) :
    (b * b - 1) / d % b ≠ 0 := by
  intro hzero
  obtain ⟨k, hk⟩ := Nat.dvd_of_mod_eq_zero hzero
  have hpos : 0 < (b * b - 1) / d := Nat.div_pos (by omega) hd
  have hkpos : 0 < k := by
    rcases Nat.eq_zero_or_pos k with rfl | hk'
    · omega
    · exact hk'
  have hle : d * (b * k) ≤ b * b - 1 := hk ▸ Nat.mul_div_le _ d
  have hnext : b * b - 1 < d * (b * k + 1) := hk ▸ Nat.lt_mul_div_succ _ hd
  -- d k is below b, so the quotient leaves more than b² - b, which is more than d.
  have hdk : d * k < b := by
    by_contra hge
    have : b * b ≤ d * k * b := Nat.mul_le_mul_right b (not_lt.mp hge)
    have : d * (b * k) = d * k * b := by ring
    have : 0 < b * b := Nat.mul_pos hb hb
    omega
  have hdb : d ≤ d * k := Nat.le_mul_of_pos_right d hkpos
  have hroom : (d * k + 1) * b ≤ b * b := Nat.mul_le_mul_right b hdk
  have : d * (b * k + 1) + b = (d * k + 1) * b + d := by ring
  omega

/-! ## The two readers of a target -/

/-- The difficulty of a target of at most eight bytes. -/
theorem target2diff_of_ofHex {s : String} {bs : List UInt8} (h : ofHex s.toList = some bs)
    (hne : bs ≠ []) (hle : bs.length ≤ 8) :
    target2diff s =
      .ok ((2 ^ 64 - 1) / ofLE (if bs.length = 4 then List.replicate 4 0 ++ bs else bs)) := by
  have hhex := isHex_of_ofHex h
  have hlen : s.length = 2 * bs.length := by
    rw [← String.length_toList]
    exact length_of_ofHex h
  have hpos : 0 < bs.length := List.length_pos_iff.mpr hne
  have hnonempty : s ≠ "" := by
    rintro rfl
    simp at hlen
    exact hne hlen
  have htarget : targetHex s 16 = .ok s := by
    simp only [targetHex, stripHexMark_of_isHex hhex, Except.bind_eq_ok, throwIf_eq_ok]
    refine ⟨(), ?_, rfl⟩
    rw [jsLength_of_isHex hhex]
    simp [hnonempty, hhex]
    omega
  have hread : ∀ {cs xs}, ofHex cs = some xs →
      hexNumber (String.ofList (reverseHex cs)) = ofLE xs := by
    intro cs xs hcs
    rw [hexNumber_of_ofHex (ofHex_reverseHex hcs), ofBE_eq, List.reverse_reverse]
  have hlen' : s.length % 2 = 0 := by omega
  simp only [target2diff, htarget, Except.bind_eq_ok, throwIf_eq_ok]
  refine ⟨s, rfl, (), by omega, ?_⟩
  split_ifs with h4 h4' h4'
  · have hzeros : ofHex "00000000".toList = some (List.replicate 4 0) := rfl
    rw [String.toList_append, hread (ofHex_append hzeros h)]
    rfl
  · omega
  · omega
  · rw [hread h]
    rfl

/-- The threshold of a target of at most eight bytes. -/
theorem parseTargetHex_of_ofHex {cs : List Char} {bs : List UInt8} (h : ofHex cs = some bs)
    (hle : bs.length ≤ 8) :
    parseTargetHex cs false = if ofLE bs = 0 then .error "Bad target hex"
      else .ok (if bs.length ≤ 4 then (2 ^ 64 - 1) / ((2 ^ 32 - 1) / ofLE bs) else ofLE bs) := by
  have hlen := length_of_ofHex h
  have hpad : ∀ w, bs.length ≤ w → parsePaddedLeHex cs w = .ok (ofLE bs) := by
    intro w hw
    have hzeros : 2 * w - cs.length = 2 * (w - bs.length) := by omega
    rw [parsePaddedLeHex, hzeros, ofHex_append h (ofHex_replicate_zero _)]
    simp [ofLE_append]
  have hshort : cs.length ≤ 8 ↔ bs.length ≤ 4 := by omega
  have hvalue : parsePaddedLeHex cs (if cs.length ≤ 8 then 4 else 8) = .ok (ofLE bs) := by
    apply hpad
    split_ifs with hs
    · omega
    · exact hle
  rw [parseTargetHex, if_neg (by simp; omega), hvalue]
  by_cases hzero : ofLE bs = 0
  · simp [hzero, throwIf, bind, Except.bind]
  · by_cases hs : bs.length ≤ 4
    · simp [hzero, throwIf, bind, Except.bind, hs, pure, Except.pure]
      omega
    · simp [hzero, throwIf, bind, Except.bind, hs, pure, Except.pure]
      omega

/-! ## Targets of difficulties -/

/-- The target of a difficulty below 2^64 shows all eight bytes of the quotient. -/
theorem diff2target_eq {d : ℕ} (hd : 0 < d) (hlt : d < 2 ^ 64) :
    diff2target d = String.ofList (toHex (leBytes 8 ((2 ^ 64 - 1) / d))) := by
  have hreverse : reverseHex (hexFixed 16 ((2 ^ 64 - 1) / d)) =
      toHex (leBytes 8 ((2 ^ 64 - 1) / d)) := by
    rw [show 16 = 2 * 8 from rfl, hexFixed_eq, reverseHex_toHex, beBytes, List.reverse_reverse]
  have hlow : ofLE (leBytes 4 ((2 ^ 64 - 1) / d)) ≠ 0 := by
    rw [ofLE_leBytes]
    exact @quotient_low_ne_zero (2 ^ 32) d (by decide) hd hlt
  have htake : (toHex (leBytes 8 ((2 ^ 64 - 1) / d))).take 8 =
      toHex (leBytes 4 ((2 ^ 64 - 1) / d)) := by
    rfl
  have hwide : (toHex (leBytes 8 ((2 ^ 64 - 1) / d))).take 8 ≠ List.replicate 8 '0' := by
    intro hzeros
    rw [htake] at hzeros
    have hbytes := ofHex_toHex (leBytes 4 ((2 ^ 64 - 1) / d))
    rw [hzeros] at hbytes
    exact hlow (by rw [← Option.some.inj hbytes]; rfl)
  rw [diff2target, if_neg hd.ne', hreverse]
  exact congrArg String.ofList (if_neg hwide)

/-- **Difficulties and thresholds.** The worker's threshold of a difficulty below 2^64 is the rounded
quotient, read from sixteen digits; the target of a larger difficulty is rejected; and the controller
shows the difficulty again below 2^32. -/
theorem diff2target_threshold {d : ℕ} (hd : 1 ≤ d) :
    (d < 2 ^ 64 → (diff2target d).length = 16 ∧
      parseTargetHex (diff2target d).toList false = .ok ((2 ^ 64 - 1) / d)) ∧
    (2 ^ 64 ≤ d → ∃ message, parseTargetHex (diff2target d).toList false = .error message) ∧
    (d < 2 ^ 32 → target2diff (diff2target d) = .ok d) := by
  have hbytes : d < 2 ^ 64 → ofHex (diff2target d).toList =
      some (leBytes 8 ((2 ^ 64 - 1) / d)) := by
    intro hlt
    rw [diff2target_eq hd hlt, String.toList_ofList, ofHex_toHex]
  have hvalue : ofLE (leBytes 8 ((2 ^ 64 - 1) / d)) = (2 ^ 64 - 1) / d := by
    rw [ofLE_leBytes]
    exact Nat.mod_eq_of_lt (lt_of_le_of_lt (Nat.div_le_self _ _) (by decide))
  refine ⟨fun hlt => ⟨?_, ?_⟩, fun hge => ?_, fun hlt => ?_⟩
  · rw [diff2target_eq hd hlt, String.length_ofList, length_toHex, length_leBytes]
  · have hpos : (2 ^ 64 - 1) / d ≠ 0 := (Nat.div_pos (by omega) hd).ne'
    rw [parseTargetHex_of_ofHex (hbytes hlt) (by simp), hvalue, if_neg hpos, if_neg (by simp)]
  · have hzero : (2 ^ 64 - 1) / d = 0 := Nat.div_eq_of_lt (by omega)
    have htext : diff2target d = "00000000" := by
      rw [diff2target, if_neg (by omega), hzero]
      rfl
    rw [htext]
    exact ⟨_, rfl⟩
  · have hlt' : d < 2 ^ 64 := by omega
    have hne : leBytes 8 ((2 ^ 64 - 1) / d) ≠ [] := List.ne_nil_of_length_pos (by simp)
    have hsquare : d * d ≤ 2 ^ 64 - 1 :=
      (Nat.mul_le_mul (Nat.le_sub_one_of_lt hlt) (Nat.le_sub_one_of_lt hlt)).trans (by decide)
    rw [target2diff_of_ofHex (hbytes hlt') hne (by simp), if_neg (by simp), hvalue,
      div_div_self hd hsquare]

theorem diff2target_threshold_5000 :
    (5000 < 2 ^ 64 → (diff2target 5000).length = 16 ∧
      parseTargetHex (diff2target 5000).toList false = .ok ((2 ^ 64 - 1) / 5000)) ∧
    (2 ^ 64 ≤ 5000 → ∃ message, parseTargetHex (diff2target 5000).toList false = .error message) ∧
    (5000 < 2 ^ 32 → target2diff (diff2target 5000) = .ok 5000) :=
  diff2target_threshold (by decide)

/-! ## The difficulty that a target shows -/

/-- **Compact targets.** The difficulty that the controller shows for a target is that of the worker's
threshold exactly when the target has at least eight digits. -/
theorem target2diff_iff {target : String} (hhex : isHex target = true)
    (heven : target.length % 2 = 0) (hmin : 2 ≤ target.length) (hmax : target.length ≤ 16)
    (hne : ∃ c ∈ target.toList, c ≠ '0') :
    ∃ threshold, parseTargetHex target.toList false = .ok threshold ∧
      (target2diff target = .ok ((2 ^ 64 - 1) / threshold) ↔ 8 ≤ target.length) := by
  have hlen' : target.toList.length = target.length := String.length_toList
  obtain ⟨bs, hbs⟩ := exists_ofHex (List.all_eq_true.mp hhex) (by rwa [hlen'])
  have hlen := length_of_ofHex hbs
  have hvalue : ofLE bs ≠ 0 := by
    obtain ⟨c, hc, hc'⟩ := hne
    exact fun hzero => hc' (eq_zero_of_ofLE hbs hzero c hc)
  have hle : bs.length ≤ 8 := by omega
  have hnil : bs ≠ [] := List.ne_nil_of_length_pos (by omega)
  refine ⟨_, by rw [parseTargetHex_of_ofHex hbs hle, if_neg hvalue], ?_⟩
  rw [target2diff_of_ofHex hbs hnil hle, Except.ok.injEq]
  by_cases hwide : 4 < bs.length
  · rw [if_neg (by omega : ¬bs.length = 4), if_neg (by omega : ¬bs.length ≤ 4)]
    exact iff_of_true rfl (by omega)
  -- Both quotients of a short target are those of 2^32 - 1.
  have hlt := ofLE_lt bs
  have hquotient : (2 ^ 64 - 1) / ((2 ^ 64 - 1) / ((2 ^ 32 - 1) / ofLE bs)) =
      (2 ^ 32 - 1) / ofLE bs := by
    have hle32 : (2 ^ 32 - 1) / ofLE bs ≤ 2 ^ 32 - 1 := Nat.div_le_self _ _
    have hpow : 256 ^ bs.length ≤ 256 ^ 4 := Nat.pow_le_pow_right (by decide) (by omega)
    refine div_div_self (Nat.div_pos (by omega) (Nat.pos_of_ne_zero hvalue)) ?_
    exact (Nat.mul_le_mul hle32 hle32).trans (by decide)
  rw [if_pos (not_lt.mp hwide), hquotient]
  by_cases hfour : bs.length = 4
  · have hscale : ofLE (List.replicate 4 0 ++ bs) = 2 ^ 32 * ofLE bs := by
      rw [ofLE_append, ofLE_replicate_zero, List.length_replicate, Nat.zero_add]
      norm_num
    rw [if_pos hfour, hscale, ← Nat.div_div_eq_div_mul]
    exact iff_of_true rfl (by omega)
  · -- With fewer bytes the target is below 2^24 and is not scaled.
    have hpow : 256 ^ bs.length ≤ 256 ^ 3 := Nat.pow_le_pow_right (by decide) (by omega)
    have hsmall : (2 ^ 32 - 1) / ofLE bs ≤ 2 ^ 32 - 1 := Nat.div_le_self _ _
    have hlarge : (2 ^ 64 - 1) / 256 ^ 3 ≤ (2 ^ 64 - 1) / ofLE bs :=
      Nat.div_le_div_left (by omega) (Nat.pos_of_ne_zero hvalue)
    have hgap : 2 ^ 32 - 1 < (2 ^ 64 - 1) / 256 ^ 3 := by decide
    rw [if_neg hfour]
    exact iff_of_false (by omega) (by omega)

theorem target2diff_iff_five : ∃ threshold,
    parseTargetHex "b88d0600".toList false = .ok threshold ∧
      (target2diff "b88d0600" = .ok ((2 ^ 64 - 1) / threshold) ↔ 8 ≤ "b88d0600".length) :=
  target2diff_iff (by decide) (by decide) (by decide) (by decide) ⟨'b', by simp, by decide⟩

/-- A target of two digits is the low byte of the controller's word, and the compact word of the
worker. -/
theorem target2diff_two_digits : ¬∀ target : String, isHex target = true →
    target.length % 2 = 0 → 2 ≤ target.length → target.length ≤ 16 →
    (∃ c ∈ target.toList, c ≠ '0') → ∃ threshold,
      parseTargetHex target.toList false = .ok threshold ∧
        target2diff target = .ok ((2 ^ 64 - 1) / threshold) := by
  intro h
  obtain ⟨threshold, hthreshold, hdiff⟩ :=
    h "01" (by decide) (by decide) (by decide) (by decide) ⟨'1', by simp, by decide⟩
  cases hthreshold
  exact absurd hdiff (by decide)

end MoMiner.Pool
