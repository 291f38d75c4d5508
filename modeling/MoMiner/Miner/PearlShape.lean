import MoMiner.Native.JobBoundary
import MoMiner.Pool.Settings
import MoMiner.Pool.Targets

/-!
# The matrix shape of PearlHash

The controller validates a shape with products (`validatePearlHashShape` of `gpu-tuning.js`), the
native core with divisions (`validPearlhashShape`), and each has its own formula for the work
factor of the shape. `pearlhash_shape_agrees` says that the two validators accept the same shapes,
that the native products stay in range and that a scaled target is the base target times the
native factor.
-/

namespace MoMiner.Miner

open MoMiner.Bytes MoMiner.Js MoMiner.Native MoMiner.Pool

/-! ## The validator of the controller -/

def int32Max : ℕ := 0x7fffffff

/-- A value that is a number, or a string of decimal digits. -/
def decimalNumber? : Json → Option Number
  | .num n => some n
  | .str s => if isDigits s then some (.finite (decimalValue s)) else none
  | _ => none

def normalizeDimension (context field : String) (value : Json) : Except String ℕ :=
  match decimalNumber? value with
  | none => .error (context ++ "." ++ field ++ " must be a decimal integer")
  | some n =>
    match n.safeNat?.filter (fun v => 1 ≤ v ∧ v ≤ int32Max) with
    | none => .error (context ++ "." ++ field ++ " must be a positive integer at most 2147483647")
    | some v => .ok v

def checkMatrixField (context field : String) (value : ℕ) : Except String Unit :=
  throwIf (value < 128 ∨ 2 ^ 24 < value ∨ value % 32 ≠ 0)
    (context ++ "." ++ field ++ " must be a multiple of 32 between 128 and 16777216")

def validatePearlHashShape (m n k rank : Json) (context : String) : Except String PearlShape := do
  let m ← normalizeDimension context "m" m
  let n ← normalizeDimension context "n" n
  let k ← normalizeDimension context "k" k
  let rank ← normalizeDimension context "rank" rank
  checkMatrixField context "m" m
  checkMatrixField context "n" n
  throwIf (k < 1024 ∨ 2 ^ 16 < k ∨ k % 64 ≠ 0)
    (context ++ ".k must be a multiple of 64 between 1024 and 65536")
  throwIf (rank < 128 ∨ 1024 < rank ∨ rank &&& (rank - 1) ≠ 0)
    (context ++ ".rank must be a power of two between 128 and 1024")
  throwIf (k < 16 * rank ∨ 4 * rank * rank < k) (context ++ ".k must be between 16*rank and 4*rank^2")
  throwIf (int32Max < m * rank ∨ int32Max < n * rank ∨ int32Max < m * k)
    (context ++ " exceeds the supported signed-index range")
  throwIf (int32Max < (m / 16) * (n / 16)) (context ++ " exceeds the supported tile range")
  throwIf (2 ^ 64 - 1 < m * n * k) (context ++ " exceeds the supported matrix-product range")
  return ⟨m, n, k, rank⟩

/-! ## The work factor of the native core -/

/-- `pearlhash_adjustment_factor` of `sycl/pearlhash/claim.h`. -/
def pearlhashAdjustmentFactor (selectedRows selectedColumns k rank : ℕ) : Option ℕ :=
  if selectedRows = 0 ∨ selectedColumns = 0 ∨ rank = 0 then none
  else
    let dot := k - k % rank
    let steps := dot / rank
    let limit := 2 ^ 32 - 1
    [selectedColumns, steps, 128].foldlM (fun factor value =>
      if value = 0 ∨ limit / value < factor then none else some (factor * value)) selectedRows

/-! ## Agreement -/

variable {m n k rank : ℕ}

/-- The bounds that both validators place on a shape. -/
structure ValidShape (m n k rank : ℕ) : Prop where
  rows : ¬(m < 128 ∨ 2 ^ 24 < m ∨ m % 32 ≠ 0)
  columns : ¬(n < 128 ∨ 2 ^ 24 < n ∨ n % 32 ≠ 0)
  depth : ¬(k < 1024 ∨ 2 ^ 16 < k ∨ k % 64 ≠ 0)
  power : ¬(rank < 128 ∨ 1024 < rank ∨ rank &&& (rank - 1) ≠ 0)
  ratio : ¬(k < 16 * rank ∨ 4 * rank * rank < k)
  index : m * rank ≤ int32Max ∧ n * rank ≤ int32Max ∧ m * k ≤ int32Max
  tiles : (m / 16) * (n / 16) ≤ int32Max
  product : m * n * k ≤ 2 ^ 64 - 1

/-- The products of the controller are the divisions of the native core. -/
theorem products_iff_divisions (hm : 16 ≤ m) (hn : 16 ≤ n) (hk : 0 < k) (hr : 0 < rank) :
    ((m * rank ≤ int32Max ∧ n * rank ≤ int32Max ∧ m * k ≤ int32Max) ∧
      (m / 16) * (n / 16) ≤ int32Max ∧ m * n * k ≤ 2 ^ 64 - 1) ↔
    (m ≤ (2 ^ 31 - 1) / rank ∧ n ≤ (2 ^ 31 - 1) / rank ∧ m ≤ (2 ^ 31 - 1) / k ∧
      m / 16 ≤ (2 ^ 31 - 1) / (n / 16) ∧ n ≤ (2 ^ 64 - 1) / m ∧ m * n ≤ (2 ^ 64 - 1) / k) := by
  have hint : int32Max = 2 ^ 31 - 1 := by decide
  have htile : 0 < n / 16 := by omega
  simp only [Nat.le_div_iff_mul_le hr, Nat.le_div_iff_mul_le hk, Nat.le_div_iff_mul_le htile,
    Nat.le_div_iff_mul_le (show 0 < m by omega), hint]
  -- The bound on `n * m` follows from the one on the whole product.
  have hwide : m * n * k ≤ 2 ^ 64 - 1 → n * m ≤ 2 ^ 64 - 1 := by
    intro h
    rw [Nat.mul_comm n m]
    exact (Nat.le_mul_of_pos_right _ hk).trans h
  tauto

theorem validPearlhashShape_iff :
    validPearlhashShape m n k rank = true ↔ ValidShape m n k rank := by
  constructor
  · intro h
    unfold validPearlhashShape at h
    extract_lets rankPowerOfTwo maxDimension maxK tileRows tileColumns maximum signedMax at h
    split_ifs at h with hbad
    simp only [not_or, rankPowerOfTwo, Bool.and_eq_false_iff, maxDimension, maxK] at hbad
    obtain ⟨hm1, hm2, hm3, hn1, hn2, hn3, hk1, hk2, hk3, hr1, hr2, hr3, hq1, hq2⟩ := hbad
    have hpow : rank &&& (rank - 1) = 0 := by simpa using hr3.2
    obtain ⟨hindex, htiles, hproduct⟩ := (products_iff_divisions (by omega) (by omega) (by omega)
      (by omega)).mpr (of_decide_eq_true h)
    exact {
      rows := by omega
      columns := by omega
      depth := by omega
      power := by simp only [hpow]; omega
      ratio := by omega
      index := hindex
      tiles := htiles
      product := hproduct }
  · intro h
    obtain ⟨hrows, hcolumns, hdepth, hpower, hratio, hindex, htiles, hproduct⟩ := h
    have hdiv := (products_iff_divisions (by omega) (by omega) (by omega) (by omega)).mp
      ⟨hindex, htiles, hproduct⟩
    have hpow : (rank != 0 && rank &&& (rank - 1) == 0) = true := by
      simp only [bne_iff_ne, Bool.and_eq_true, beq_iff_eq]
      omega
    unfold validPearlhashShape
    extract_lets rankPowerOfTwo maxDimension maxK tileRows tileColumns maximum signedMax
    rw [if_neg]
    · exact decide_eq_true hdiv
    · simp only [rankPowerOfTwo, hpow, maxDimension, maxK, Bool.true_eq_false, false_or]
      omega

/-- A value that denotes a natural: a number, or its decimal digits. -/
def Denotes (value : Json) (n : ℕ) : Prop := decimalNumber? value = some (.finite n)

instance (value : Json) (n : ℕ) : Decidable (Denotes value n) :=
  inferInstanceAs (Decidable (_ = _))

theorem normalizeDimension_ok {context field : String} {value : Json} {v : ℕ}
    (h : Denotes value n) :
    normalizeDimension context field value = .ok v ↔ v = n ∧ 1 ≤ n ∧ n ≤ int32Max := by
  unfold normalizeDimension
  rw [h]
  by_cases hn : 1 ≤ n ∧ n ≤ int32Max
  · have hsafe : (Number.finite n).safeNat? = some n :=
      Number.safeNat?_eq_some.mpr ⟨rfl, hn.2.trans (by decide)⟩
    simp only [hsafe, Option.filter_some, hn, and_self, decide_true, if_true, Except.ok.injEq,
      and_true]
    exact eq_comm
  · have hnone : (Number.finite n).safeNat?.filter (fun v => 1 ≤ v ∧ v ≤ int32Max) = none := by
      rw [Option.filter_eq_none_iff]
      intro v hv
      obtain ⟨heq, -⟩ := Number.safeNat?_eq_some.mp hv
      have : n = v := by exact_mod_cast Number.finite.inj heq
      subst this
      simpa using hn
    simp only [hnone, reduceCtorEq, hn, and_false]

/-- The controller accepts exactly the valid shapes. -/
theorem validatePearlHashShape_ok {context : String} {shape : PearlShape} {vm vn vk vr : Json}
    (hm : Denotes vm m) (hn : Denotes vn n) (hk : Denotes vk k) (hr : Denotes vr rank) :
    validatePearlHashShape vm vn vk vr context = .ok shape ↔
      shape = ⟨m, n, k, rank⟩ ∧ ValidShape m n k rank := by
  simp only [validatePearlHashShape, checkMatrixField, Except.bind_eq_ok, throwIf_eq_ok,
    normalizeDimension_ok hm, normalizeDimension_ok hn, normalizeDimension_ok hk,
    normalizeDimension_ok hr]
  constructor
  · rintro ⟨_, ⟨rfl, -⟩, _, ⟨rfl, -⟩, _, ⟨rfl, -⟩, _, ⟨rfl, -⟩, -, hrows, -, hcolumns, -, hdepth, -,
      hpower, -, hratio, -, hindex, -, htiles, -, hproduct, h⟩
    cases h
    exact ⟨rfl, hrows, hcolumns, hdepth, hpower, hratio, by omega, by omega, by omega⟩
  · rintro ⟨rfl, hrows, hcolumns, hdepth, hpower, hratio, hindex, htiles, hproduct⟩
    have hint : int32Max = 0x7fffffff := rfl
    exact ⟨m, by omega, n, by omega, k, by omega, rank, by omega, (), hrows, (), hcolumns, (),
      hdepth, (), hpower, (), hratio, (), by omega, (), by omega, (), by omega, rfl⟩

/-! ## The scale -/

theorem ValidShape.steps (h : ValidShape m n k rank) :
    16 ≤ (k - k % rank) / rank ∧ (k - k % rank) / rank ≤ 512 := by
  obtain ⟨-, -, hdepth, hpower, hratio, -, -, -⟩ := h
  have hpos : 0 < rank := by omega
  have hdot : (k - k % rank) / rank = k / rank := by
    rw [← Nat.div_mul_self_eq_mod_sub_self, Nat.mul_div_cancel _ hpos]
  rw [hdot]
  constructor
  · rw [Nat.le_div_iff_mul_le hpos]
    omega
  · calc k / rank ≤ 2 ^ 16 / 128 := Nat.div_le_div (by omega) (by omega) (by decide)
      _ = 512 := by decide

/-- The native factor of a valid shape. -/
theorem pearlhashAdjustmentFactor_eq (h : ValidShape m n k rank) :
    pearlhashAdjustmentFactor 16 16 k rank = some (256 * ((k - k % rank) / rank * 128)) := by
  obtain ⟨hlo, hhi⟩ := h.steps
  have hrank : rank ≠ 0 := by have := h.power; omega
  have step : ∀ {factor value : ℕ}, 0 < value → factor * value ≤ 2 ^ 32 - 1 →
      (if value = 0 ∨ (2 ^ 32 - 1) / value < factor then none else some (factor * value)) =
        some (factor * value) := by
    intro factor value hv hle
    have := (Nat.le_div_iff_mul_le hv).mpr hle
    rw [if_neg (by omega)]
  unfold pearlhashAdjustmentFactor
  extract_lets dot steps limit
  have hsteps : 16 ≤ steps ∧ steps ≤ 512 := ⟨hlo, hhi⟩
  rw [if_neg (by omega)]
  simp only [List.foldlM_cons, List.foldlM_nil, limit]
  simp only [Option.bind_eq_bind]
  rw [step (by decide) (by decide), Option.bind_some, step (by omega) (by omega), Option.bind_some,
    step (by decide) (by omega)]
  show some (16 * 16 * steps * 128) = some (256 * (steps * 128))
  rw [Nat.mul_assoc (16 * 16)]

theorem hexNumber_hexFixed (w v : ℕ) : hexNumber (String.ofList (hexFixed w v)) = v % 16 ^ w := by
  unfold hexNumber
  rw [String.toList_ofList]
  induction w generalizing v with
  | zero => simp [hexFixed, Nat.mod_one]
  | succ w ih =>
    rw [hexFixed, List.foldl_append, ih, List.foldl_cons, List.foldl_nil,
      hexValue_hexDigit (Nat.mod_lt _ (by decide)), Option.getD_some, Nat.pow_succ', Nat.mod_mul,
      Nat.add_comm]

theorem isHex_hexFixed (w v : ℕ) : isHex (String.ofList (hexFixed w v)) = true := by
  unfold isHex
  rw [String.toList_ofList]
  induction w generalizing v with
  | zero => rfl
  | succ w ih =>
    rw [hexFixed, List.all_append, ih, List.all_cons, hexValue_hexDigit (Nat.mod_lt _ (by decide))]
    rfl

theorem jsLength_hexFixed (w v : ℕ) : jsLength (String.ofList (hexFixed w v)) = w := by
  have narrow : ∀ d < 16, (hexDigit d).toNat < 0x10000 := by decide
  unfold jsLength
  rw [String.toList_ofList]
  induction w generalizing v with
  | zero => rfl
  | succ w ih =>
    rw [hexFixed, List.map_append, List.sum_append, ih, List.map_singleton, List.sum_singleton,
      if_pos (narrow _ (Nat.mod_lt _ (by decide)))]

theorem parseTarget256_hexFixed {v : ℕ} (hv : v < 16 ^ 64) :
    parseTarget256 (String.ofList (hexFixed 64 v)) = .ok v := by
  have hhex := isHex_hexFixed 64 v
  have hlength := jsLength_hexFixed 64 v
  have hnumber := hexNumber_hexFixed 64 v
  rw [Nat.mod_eq_of_lt hv] at hnumber
  generalize String.ofList (hexFixed 64 v) = text at hhex hlength hnumber
  have hne : text ≠ "" := by
    rintro rfl
    exact absurd hlength (by decide)
  simp only [parseTarget256, targetHex, stripHexMark_of_isHex hhex, Except.bind_eq_ok,
    throwIf_eq_ok]
  refine ⟨text, ⟨(), ?_, rfl⟩, congrArg Except.ok hnumber⟩
  simp [hne, hlength, hhex]

/-- A rendered target is read back, clamped to 256 bits. -/
theorem parseTarget256_target256ToHex (target : ℕ) :
    parseTarget256 (target256ToHex target) = .ok (min target uint256Max) := by
  have hlt : uint256Max < 16 ^ 64 := by decide
  exact parseTarget256_hexFixed (lt_of_le_of_lt (Nat.min_le_right _ _) hlt)

/-- The controller scales a base target by the native factor. -/
theorem pearlhashTarget_eq (h : ValidShape m n k rank) {text : String} {base : ℕ}
    (hbase : parseTarget256 text = .ok base) :
    pearlhashTarget text k rank =
      .ok (target256ToHex (base * (256 * ((k - k % rank) / rank * 128)))) := by
  have hrank : ¬rank < 128 := fun hr => h.power (.inl hr)
  simp only [pearlhashTarget, pearlhashEffectiveK, Except.bind_eq_ok, throwIf_eq_ok]
  exact ⟨(), hrank, base, hbase, _, ⟨(), h.depth, (), h.power, (), h.ratio, rfl⟩, rfl⟩

/-- **PearlHash shapes and scales agree.** Controller and native core accept the same shapes; on
an accepted shape the native products stay in range, the work factor fits 32 bits, and a scaled
target is the base target times that factor, clamped to 256 bits. -/
theorem pearlhash_shape_agrees (m n k rank : ℕ) (context : String) (vm vn vk vr : Json)
    (hm : Denotes vm m) (hn : Denotes vn n) (hk : Denotes vk k) (hr : Denotes vr rank) :
    (validatePearlHashShape vm vn vk vr context = .ok ⟨m, n, k, rank⟩ ↔
      validPearlhashShape m n k rank = true) ∧
    ((∃ shape, validatePearlHashShape vm vn vk vr context = .ok shape) ↔
      validPearlhashShape m n k rank = true) ∧
    (validPearlhashShape m n k rank = true →
      (16 * rank < 2 ^ 64 ∧ 4 * rank * rank < 2 ^ 64 ∧ m * n < 2 ^ 64 ∧ m * n * k < 2 ^ 64 ∧
        m * rank < 2 ^ 31 ∧ n * rank < 2 ^ 31 ∧ m * k < 2 ^ 31 ∧ (m / 16) * (n / 16) < 2 ^ 31) ∧
      ∃ factor, pearlhashAdjustmentFactor 16 16 k rank = some factor ∧ factor < 2 ^ 32 ∧
        ∀ base < 2 ^ 256, ∀ text, parseTarget256 text = .ok base →
          ∃ scaled, pearlhashTarget text k rank = .ok scaled ∧
            parseTarget256 scaled = .ok (min (2 ^ 256 - 1) (base * factor))) := by
  have hshape : ∀ shape, validatePearlHashShape vm vn vk vr context = .ok shape ↔
      shape = ⟨m, n, k, rank⟩ ∧ ValidShape m n k rank :=
    fun shape => validatePearlHashShape_ok hm hn hk hr
  rw [validPearlhashShape_iff]
  refine ⟨by simp [hshape], ?_, fun hvalid => ⟨?_, ?_⟩⟩
  · constructor
    · rintro ⟨shape, h⟩
      exact ((hshape shape).mp h).2
    · intro h
      exact ⟨_, (hshape _).mpr ⟨rfl, h⟩⟩
  · obtain ⟨hrows, hcolumns, hdepth, hpower, hratio, hindex, htiles, hproduct⟩ := hvalid
    have hint : int32Max = 2 ^ 31 - 1 := by decide
    have hsquare : 4 * rank * rank ≤ 4 * 1024 * 1024 :=
      Nat.mul_le_mul (by omega) (by omega)
    have harea : m * n ≤ 2 ^ 24 * 2 ^ 24 := Nat.mul_le_mul (by omega) (by omega)
    refine ⟨by omega, by omega, by omega, by omega, by omega, by omega, by omega, by omega⟩
  · obtain ⟨hlo, hhi⟩ := hvalid.steps
    refine ⟨_, pearlhashAdjustmentFactor_eq hvalid, by omega, fun base _ text hbase => ?_⟩
    refine ⟨_, pearlhashTarget_eq hvalid hbase, ?_⟩
    rw [parseTarget256_target256ToHex, min_comm]
    rfl

/-- The default shape of a job, and a target scaled by it. -/
theorem pearlhash_shape_agrees_default :
    validPearlhashShape 131072 131072 4096 256 = true ∧
      pearlhashAdjustmentFactor 16 16 4096 256 = some 524288 ∧
      validatePearlHashShape (.num 131072) (.num 131072) (.str "4096") (.str "256") "tuning" =
        .ok ⟨131072, 131072, 4096, 256⟩ := by
  have hvalid : validPearlhashShape 131072 131072 4096 256 = true := by decide
  have hagree := pearlhash_shape_agrees 131072 131072 4096 256 "tuning" (.num 131072) (.num 131072)
    (.str "4096") (.str "256") rfl rfl (by decide +kernel) (by decide +kernel)
  exact ⟨hvalid, by decide, hagree.1.mpr hvalid⟩

end MoMiner.Miner
