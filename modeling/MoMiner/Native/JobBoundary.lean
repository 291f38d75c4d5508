import MoMiner.Lib.Bytes

/-!
# The job boundary of the native core

The checked parsing, layout and nonce arithmetic of `native/job-boundary.h`. A `std::string` is a
list of characters, one for each byte. An unsigned integer type is its width in bits; values are
naturals and every operation that can leave the width is reduced or checked as in the source.

The specification lemmas `nonceWithOffset_eq_some` and `nextNonceBatch_spec` are what the rest of
the development uses.
-/

namespace MoMiner.Native

open MoMiner.Bytes

/-! ## Text -/

def digitOf (c : Char) : Option ℕ :=
  if '0' ≤ c ∧ c ≤ '9' then some (c.toNat - '0'.toNat)
  else if 'a' ≤ c ∧ c ≤ 'z' then some (c.toNat - 'a'.toNat + 10)
  else if 'A' ≤ c ∧ c ≤ 'Z' then some (c.toNat - 'A'.toNat + 10)
  else none

/-- The digit loop of `parse_unsigned`. -/
def parseDigits (maximum radix : ℕ) : ℕ → List Char → Option ℕ
  | value, [] => some value
  | value, c :: cs => do
    let digit ← digitOf c
    if radix ≤ digit then none
    else if (maximum - digit) / radix < value then none
    else parseDigits maximum radix (value * radix + digit) cs

def hasHexPrefix : List Char → Bool
  | '0' :: 'x' :: _ => true
  | '0' :: 'X' :: _ => true
  | _ => false

def parseUnsigned (maximum : ℕ) (text : List Char) (base : ℕ) (allowHexPrefix : Bool) :
    Option ℕ :=
  if base < 2 ∨ 36 < base then none
  else
    let digits := if allowHexPrefix && base == 16 && hasHexPrefix text then text.drop 2 else text
    if digits = [] then none else parseDigits maximum base 0 digits

def splitOnce (text : List Char) (delimiter : Char) : Option (List Char × List Char) :=
  let left := text.takeWhile (· != delimiter)
  match text.drop left.length with
  | [] => none
  | _ :: right =>
    if left = [] ∨ right = [] then none
    else if right.contains delimiter then none
    else some (left, right)

theorem parseDigits_le {maximum radix : ℕ} (hr : 0 < radix) (hm : radix ≤ maximum + 1) {value : ℕ}
    {text : List Char} {n : ℕ} (hv : value ≤ maximum)
    (h : parseDigits maximum radix value text = some n) : n ≤ maximum := by
  induction text generalizing value with
  | nil =>
    simp only [parseDigits, Option.some.injEq] at h
    omega
  | cons c cs ih =>
    simp only [parseDigits, Option.bind_eq_bind, Option.bind_eq_some_iff] at h
    obtain ⟨digit, -, h⟩ := h
    split_ifs at h with hd hov
    refine ih ?_ h
    have : value ≤ (maximum - digit) / radix := by omega
    have := (Nat.le_div_iff_mul_le hr).mp this
    omega

theorem parseUnsigned_le {maximum base n : ℕ} {text : List Char} {allow : Bool}
    (hm : 36 ≤ maximum) (h : parseUnsigned maximum text base allow = some n) : n ≤ maximum := by
  by_cases hb : base < 2 ∨ 36 < base
  · rw [parseUnsigned, if_pos hb] at h
    exact absurd h (by simp)
  rw [parseUnsigned, if_neg hb] at h
  extract_lets digits at h
  by_cases hd : digits = []
  · rw [if_pos hd] at h
    exact absurd h (by simp)
  rw [if_neg hd] at h
  exact parseDigits_le (by omega) (by omega) (Nat.zero_le _) h

/-! ## Layouts -/

def nonceBigEndian (algo : String) (blobSize : ℕ) : Bool :=
  (algo == "fishhash" && blobSize == 180) || algo == "xelishashv3" || algo == "nexapow" ||
    algo == "beamhash3"

def fishhashNonceOffset (blobSize : ℕ) : Option ℕ :=
  if blobSize = 40 then some 32 else if blobSize = 180 then some 172 else none

def validFishhashLayout (blobSize offset : ℕ) : Bool := fishhashNonceOffset blobSize == some offset

def validKarlsenhashv2Layout (blobSize offset : ℕ) : Bool := blobSize == 80 && offset == 72

def validNexapowLayout (blobSize offset : ℕ) : Bool :=
  (blobSize == 40 && offset == 32) || (blobSize == 44 && offset == 36) ||
    (blobSize == 48 && offset == 40)

def validCnGpuInput (size : ℕ) : Bool := decide (0 < size) && decide (size ≤ 135)

def validBeamhash3Input (size : ℕ) : Bool := size == 44

def validPearlhashShape (m n k rank : ℕ) : Bool :=
  let rankPowerOfTwo := rank != 0 && rank &&& (rank - 1) == 0
  let maxDimension := 2 ^ 24
  let maxK := 2 ^ 16
  if m < 128 ∨ maxDimension < m ∨ m % 32 ≠ 0 ∨ n < 128 ∨ maxDimension < n ∨ n % 32 ≠ 0 ∨
      k < 1024 ∨ maxK < k ∨ k % 64 ≠ 0 ∨ rank < 128 ∨ 1024 < rank ∨ rankPowerOfTwo = false ∨
      k < 16 * rank ∨ 4 * rank * rank < k then false
  else
    let tileRows := m / 16
    let tileColumns := n / 16
    let maximum := 2 ^ 64 - 1
    let signedMax := 2 ^ 31 - 1
    decide (m ≤ signedMax / rank ∧ n ≤ signedMax / rank ∧ m ≤ signedMax / k ∧
      tileRows ≤ signedMax / tileColumns ∧ n ≤ maximum / m ∧ m * n ≤ maximum / k)

/-! ## Nonce arithmetic -/

def nonceOverflowed (previous next protectedMask : ℕ) : Bool :=
  decide (next < previous) || previous &&& protectedMask != next &&& protectedMask

/-- `nonce_with_offset` at a width of `bits`; `none` leaves the out parameter unchanged. -/
def nonceWithOffset (bits base index stride protectedMask : ℕ) : Option ℕ :=
  if index ≠ 0 ∧ (2 ^ 64 - 1) / index < stride then none
  else
    let offset := index * stride
    let maximum := 2 ^ bits - 1
    if maximum - base < offset then none
    else
      let candidate := base + offset
      if protectedMask ≠ 0 ∧ base &&& protectedMask ≠ candidate &&& protectedMask then none
      else some candidate

def pearlSeedStart (slot threadId threadNum stride : ℕ) : Option ℕ :=
  if threadNum = 0 ∨ threadNum ≤ threadId ∨ stride = 0 then none
  else nonceWithOffset 32 slot threadId stride 0

def pearlSeedNext (current step : ℕ) : Option ℕ :=
  let maximum := 2 ^ 32 - 1
  if step = 0 ∨ maximum < step ∨ maximum - step < current then none else some (current + step)

/-- What `next_nonce_batch` reports: a next batch, or the last nonce of the current one. The
argument `last` is the initial value of the out parameter. -/
inductive NextBatch
  | next (nonce : ℕ)
  | exhausted (last : ℕ)
  deriving DecidableEq, Repr

def nextNonceBatch (bits first count laneStride batchStride protectedMask last : ℕ) :
    NextBatch :=
  if count = 0 then .exhausted last
  else
    match nonceWithOffset bits first (count - 1) laneStride protectedMask with
    | none => .exhausted last
    | some last =>
      match nonceWithOffset bits first 1 batchStride protectedMask with
      | none => .exhausted last
      | some next =>
        match nonceWithOffset bits next (count - 1) laneStride protectedMask with
        | none => .exhausted last
        | some _ => .next next

/-- `load_nonce` of `width` bytes at the start of `data`. -/
def loadNonce (width : ℕ) (data : List UInt8) (bigEndian : Bool) : ℕ :=
  if bigEndian then ofBE (data.take width) else ofLE (data.take width)

/-- The bytes that `store_nonce` writes. -/
def nonceBytes (width value : ℕ) (bigEndian : Bool) : List UInt8 :=
  if bigEndian then beBytes width value else leBytes width value

/-- `store_nonce` of `width` bytes at `offset` of `data`. -/
def storeNonce (width : ℕ) (data : List UInt8) (offset value : ℕ) (bigEndian : Bool) :
    List UInt8 :=
  patch data offset (nonceBytes width value bigEndian)

@[simp] theorem length_nonceBytes (width value : ℕ) (be : Bool) :
    (nonceBytes width value be).length = width := by
  cases be <;> simp [nonceBytes]

theorem nonceWithOffset_eq_some {bits base index stride mask r : ℕ} (hbits : bits ≤ 64)
    (hb : base < 2 ^ bits) :
    nonceWithOffset bits base index stride mask = some r ↔
      r = base + index * stride ∧ base + index * stride < 2 ^ bits ∧
        base &&& mask = (base + index * stride) &&& mask := by
  have hpow : 2 ^ bits ≤ 2 ^ 64 := Nat.pow_le_pow_right (by decide) hbits
  have agree : (mask ≠ 0 ∧ base &&& mask ≠ (base + index * stride) &&& mask) ↔
      ¬ base &&& mask = (base + index * stride) &&& mask := by
    rcases eq_or_ne mask 0 with rfl | hm
    · simp
    · simp [hm]
  have wide : index ≠ 0 ∧ (2 ^ 64 - 1) / index < stride ↔ 2 ^ 64 ≤ index * stride := by
    rcases Nat.eq_zero_or_pos index with rfl | hi
    · simp
    · rw [Nat.div_lt_iff_lt_mul hi, Nat.mul_comm stride]
      omega
  unfold nonceWithOffset
  simp only [wide, agree]
  split_ifs with h1 h2 h3
  · simp only [false_iff, not_and]
    omega
  · simp only [false_iff, not_and]
    omega
  · simp only [Option.some.injEq]
    refine ⟨fun hr => ⟨hr.symm, by omega, h3⟩, fun hr => hr.1.symm⟩
  · simp only [false_iff, not_and]
    exact fun _ _ => h3

/-- The next batch is `first + batchStride`, and both it and its last lane fit; otherwise the
reported last nonce is that of the current batch. -/
theorem nextNonceBatch_spec {bits first count lane stride mask last : ℕ} (hbits : bits ≤ 64)
    (hf : first < 2 ^ bits) (hc : 0 < count)
    (hlast : first + (count - 1) * lane < 2 ^ bits)
    (hmask : first &&& mask = (first + (count - 1) * lane) &&& mask) :
    nextNonceBatch bits first count lane stride mask last =
      if first + stride + (count - 1) * lane < 2 ^ bits ∧
          first &&& mask = (first + stride) &&& mask ∧
          first &&& mask = (first + stride + (count - 1) * lane) &&& mask then
        .next (first + stride)
      else .exhausted (first + (count - 1) * lane) := by
  have cur : nonceWithOffset bits first (count - 1) lane mask = some (first + (count - 1) * lane) :=
    (nonceWithOffset_eq_some hbits hf).mpr ⟨rfl, hlast, hmask⟩
  simp only [nextNonceBatch, if_neg (Nat.pos_iff_ne_zero.mp hc), cur]
  cases hn : nonceWithOffset bits first 1 stride mask with
  | none =>
    rw [if_neg]
    rintro ⟨hfit, hag, -⟩
    have : nonceWithOffset bits first 1 stride mask = some (first + 1 * stride) :=
      (nonceWithOffset_eq_some hbits hf).mpr ⟨rfl, by omega, by simpa using hag⟩
    rw [hn] at this
    exact absurd this (by simp)
  | some next =>
    obtain ⟨rfl, hlt, hag⟩ := (nonceWithOffset_eq_some hbits hf).mp hn
    simp only [one_mul] at hlt hag ⊢
    cases hl : nonceWithOffset bits (first + stride) (count - 1) lane mask with
    | none =>
      rw [if_neg]
      rintro ⟨hfit, -, hag'⟩
      have : nonceWithOffset bits (first + stride) (count - 1) lane mask =
          some (first + stride + (count - 1) * lane) :=
        (nonceWithOffset_eq_some hbits hlt).mpr ⟨rfl, hfit, hag.symm.trans hag'⟩
      rw [hl] at this
      exact absurd this (by simp)
    | some nl =>
      obtain ⟨-, hfit, hag'⟩ := (nonceWithOffset_eq_some hbits hlt).mp hl
      rw [if_pos ⟨hfit, hag, hag.trans hag'⟩]

theorem pearlSeedNext_eq_some {current step r : ℕ} :
    pearlSeedNext current step = some r ↔
      0 < step ∧ r = current + step ∧ current + step < 2 ^ 32 := by
  simp only [pearlSeedNext]
  split_ifs with h
  · simp only [false_iff, not_and]
    omega
  · simp only [Option.some.injEq]
    omega

theorem loadNonce_field {buf : List UInt8} {off width value : ℕ} {be : Bool}
    (h : off + width ≤ buf.length) :
    loadNonce width ((storeNonce width buf off value be).drop off) be = value % 256 ^ width := by
  have hfield : field (patch buf off (nonceBytes width value be)) off
      (nonceBytes width value be).length = nonceBytes width value be :=
    field_patch (by simpa using h)
  rw [length_nonceBytes, field] at hfield
  rw [loadNonce, storeNonce, hfield]
  cases be
  · exact ofLE_leBytes width value
  · exact ofBE_beBytes width value

end MoMiner.Native
