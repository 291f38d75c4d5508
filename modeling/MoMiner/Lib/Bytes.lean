import Mathlib.Tactic

/-!
# Words as bytes and as hexadecimal text

A word of `w` bytes is stored little-endian (`leBytes`) or big-endian (`beBytes`) and read back
by `ofLE` and `ofBE`. A field of a buffer is overwritten by `patch` and read by `field`. Fixed
width hexadecimal text of a word (`hexFixed`) is the text of its big-endian bytes (`toHex`).
-/

namespace MoMiner.Bytes

/-! ## Byte order -/

/-- The `w` low bytes of `v`, least significant first. -/
def leBytes : ℕ → ℕ → List UInt8
  | 0, _ => []
  | w + 1, v => UInt8.ofNat v :: leBytes w (v / 256)

/-- The `w` low bytes of `v`, most significant first. -/
def beBytes (w v : ℕ) : List UInt8 := (leBytes w v).reverse

/-- The number whose bytes are `bs`, least significant first. -/
def ofLE : List UInt8 → ℕ
  | [] => 0
  | b :: bs => b.toNat + 256 * ofLE bs

/-- The number whose bytes are `bs`, most significant first. -/
def ofBE (bs : List UInt8) : ℕ := bs.foldl (fun v b => v * 256 + b.toNat) 0

@[simp] theorem length_leBytes (w v : ℕ) : (leBytes w v).length = w := by
  induction w generalizing v with
  | zero => rfl
  | succ w ih => simp [leBytes, ih]

@[simp] theorem length_beBytes (w v : ℕ) : (beBytes w v).length = w := by
  simp [beBytes]

theorem ofBE_eq (bs : List UInt8) : ofBE bs = ofLE bs.reverse := by
  induction bs using List.reverseRecOn with
  | nil => rfl
  | append_singleton bs b ih =>
    have step : ofBE (bs ++ [b]) = ofBE bs * 256 + b.toNat := by simp [ofBE]
    rw [step, ih, List.reverse_append]
    simp only [List.reverse_singleton, List.singleton_append, ofLE]
    omega

theorem ofLE_lt (bs : List UInt8) : ofLE bs < 256 ^ bs.length := by
  induction bs with
  | nil => simp [ofLE]
  | cons b bs ih =>
    have hb : b.toNat < 256 := b.toNat_lt
    rw [ofLE, List.length_cons, pow_succ]
    omega

theorem ofBE_lt (bs : List UInt8) : ofBE bs < 256 ^ bs.length := by
  simpa [ofBE_eq] using ofLE_lt bs.reverse

theorem ofLE_leBytes (w v : ℕ) : ofLE (leBytes w v) = v % 256 ^ w := by
  induction w generalizing v with
  | zero => simp [leBytes, ofLE, Nat.mod_one]
  | succ w ih =>
    have head : (UInt8.ofNat v).toNat = v % 256 := by simp
    rw [leBytes, ofLE, ih, head, pow_succ', Nat.mod_mul]

theorem ofBE_beBytes (w v : ℕ) : ofBE (beBytes w v) = v % 256 ^ w := by
  rw [ofBE_eq, beBytes, List.reverse_reverse, ofLE_leBytes]

theorem leBytes_ofLE (bs : List UInt8) : leBytes bs.length (ofLE bs) = bs := by
  induction bs with
  | nil => rfl
  | cons b bs ih =>
    have hb : b.toNat < 256 := b.toNat_lt
    have head : UInt8.ofNat (b.toNat + 256 * ofLE bs) = b := by
      apply UInt8.toNat_inj.mp
      rw [UInt8.toNat_ofNat']
      omega
    have tail : (b.toNat + 256 * ofLE bs) / 256 = ofLE bs := by omega
    rw [List.length_cons, leBytes, ofLE, head, tail, ih]

theorem beBytes_ofBE (bs : List UInt8) : beBytes bs.length (ofBE bs) = bs := by
  have := leBytes_ofLE bs.reverse
  rw [List.length_reverse, ← ofBE_eq] at this
  rw [beBytes, this, List.reverse_reverse]

/-- Compare at some places, in their order: the first place where the two differ decides. -/
def leAt {n : ℕ} (a b : Vector UInt8 n) : List (Fin n) → Bool
  | [] => true
  | i :: places => if a[i] = b[i] then leAt a b places else a[i] < b[i]

/-! ## Fields of a buffer -/

/-- The `w` bytes of `buf` at `off`. -/
def field (buf : List UInt8) (off w : ℕ) : List UInt8 := (buf.drop off).take w

/-- `buf` with the bytes at `off` replaced by `bs`. -/
def patch (buf : List UInt8) (off : ℕ) (bs : List UInt8) : List UInt8 :=
  buf.take off ++ bs ++ buf.drop (off + bs.length)

theorem length_patch {buf bs : List UInt8} {off : ℕ} (h : off + bs.length ≤ buf.length) :
    (patch buf off bs).length = buf.length := by
  simp only [patch, List.length_append, List.length_take, List.length_drop]
  omega

theorem length_field {buf : List UInt8} {off w : ℕ} (h : off + w ≤ buf.length) :
    (field buf off w).length = w := by
  simp only [field, List.length_take, List.length_drop]
  omega

theorem field_patch {buf bs : List UInt8} {off : ℕ} (h : off + bs.length ≤ buf.length) :
    field (patch buf off bs) off bs.length = bs := by
  have hoff : (buf.take off).length = off := by
    rw [List.length_take]
    omega
  rw [field, patch, List.append_assoc, List.drop_append_of_le_length (by omega),
    List.drop_of_length_le (by omega), List.nil_append, List.take_left]

theorem patch_patch {buf bs cs : List UInt8} {off : ℕ} (h : off + bs.length ≤ buf.length)
    (hl : bs.length = cs.length) : patch (patch buf off bs) off cs = patch buf off cs := by
  have hoff : (buf.take off).length = off := by
    rw [List.length_take]
    omega
  have htake : (patch buf off bs).take off = buf.take off := by
    rw [patch, List.append_assoc, List.take_left' hoff]
  have hdrop : (patch buf off bs).drop (off + cs.length) = buf.drop (off + cs.length) := by
    rw [patch, ← hl, List.drop_left']
    rw [List.length_append, hoff]
  rw [patch, htake, hdrop, patch]

/-! ## Hexadecimal text -/

/-- The lower case digit of a value below 16. -/
def hexDigit (n : ℕ) : Char := Char.ofNat (if n < 10 then 48 + n else 87 + n)

/-- The value of a hexadecimal digit in either case. -/
def hexValue (c : Char) : Option ℕ :=
  if '0' ≤ c ∧ c ≤ '9' then some (c.toNat - 48)
  else if 'a' ≤ c ∧ c ≤ 'f' then some (c.toNat - 87)
  else if 'A' ≤ c ∧ c ≤ 'F' then some (c.toNat - 55)
  else none

def byteHex (b : UInt8) : List Char := [hexDigit (b.toNat / 16), hexDigit (b.toNat % 16)]

/-- The lower case hexadecimal text of a byte string. -/
def toHex (bs : List UInt8) : List Char := bs.flatMap byteHex

/-- The bytes of a hexadecimal text of even length. -/
def ofHex : List Char → Option (List UInt8)
  | [] => some []
  | [_] => none
  | a :: b :: cs => do
    let hi ← hexValue a
    let lo ← hexValue b
    let rest ← ofHex cs
    some (UInt8.ofNat (hi * 16 + lo) :: rest)

/-- The `n` low hexadecimal digits of `v`, most significant first. -/
def hexFixed : ℕ → ℕ → List Char
  | 0, _ => []
  | n + 1, v => hexFixed n (v / 16) ++ [hexDigit (v % 16)]

theorem hexValue_hexDigit {n : ℕ} (h : n < 16) : hexValue (hexDigit n) = some n := by
  interval_cases n <;> decide

@[simp] theorem length_toHex (bs : List UInt8) : (toHex bs).length = 2 * bs.length := by
  induction bs with
  | nil => rfl
  | cons b bs ih =>
    rw [toHex, List.flatMap_cons, List.length_append, ← toHex, ih]
    simp only [byteHex, List.length_cons, List.length_nil]
    omega

theorem toHex_append (as bs : List UInt8) : toHex (as ++ bs) = toHex as ++ toHex bs :=
  List.flatMap_append

theorem ofHex_toHex (bs : List UInt8) : ofHex (toHex bs) = some bs := by
  induction bs with
  | nil => rfl
  | cons b bs ih =>
    have hb : b.toNat < 256 := b.toNat_lt
    have hi := hexValue_hexDigit (n := b.toNat / 16) (by omega)
    have lo := hexValue_hexDigit (n := b.toNat % 16) (by omega)
    have join : UInt8.ofNat (b.toNat / 16 * 16 + b.toNat % 16) = b := by
      rw [Nat.div_add_mod', UInt8.ofNat_toNat]
    have unfolded : toHex (b :: bs) =
        hexDigit (b.toNat / 16) :: hexDigit (b.toNat % 16) :: toHex bs := rfl
    rw [unfolded, ofHex, hi, lo, ih]
    simp only [Option.bind_eq_bind, Option.bind_some, join]

theorem ofHex_cons_cons {a b : Char} {cs : List Char} {bs : List UInt8} :
    ofHex (a :: b :: cs) = some bs ↔ ∃ hi, hexValue a = some hi ∧ ∃ lo, hexValue b = some lo ∧
      ∃ rest, ofHex cs = some rest ∧ UInt8.ofNat (hi * 16 + lo) :: rest = bs := by
  simp [ofHex, Option.bind_eq_some_iff]

theorem length_of_ofHex {cs : List Char} {bs : List UInt8} (h : ofHex cs = some bs) :
    cs.length = 2 * bs.length := by
  induction cs using List.twoStepInduction generalizing bs with
  | nil =>
    cases h
    rfl
  | singleton c => cases h
  | cons_cons a b cs ih =>
    rw [ofHex_cons_cons] at h
    obtain ⟨_, -, _, -, rest, hrest, hbs⟩ := h
    cases hbs
    have := ih hrest
    simp only [List.length_cons]
    omega

theorem toHex_inj {as bs : List UInt8} : toHex as = toHex bs ↔ as = bs := by
  refine ⟨fun h => ?_, fun h => h ▸ rfl⟩
  have := ofHex_toHex as
  rw [h, ofHex_toHex] at this
  exact (Option.some.inj this).symm

/-- Fixed width hexadecimal text shows the big-endian bytes. -/
theorem hexFixed_eq (w v : ℕ) : hexFixed (2 * w) v = toHex (beBytes w v) := by
  induction w generalizing v with
  | zero => rfl
  | succ w ih =>
    have byte : byteHex (UInt8.ofNat v) = [hexDigit (v / 16 % 16), hexDigit (v % 16)] := by
      have hv : (UInt8.ofNat v).toNat = v % 256 := by simp
      have hi : v % 256 / 16 = v / 16 % 16 := by omega
      have lo : v % 256 % 16 = v % 16 := by omega
      rw [byteHex, hv, hi, lo]
    rw [beBytes, leBytes, List.reverse_cons, toHex_append, ← beBytes, ← ih]
    rw [show 2 * (w + 1) = 2 * w + 1 + 1 from rfl, hexFixed, hexFixed, Nat.div_div_eq_div_mul]
    simp only [toHex, List.flatMap_cons, List.flatMap_nil, List.append_nil, byte,
      List.append_assoc, List.singleton_append]

/-- Reversing the bytes of a text, two characters at a time. -/
def reverseHex : List Char → List Char
  | a :: b :: cs => reverseHex cs ++ [a, b]
  | _ => []

theorem reverseHex_toHex (bs : List UInt8) : reverseHex (toHex bs) = toHex bs.reverse := by
  induction bs with
  | nil => rfl
  | cons b bs ih =>
    have unfolded : toHex (b :: bs) =
        hexDigit (b.toNat / 16) :: hexDigit (b.toNat % 16) :: toHex bs := rfl
    rw [unfolded, reverseHex, ih, List.reverse_cons, toHex_append]
    rfl

end MoMiner.Bytes
