import MoMiner.Lib.PackedWords

/-!
# Records of packed fields

A record is written by storing its fields one after the other, from the lowest bit on. Such a
record can also be put together word by word, from shifted values, and a field can be read from the
one or two words it is in.

Main results: `packedLoad_packedStores`, `packedStores_word`, `packedLoad32_within` and
`packedLoad32_across`.
-/

namespace MoMiner.PackedWords

/-- A field to store: its first bit, its width and its value. -/
structure Field where
  start : ℕ
  width : ℕ
  value : UInt32

/-- Fields that lie one after the other between two bits. -/
structure Ordered (first last : ℕ) (fields : List Field) : Prop where
  ascending : fields.Pairwise fun f g => f.start + f.width ≤ g.start
  width_le : ∀ f ∈ fields, f.width ≤ 32
  le_start : ∀ f ∈ fields, first ≤ f.start
  end_le : ∀ f ∈ fields, f.start + f.width ≤ last

def packedStores (wordCount : ℕ) (words : Words) (fields : List Field) : Words :=
  fields.foldl (fun words f => packedStore words wordCount f.start f.width f.value.toNat) words

/-- A record whose words are zero. -/
def cleared (wordCount : ℕ) (words : Words) : Words := fun k => if k < wordCount then 0 else words k

/-- The bits of a value, put at a place, that fall in one word. -/
def part (p : ℕ) (value : UInt32) (k : ℕ) : UInt32 :=
  if 32 * k ≤ p then UInt32.ofNat (value.toNat <<< (p - 32 * k))
  else UInt32.ofNat (value.toNat >>> (32 * k - p))

/-- A field as the code reads it. -/
def packedLoad32 (words : Words) (wordCount p width : ℕ) : UInt32 :=
  UInt32.ofNat (packedLoad words wordCount p width)

section

variable {words : Words} {wordCount p width : ℕ} {fields : List Field} {f : Field}

theorem eq_of_testBit {x y : UInt32}
    (h : ∀ i < 32, x.toNat.testBit i = y.toNat.testBit i) : x = y := by
  apply UInt32.toNat_inj.mp
  apply Nat.eq_of_testBit_eq
  intro i
  by_cases hi : i < 32
  · exact h i hi
  · have hpow : 2 ^ 32 ≤ 2 ^ i := Nat.pow_le_pow_right (by decide) (by omega)
    rw [Nat.testBit_lt_two_pow (x.toNat_lt.trans_le hpow),
      Nat.testBit_lt_two_pow (y.toNat_lt.trans_le hpow)]

theorem testBit_of_lt {x : UInt32} (hx : x.toNat < 2 ^ width) {i : ℕ} (hi : width ≤ i) :
    x.toNat.testBit i = false :=
  Nat.testBit_lt_two_pow (hx.trans_le (Nat.pow_le_pow_right (by decide) hi))

/-- A shift by less than the bits of a word. -/
theorem toNat_shift {n : ℕ} (hn : n < 32) : (UInt32.ofNat n).toNat % 32 = n := by
  rw [UInt32.toNat_ofNat', Nat.mod_eq_of_lt (hn.trans (by decide)), Nat.mod_eq_of_lt hn]

theorem toNat_mask (hwidth : width ≤ 32) :
    (UInt32.ofNat (2 ^ width - 1)).toNat = 2 ^ width - 1 := by
  have hpow : 2 ^ width ≤ 2 ^ 32 := Nat.pow_le_pow_right (by decide) hwidth
  have hpos := Nat.two_pow_pos width
  exact UInt32.toNat_ofNat_of_lt' (show 2 ^ width - 1 < 2 ^ 32 by omega)

theorem toNat_and_mask (x : UInt32) (hwidth : width ≤ 32) :
    (x &&& UInt32.ofNat (2 ^ width - 1)).toNat = x.toNat % 2 ^ width := by
  rw [UInt32.toNat_and, toNat_mask hwidth, Nat.and_two_pow_sub_one_eq_mod]

theorem and_mask_of_lt {x : UInt32} (hwidth : width ≤ 32) (hx : x.toNat < 2 ^ width) :
    x &&& UInt32.ofNat (2 ^ width - 1) = x := by
  apply UInt32.toNat_inj.mp
  rw [toNat_and_mask x hwidth, Nat.mod_eq_of_lt hx]

/-! ## Lists of fields -/

namespace Ordered

variable {first middle last : ℕ} {fields' : List Field}

theorem nil : Ordered first last [] :=
  ⟨.nil, by simp, by simp, by simp⟩

theorem cons (hfirst : first ≤ f.start) (hwidth : f.width ≤ 32) (hlast : f.start + f.width ≤ last)
    (h : Ordered (f.start + f.width) last fields) : Ordered first last (f :: fields) where
  ascending := List.pairwise_cons.mpr ⟨h.le_start, h.ascending⟩
  width_le := List.forall_mem_cons.mpr ⟨hwidth, h.width_le⟩
  le_start := List.forall_mem_cons.mpr ⟨hfirst, fun g hg => by have := h.le_start g hg; omega⟩
  end_le := List.forall_mem_cons.mpr ⟨hlast, h.end_le⟩

theorem tail (h : Ordered first last (f :: fields)) : Ordered first last fields where
  ascending := (List.pairwise_cons.mp h.ascending).2
  width_le := (List.forall_mem_cons.mp h.width_le).2
  le_start := (List.forall_mem_cons.mp h.le_start).2
  end_le := (List.forall_mem_cons.mp h.end_le).2

theorem append (hfirst : first ≤ middle) (hlast : middle ≤ last) (h : Ordered first middle fields)
    (h' : Ordered middle last fields') : Ordered first last (fields ++ fields') where
  ascending := List.pairwise_append.mpr ⟨h.ascending, h'.ascending,
    fun f hf g hg => (h.end_le f hf).trans (h'.le_start g hg)⟩
  width_le := List.forall_mem_append.mpr ⟨h.width_le, h'.width_le⟩
  le_start := List.forall_mem_append.mpr ⟨h.le_start, fun g hg => hfirst.trans (h'.le_start g hg)⟩
  end_le := List.forall_mem_append.mpr ⟨fun f hf => (h.end_le f hf).trans hlast, h'.end_le⟩

/-- Fields of one width, side by side. -/
theorem run (values : ℕ → UInt32) (base n : ℕ) (hwidth : width ≤ 32) :
    Ordered base (base + n * width)
      ((List.range' 1 n).map fun i => ⟨base + (i - 1) * width, width, values i⟩) := by
  have hend : ∀ {i j : ℕ}, 1 ≤ i → i < j → (i - 1) * width + width ≤ (j - 1) * width := by
    intro i j hi hij
    rw [← Nat.succ_mul]
    exact Nat.mul_le_mul_right _ (by omega)
  refine ⟨List.pairwise_map.mpr ?_, ?_, ?_, ?_⟩
  · refine List.Pairwise.imp_of_mem ?_ (List.pairwise_lt_range' 1)
    intro i j hi _ hij
    have := hend (List.mem_range'_1.mp hi).1 hij
    dsimp only
    omega
  · exact List.forall_mem_map.mpr fun i _ => hwidth
  · exact List.forall_mem_map.mpr fun i _ => Nat.le_add_right _ _
  · refine List.forall_mem_map.mpr fun i hi => ?_
    have hrange := List.mem_range'_1.mp hi
    have := hend hrange.1 hrange.2
    dsimp only
    rw [Nat.add_sub_cancel_left] at this
    omega

end Ordered

theorem packedStores_cons : packedStores wordCount words (f :: fields) =
    packedStores wordCount (packedStore words wordCount f.start f.width f.value.toNat) fields :=
  rfl

theorem bit_cleared {q : ℕ} (hq : q < 32 * wordCount) :
    bit (cleared wordCount words) q = false := by
  have hword : q / 32 < wordCount := by omega
  simp [bit, cleared, hword]

theorem bit_packedStores_of_outside (h : Ordered 0 (32 * wordCount) fields) {q : ℕ}
    (hq : ∀ f ∈ fields, q < f.start ∨ f.start + f.width ≤ q) :
    bit (packedStores wordCount words fields) q = bit words q := by
  induction fields generalizing words with
  | nil => rfl
  | cons f fields ih =>
    have hmem := List.mem_cons_self (a := f) (l := fields)
    have hout := hq f hmem
    rw [packedStores_cons, ih h.tail fun g hg => hq g (List.mem_cons_of_mem f hg),
      bit_packedStore (h.width_le f hmem) (h.end_le f hmem), if_neg (by omega)]

/-- A field below the others is read as before they were stored. -/
theorem packedLoad_packedStores_of_below (h : Ordered 0 (32 * wordCount) fields)
    (hwidth : width ≤ 32) (hend : p + width ≤ 32 * wordCount)
    (hbelow : ∀ f ∈ fields, p + width ≤ f.start) :
    packedLoad (packedStores wordCount words fields) wordCount p width =
      packedLoad words wordCount p width := by
  apply Nat.eq_of_testBit_eq
  intro j
  rw [testBit_packedLoad hwidth hend, testBit_packedLoad hwidth hend]
  by_cases hj : j < width
  · rw [bit_packedStores_of_outside h]
    intro f hf
    have := hbelow f hf
    omega
  · simp [hj]

/-- **Every field is read back.** -/
theorem packedLoad_packedStores (h : Ordered 0 (32 * wordCount) fields) (hf : f ∈ fields) :
    packedLoad (packedStores wordCount words fields) wordCount f.start f.width =
      f.value.toNat % 2 ^ f.width := by
  induction fields generalizing words with
  | nil => exact absurd hf (List.not_mem_nil)
  | cons g fields ih =>
    rw [packedStores_cons]
    rcases List.mem_cons.mp hf with rfl | hrest
    · rw [packedLoad_packedStores_of_below h.tail (h.width_le f hf) (h.end_le f hf)
        (List.pairwise_cons.mp h.ascending).1]
      exact packedLoad_packedStore_self (h.width_le f hf) (h.end_le f hf)
    · exact ih h.tail hrest

/-! ## Words of a record -/

theorem testBit_part {x : UInt32} {k i : ℕ} (hi : i < 32) : (part p x k).toNat.testBit i =
    (decide (p ≤ 32 * k + i) && x.toNat.testBit (32 * k + i - p)) := by
  unfold part
  split
  · rw [UInt32.toNat_ofNat', Nat.testBit_mod_two_pow, Nat.testBit_shiftLeft]
    by_cases hle : p ≤ 32 * k + i
    · have hplace : i - (p - 32 * k) = 32 * k + i - p := by omega
      simp [hi, hle, hplace, show p - 32 * k ≤ i by omega]
    · simp [hle, show ¬ p - 32 * k ≤ i by omega]
  · rw [UInt32.toNat_ofNat', Nat.testBit_mod_two_pow, Nat.testBit_shiftRight]
    have hplace : 32 * k - p + i = 32 * k + i - p := by omega
    simp [hi, hplace, show p ≤ 32 * k + i by omega]

/-- A value that fits in its field is or-ed into the words of a record that is clear there. -/
theorem packedStore_word {x : UInt32} (hwidth : width ≤ 32) (hend : p + width ≤ 32 * wordCount)
    (hx : x.toNat < 2 ^ width) (hclear : ∀ q, p ≤ q → q < p + width → bit words q = false) (k : ℕ) :
    packedStore words wordCount p width x.toNat k = words k ||| part p x k := by
  apply eq_of_testBit
  intro i hi
  rw [testBit_word, decide_eq_true hi, Bool.true_and, bit_packedStore hwidth hend, UInt32.toNat_or,
    Nat.testBit_or, testBit_part hi, testBit_word, decide_eq_true hi, Bool.true_and]
  split
  · next h => simp [hclear _ h.1 h.2, h.1]
  · next h =>
    by_cases hle : p ≤ 32 * k + i
    · simp [testBit_of_lt hx (show width ≤ 32 * k + i - p by omega)]
    · simp [hle]

/-- A store keeps the bits of its field only. -/
theorem packedStore_mod (value : ℕ) :
    packedStore words wordCount p width (value % 2 ^ width) =
      packedStore words wordCount p width value := by
  have hmask : value % 2 ^ width &&& packedMask width = value &&& packedMask width := by
    rw [packedMask, Nat.and_two_pow_sub_one_eq_mod, Nat.and_two_pow_sub_one_eq_mod, Nat.mod_mod]
  rw [packedStore, packedStore, hmask]

/-- **The words of a record** that was clear. -/
theorem packedStores_word (h : Ordered 0 (32 * wordCount) fields)
    (hclear : ∀ f ∈ fields, ∀ q, f.start ≤ q → q < f.start + f.width → bit words q = false)
    (k : ℕ) :
    packedStores wordCount words fields k =
      fields.foldl (fun word f =>
        word ||| part f.start (f.value &&& UInt32.ofNat (2 ^ f.width - 1)) k) (words k) := by
  induction fields generalizing words with
  | nil => rfl
  | cons f fields ih =>
    have hmem := List.mem_cons_self (a := f) (l := fields)
    have hwidth := h.width_le f hmem
    have hend := h.end_le f hmem
    have hmask := toNat_and_mask f.value hwidth
    have hlt : (f.value &&& UInt32.ofNat (2 ^ f.width - 1)).toNat < 2 ^ f.width := by
      rw [hmask]
      exact Nat.mod_lt _ (Nat.two_pow_pos _)
    rw [packedStores_cons, List.foldl_cons, ← packedStore_word hwidth hend hlt (hclear f hmem),
      hmask, packedStore_mod]
    apply ih h.tail
    intro g hg q hfirst hlast
    have hafter := (List.pairwise_cons.mp h.ascending).1 g hg
    rw [bit_packedStore hwidth hend, if_neg (by omega)]
    exact hclear g (List.mem_cons_of_mem f hg) q hfirst hlast

/-! ### Parts -/

section Parts

variable {x : UInt32} {k : ℕ}

theorem part_shiftLeft (hfirst : 32 * k ≤ p) (hlast : p < 32 * k + 32) :
    part p x k = x <<< UInt32.ofNat (p - 32 * k) := by
  rw [part, if_pos hfirst]
  apply UInt32.toNat_inj.mp
  rw [UInt32.toNat_ofNat', UInt32.toNat_shiftLeft, toNat_shift (by omega)]

theorem part_shiftRight (hfirst : p < 32 * k) (hlast : 32 * k < p + 32) :
    part p x k = x >>> UInt32.ofNat (32 * k - p) := by
  rw [part, if_neg (by omega)]
  apply UInt32.toNat_inj.mp
  rw [UInt32.toNat_ofNat', UInt32.toNat_shiftRight, toNat_shift (by omega), Nat.mod_eq_of_lt]
  exact (Nat.shiftRight_le _ _).trans_lt x.toNat_lt

theorem part_of_above (h : 32 * k + 32 ≤ p) : part p x k = 0 := by
  apply eq_of_testBit
  intro i hi
  simp [testBit_part hi, show ¬ p ≤ 32 * k + i by omega]

theorem part_of_below (hx : x.toNat < 2 ^ width) (h : p + width ≤ 32 * k) : part p x k = 0 := by
  apply eq_of_testBit
  intro i hi
  simp [testBit_part hi, testBit_of_lt hx (show width ≤ 32 * k + i - p by omega)]

end Parts

/-! ## Reading a field from its words -/

theorem toNat_packedLoad32 (hwidth : width ≤ 32) :
    (packedLoad32 words wordCount p width).toNat = packedLoad words wordCount p width := by
  rw [packedLoad32, UInt32.toNat_ofNat_of_lt']
  exact packedLoad_lt.trans_le (Nat.pow_le_pow_right (by decide) hwidth)

theorem testBit_packedLoad32 (hwidth : width ≤ 32) (hend : p + width ≤ 32 * wordCount) (j : ℕ) :
    (packedLoad32 words wordCount p width).toNat.testBit j =
      (decide (j < width) && bit words (p + j)) := by
  rw [toNat_packedLoad32 hwidth, testBit_packedLoad hwidth hend]

theorem packedLoad32_packedStores (words : Words) (h : Ordered 0 (32 * wordCount) fields)
    {value : UInt32} (hmem : ⟨p, width, value⟩ ∈ fields) :
    packedLoad32 (packedStores wordCount words fields) wordCount p width =
      UInt32.ofNat (value.toNat % 2 ^ width) :=
  congrArg UInt32.ofNat (packedLoad_packedStores h hmem)

/-- A field depends on the words it reaches and on no others. -/
theorem packedLoad32_congr {words' : Words} {wordCount' : ℕ} (hwidth : width ≤ 32)
    (hend : p + width ≤ 32 * wordCount) (hend' : p + width ≤ 32 * wordCount')
    (h : ∀ k, 32 * k < p + width → words k = words' k) :
    packedLoad32 words wordCount p width = packedLoad32 words' wordCount' p width := by
  apply eq_of_testBit
  intro j _
  rw [testBit_packedLoad32 hwidth hend, testBit_packedLoad32 hwidth hend']
  by_cases hj : j < width
  · rw [bit, bit, h _ (by omega)]
  · simp [hj]

/-- The field of an exclusive or of two records. -/
theorem packedLoad32_xor {words' : Words} (hwidth : width ≤ 32)
    (hend : p + width ≤ 32 * wordCount) :
    packedLoad32 (fun k => words k ^^^ words' k) wordCount p width =
      packedLoad32 words wordCount p width ^^^ packedLoad32 words' wordCount p width := by
  apply eq_of_testBit
  intro j _
  rw [UInt32.toNat_xor, Nat.testBit_xor, testBit_packedLoad32 hwidth hend,
    testBit_packedLoad32 hwidth hend, testBit_packedLoad32 hwidth hend]
  by_cases hj : j < width
  · simp [hj, bit]
  · simp [hj]

/-- **A field in one word.** -/
theorem packedLoad32_within (hwidth : p % 32 + width ≤ 32) (hend : p + width ≤ 32 * wordCount) :
    packedLoad32 words wordCount p width =
      words (p / 32) >>> UInt32.ofNat (p % 32) &&& UInt32.ofNat (2 ^ width - 1) := by
  have hshift : p % 32 < 32 := Nat.mod_lt p (by decide)
  apply eq_of_testBit
  intro j _
  rw [testBit_packedLoad32 (by omega) hend, UInt32.toNat_and, Nat.testBit_and,
    toNat_mask (by omega), Nat.testBit_two_pow_sub_one, UInt32.toNat_shiftRight,
    toNat_shift hshift, Nat.testBit_shiftRight, testBit_word,
    show 32 * (p / 32) + (p % 32 + j) = p + j by omega]
  by_cases hj : j < width
  · simp [hj, show p % 32 + j < 32 by omega]
  · simp [hj]

/-- **A field that goes on in the next word.** -/
theorem packedLoad32_across (hwidth : width ≤ 32) (hacross : 32 < p % 32 + width)
    (hend : p + width ≤ 32 * wordCount) :
    packedLoad32 words wordCount p width =
      words (p / 32) >>> UInt32.ofNat (p % 32) |||
        (words (p / 32 + 1) &&& UInt32.ofNat (2 ^ (p % 32 + width - 32) - 1)) <<<
          UInt32.ofNat (32 - p % 32) := by
  have hshift : p % 32 < 32 := Nat.mod_lt p (by decide)
  apply eq_of_testBit
  intro j hj32
  rw [testBit_packedLoad32 hwidth hend, UInt32.toNat_or, Nat.testBit_or, UInt32.toNat_shiftRight,
    toNat_shift hshift, Nat.testBit_shiftRight, testBit_word,
    show 32 * (p / 32) + (p % 32 + j) = p + j by omega, UInt32.toNat_shiftLeft,
    toNat_shift (show 32 - p % 32 < 32 by omega), Nat.testBit_mod_two_pow, Nat.testBit_shiftLeft,
    UInt32.toNat_and, Nat.testBit_and, toNat_mask (by omega),
    Nat.testBit_two_pow_sub_one, testBit_word, decide_eq_true hj32]
  by_cases hlow : p % 32 + j < 32
  · simp [hlow, show j < width by omega, show ¬ 32 - p % 32 ≤ j by omega]
  · rw [show 32 * (p / 32 + 1) + (j - (32 - p % 32)) = p + j by omega]
    simp [hlow, show 32 - p % 32 ≤ j by omega, show j - (32 - p % 32) < 32 by omega,
      show (j - (32 - p % 32) < p % 32 + width - 32) ↔ j < width by omega, Bool.and_comm]

end

end MoMiner.PackedWords
