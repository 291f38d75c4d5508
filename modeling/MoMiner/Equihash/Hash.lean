import MoMiner.Equihash.Proof

/-!
# The rows of the leaves

The fields of a leaf come from a BLAKE2b digest of the header and of the leaf's hash index. The
first block of the header is compressed once, to a midstate; the last block has two words. Some
devices compute the last block on pairs of 32-bit words.

The rounds are generic in the word and its mixing function, so that `hashWordsFromTailPair_eq` is a
simulation: it suffices that joining two halves commutes with mixing.
-/

namespace MoMiner.Equihash

/-! ## Rounds over any word -/

section Rounds

variable {W : Type}

def blake2bSigma : List (List (Fin 16)) :=
  [[0, 1, 2, 3, 4, 5, 6, 7, 8, 9, 10, 11, 12, 13, 14, 15],
   [14, 10, 4, 8, 9, 15, 13, 6, 1, 12, 0, 2, 11, 7, 5, 3],
   [11, 8, 12, 0, 5, 2, 15, 13, 10, 14, 3, 6, 7, 1, 9, 4],
   [7, 9, 3, 1, 13, 12, 11, 14, 2, 6, 5, 10, 4, 0, 15, 8],
   [9, 0, 5, 7, 2, 4, 10, 15, 14, 1, 11, 12, 6, 8, 3, 13],
   [2, 12, 6, 10, 0, 11, 8, 3, 4, 13, 7, 5, 15, 14, 1, 9],
   [12, 5, 1, 15, 14, 13, 4, 10, 0, 7, 6, 3, 9, 2, 8, 11],
   [13, 11, 7, 14, 12, 1, 3, 9, 5, 0, 15, 4, 8, 6, 2, 10],
   [6, 15, 14, 9, 11, 3, 0, 8, 12, 2, 13, 7, 1, 4, 10, 5],
   [10, 2, 8, 4, 7, 6, 1, 5, 15, 11, 9, 14, 3, 12, 13, 0],
   [0, 1, 2, 3, 4, 5, 6, 7, 8, 9, 10, 11, 12, 13, 14, 15],
   [14, 10, 4, 8, 9, 15, 13, 6, 1, 12, 0, 2, 11, 7, 5, 3]]

/-- The four words of a mixing step. -/
structure Quad (W : Type) where
  a : W
  b : W
  c : W
  d : W

def Quad.map {V : Type} (f : W → V) (q : Quad W) : Quad V := ⟨f q.a, f q.b, f q.c, f q.d⟩

/-- The places that the eight mixing steps of a round work on. -/
def mixPlaces : List (Quad (Fin 16)) :=
  [⟨0, 4, 8, 12⟩, ⟨1, 5, 9, 13⟩, ⟨2, 6, 10, 14⟩, ⟨3, 7, 11, 15⟩,
   ⟨0, 5, 10, 15⟩, ⟨1, 6, 11, 12⟩, ⟨2, 7, 8, 13⟩, ⟨3, 4, 9, 14⟩]

section Mix

variable (g : Quad W → W → W → Quad W)

def mixAt (v : Vector W 16) (p : Quad (Fin 16)) (x y : W) : Vector W 16 :=
  let q := g (p.map fun i => v[i]) x y
  (((v.set p.a q.a).set p.b q.b).set p.c q.c).set p.d q.d

def b2Round (m : Fin 16 → W) (v : Vector W 16) (s : List (Fin 16)) : Vector W 16 :=
  mixPlaces.zipIdx.foldl (fun v p =>
    mixAt g v p.1 (m (s.getD (2 * p.2) 0)) (m (s.getD (2 * p.2 + 1) 0))) v

def b2Rounds (m : Fin 16 → W) (v : Vector W 16) : Vector W 16 :=
  blake2bSigma.foldl (b2Round g m) v

end Mix

variable {V : Type} {f : W → V} {g : Quad W → W → W → Quad W} {g' : Quad V → V → V → Quad V}

theorem mixAt_simulates (hg : ∀ q x y, (g q x y).map f = g' (q.map f) (f x) (f y))
    (v : Vector W 16) (p : Quad (Fin 16)) (x y : W) :
    (mixAt g v p x y).map f = mixAt g' (v.map f) p (f x) (f y) := by
  have hmap : (p.map fun i => (v.map f)[i]) = (p.map fun i => v[i]).map f := by
    simp [Quad.map]
  simp only [mixAt, Vector.map_set, hmap, ← hg]
  rfl

/-- **Rounds on another word.** A map that commutes with the mixing step commutes with the rounds. -/
theorem b2Rounds_simulates (hg : ∀ q x y, (g q x y).map f = g' (q.map f) (f x) (f y))
    (m : Fin 16 → W) (v : Vector W 16) :
    (b2Rounds g m v).map f = b2Rounds g' (f ∘ m) (v.map f) := by
  have hround : ∀ (s : List (Fin 16)) (v : Vector W 16),
      (b2Round g m v s).map f = b2Round g' (f ∘ m) (v.map f) s := by
    intro s v
    unfold b2Round
    generalize mixPlaces.zipIdx = places
    induction places generalizing v with
    | nil => rfl
    | cons p places ih =>
      rw [List.foldl_cons, List.foldl_cons, ih, mixAt_simulates hg]
      rfl
  unfold b2Rounds
  generalize blake2bSigma = sigma
  induction sigma generalizing v with
  | nil => rfl
  | cons s sigma ih => rw [List.foldl_cons, List.foldl_cons, ih, hround]

end Rounds

/-! ## The hash on 64-bit words -/

def blake2bIv : Vector (BitVec 64) 8 :=
  #v[0x6a09e667f3bcc908, 0xbb67ae8584caa73b, 0x3c6ef372fe94f82b, 0xa54ff53a5f1d36f1,
    0x510e527fade682d1, 0x9b05688c2b3e6c1f, 0x1f83d9abfb41bd6b, 0x5be0cd19137e2179]

def rotr64 (x : BitVec 64) (n : ℕ) : BitVec 64 := (x >>> n) ||| (x <<< (64 - n))

/-- The number that `n` bytes from `p` on write, the least significant first. -/
def loadLe (bytes : List UInt8) (p n : ℕ) : ℕ :=
  (List.range n).foldl (fun v i => v ||| (bytes.getD (p + i) 0).toNat <<< (8 * i)) 0

def load64Le (bytes : List UInt8) (p : ℕ) : BitVec 64 := BitVec.ofNat 64 (loadLe bytes p 8)

def load32Le (bytes : List UInt8) (p : ℕ) : BitVec 32 := BitVec.ofNat 32 (loadLe bytes p 4)

theorem getLsbD_rotr64 (x : BitVec 64) {n i : ℕ} (hn : 0 < n) (hn' : n < 64) (hi : i < 64) :
    (rotr64 x n).getLsbD i = x.getLsbD ((n + i) % 64) := by
  simp only [rotr64, BitVec.getLsbD_or, BitVec.getLsbD_ushiftRight, BitVec.getLsbD_shiftLeft]
  by_cases h : n + i < 64
  · simp [Nat.mod_eq_of_lt h, show i < 64 - n by omega]
  · simp [BitVec.getLsbD_of_ge x (n + i) (by omega), hi, show ¬ i < 64 - n by omega,
      show i - (64 - n) = (n + i) % 64 by omega]

theorem rotr64_rotr64 (x : BitVec 64) {n m : ℕ} (hn : 0 < n) (hm : 0 < m) (hnm : n + m < 64) :
    rotr64 (rotr64 x n) m = rotr64 x (n + m) := by
  refine BitVec.eq_of_getLsbD_eq fun i hi => ?_
  rw [getLsbD_rotr64 _ hm (by omega) hi, getLsbD_rotr64 _ hn (by omega) (by omega),
    getLsbD_rotr64 _ (by omega) hnm hi]
  congr 1
  omega

def b2G (q : Quad (BitVec 64)) (x y : BitVec 64) : Quad (BitVec 64) :=
  let a := q.a + (q.b + x)
  let d := rotr64 (q.d ^^^ a) 32
  let c := q.c + d
  let b := rotr64 (q.b ^^^ c) 24
  let a := a + (b + y)
  let d := rotr64 (d ^^^ a) 16
  let c := c + d
  let b := rotr64 (b ^^^ c) 63
  ⟨a, b, c, d⟩

/-- The words of a compression before its rounds. -/
def b2Start (h : Vector (BitVec 64) 8) (count : BitVec 64) (last : Bool) : Vector (BitVec 64) 16 :=
  let v : Vector (BitVec 64) 16 := h ++ blake2bIv
  let v := v.set 12 (v[12] ^^^ count)
  if last then v.set 14 (~~~ v[14]) else v

def b2Compress (h : Vector (BitVec 64) 8) (block : List UInt8) (count : BitVec 64) (last : Bool) :
    Vector (BitVec 64) 8 :=
  let v := b2Rounds b2G (fun i => load64Le block (8 * i)) (b2Start h count last)
  .ofFn fun i => h[i] ^^^ (v[i] ^^^ v[i.val + 8])

/-- A block of two words. -/
def b2TailWord {W : Type} (zero first second : W) (index : Fin 16) : W :=
  if index = 0 then first else if index = 1 then second else zero

def hashWordsFromTail (midstate : Vector (BitVec 64) 8) (first : BitVec 64)
    (secondLow index : BitVec 32) : Vector (BitVec 64) 8 :=
  let second := secondLow.setWidth 64 ||| (index.setWidth 64 <<< 32)
  let v := b2Rounds b2G (b2TailWord 0 first second) (b2Start midstate 144 true)
  .ofFn fun i => midstate[i] ^^^ v[i] ^^^ v[i.val + 8]

/-! ## The last block on pairs -/

structure Blake2bPair where
  lo : BitVec 32
  hi : BitVec 32

def b2Pair (value : BitVec 64) : Blake2bPair := ⟨value.setWidth 32, (value >>> 32).setWidth 32⟩

def b2Join (value : Blake2bPair) : BitVec 64 :=
  value.lo.setWidth 64 ||| (value.hi.setWidth 64 <<< 32)

def carry32 (lo b : BitVec 32) : BitVec 32 := if lo < b then 1 else 0

/-- Add two pairs to a third, with the carries of their low words. -/
def pairAdd2 (a b x : Blake2bPair) : Blake2bPair :=
  let lo := a.lo + b.lo
  ⟨lo + x.lo, a.hi + b.hi + x.hi + (carry32 lo b.lo + carry32 (lo + x.lo) x.lo)⟩

def pairAdd (c d : Blake2bPair) : Blake2bPair :=
  let lo := c.lo + d.lo
  ⟨lo, c.hi + d.hi + carry32 lo d.lo⟩

def pairXor (b c : Blake2bPair) : Blake2bPair := ⟨b.lo ^^^ c.lo, b.hi ^^^ c.hi⟩

/-- Rotate a pair to the right by less than a word. -/
def pairRotr (w : Blake2bPair) (n : ℕ) : Blake2bPair :=
  ⟨(w.lo >>> n) ||| (w.hi <<< (32 - n)), (w.hi >>> n) ||| (w.lo <<< (32 - n))⟩

/-- Rotate a pair to the left by one bit. -/
def pairRotl1 (w : Blake2bPair) : Blake2bPair :=
  ⟨(w.lo <<< 1) ||| (w.hi >>> 31), (w.hi <<< 1) ||| (w.lo >>> 31)⟩

def pairMix (q : Quad Blake2bPair) (x y : Blake2bPair) : Quad Blake2bPair :=
  let a := pairAdd2 q.a q.b x
  let d : Blake2bPair := ⟨q.d.hi ^^^ a.hi, q.d.lo ^^^ a.lo⟩
  let c := pairAdd q.c d
  let b := pairRotr (pairXor q.b c) 24
  let a := pairAdd2 a b y
  let d := pairRotr (pairXor d a) 16
  let c := pairAdd c d
  let b := pairRotl1 (pairXor b c)
  ⟨a, b, c, d⟩

def b2PairStart (midstate : Vector (BitVec 64) 8) : Vector Blake2bPair 16 :=
  let state : Vector Blake2bPair 16 := (midstate ++ blake2bIv : Vector (BitVec 64) 16).map b2Pair
  let state := state.set 12 ⟨state[12].lo ^^^ 144, state[12].hi⟩
  state.set 14 ⟨~~~ state[14].lo, ~~~ state[14].hi⟩

def hashWordsFromTailPair (midstate : Vector (BitVec 64) 8) (first : BitVec 64)
    (secondLow index : BitVec 32) : Vector (BitVec 64) 8 :=
  let state := b2Rounds pairMix (b2TailWord ⟨0, 0⟩ (b2Pair first) ⟨secondLow, index⟩)
    (b2PairStart midstate)
  .ofFn fun i => b2Join (pairXor (pairXor (b2Pair midstate[i]) state[i]) state[i.val + 8])

section Pairs

theorem getLsbD_b2Join (w : Blake2bPair) (i : ℕ) :
    (b2Join w).getLsbD i =
      if i < 32 then w.lo.getLsbD i else decide (i < 64) && w.hi.getLsbD (i - 32) := by
  simp only [b2Join, BitVec.getLsbD_or, BitVec.getLsbD_setWidth, BitVec.getLsbD_shiftLeft]
  by_cases h : i < 32
  · simp [h, show i < 64 by omega]
  · have hlo : w.lo.getLsbD i = false := BitVec.getLsbD_of_ge _ _ (by omega)
    by_cases h' : i < 64
    · simp [h, hlo, h', show i - 32 < 64 by omega]
    · simp [h, h']

theorem toNat_b2Join (w : Blake2bPair) : (b2Join w).toNat = w.lo.toNat + 2 ^ 32 * w.hi.toNat := by
  have hlo := w.lo.isLt
  have hhi := w.hi.isLt
  rw [b2Join, BitVec.toNat_or, BitVec.toNat_setWidth, BitVec.toNat_shiftLeft, BitVec.toNat_setWidth,
    Nat.mod_eq_of_lt (by omega), Nat.mod_eq_of_lt (a := w.hi.toNat) (by omega), Nat.shiftLeft_eq,
    Nat.mod_eq_of_lt (by omega), Nat.or_comm, Nat.mul_comm, ← Nat.two_pow_add_eq_or_of_lt hlo,
    Nat.add_comm]

theorem b2Join_b2Pair (value : BitVec 64) : b2Join (b2Pair value) = value := by
  refine BitVec.eq_of_getLsbD_eq fun i hi => ?_
  rw [getLsbD_b2Join]
  by_cases h : i < 32
  · simp [b2Pair, h]
  · simp [b2Pair, h, hi, show i - 32 < 32 by omega, show 32 + (i - 32) = i by omega]

theorem b2Join_pairXor (b c : Blake2bPair) : b2Join (pairXor b c) = b2Join b ^^^ b2Join c := by
  refine BitVec.eq_of_getLsbD_eq fun i hi => ?_
  simp only [BitVec.getLsbD_xor, getLsbD_b2Join, pairXor]
  split_ifs <;> simp [hi]

theorem toNat_carry32 (lo b : BitVec 32) :
    (carry32 lo b).toNat = if lo.toNat < b.toNat then 1 else 0 := by
  rw [carry32]
  by_cases h : lo < b
  · rw [if_pos h, if_pos (BitVec.lt_def.mp h)]
    rfl
  · rw [if_neg h, if_neg fun h' => h (BitVec.lt_def.mpr h')]
    rfl

theorem b2Join_pairAdd (c d : Blake2bPair) : b2Join (pairAdd c d) = b2Join c + b2Join d := by
  refine BitVec.eq_of_toNat_eq ?_
  have := c.lo.isLt
  have := c.hi.isLt
  have := d.lo.isLt
  have := d.hi.isLt
  rw [BitVec.toNat_add, toNat_b2Join, toNat_b2Join, toNat_b2Join, pairAdd]
  simp only [BitVec.toNat_add, toNat_carry32]
  split_ifs <;> omega

theorem pairAdd2_eq (a b x : Blake2bPair) : pairAdd2 a b x = pairAdd (pairAdd a b) x := by
  simp only [pairAdd2, pairAdd, Blake2bPair.mk.injEq, true_and]
  ac_rfl

theorem b2Join_pairAdd2 (a b x : Blake2bPair) :
    b2Join (pairAdd2 a b x) = b2Join a + (b2Join b + b2Join x) := by
  rw [pairAdd2_eq, b2Join_pairAdd, b2Join_pairAdd, BitVec.add_assoc]

theorem b2Join_swap (w : Blake2bPair) : b2Join ⟨w.hi, w.lo⟩ = rotr64 (b2Join w) 32 := by
  refine BitVec.eq_of_getLsbD_eq fun i hi => ?_
  rw [getLsbD_rotr64 _ (by decide) (by decide) hi, getLsbD_b2Join, getLsbD_b2Join]
  by_cases h : i < 32
  · simp [h, show (32 + i) % 64 = 32 + i by omega, show 32 + i < 64 by omega]
  · simp [h, hi, show (32 + i) % 64 = i - 32 by omega, show i - 32 < 32 by omega]

theorem b2Join_pairRotr (w : Blake2bPair) {n : ℕ} (hn : 0 < n) (hn' : n < 32) :
    b2Join (pairRotr w n) = rotr64 (b2Join w) n := by
  refine BitVec.eq_of_getLsbD_eq fun i hi => ?_
  have hlo : ∀ j, 32 ≤ j → w.lo.getLsbD j = false := fun j hj => BitVec.getLsbD_of_ge _ _ hj
  have hhi : ∀ j, 32 ≤ j → w.hi.getLsbD j = false := fun j hj => BitVec.getLsbD_of_ge _ _ hj
  rw [getLsbD_rotr64 _ hn (by omega) hi]
  simp only [pairRotr, BitVec.getLsbD_or, BitVec.getLsbD_ushiftRight, BitVec.getLsbD_shiftLeft,
    getLsbD_b2Join]
  -- The bit comes from the low or the high word, and stays in its word or not.
  by_cases h : i < 32
  · rw [Nat.mod_eq_of_lt (show n + i < 64 by omega)]
    by_cases h' : n + i < 32
    · simp [h, h', show i < 32 - n by omega]
    · simp [h, h', hlo (n + i) (by omega), show ¬ i < 32 - n by omega, show n + i < 64 by omega,
        show i - (32 - n) = n + i - 32 by omega]
  · by_cases h' : n + i < 64
    · rw [Nat.mod_eq_of_lt h']
      simp [h, h', hi, show n + (i - 32) = n + i - 32 by omega, show ¬ n + i < 32 by omega,
        show i - 32 < 32 - n by omega]
    · have hmod : (n + i) % 64 = i - 32 - (32 - n) := by omega
      simp [h, hmod, hi, hhi (n + (i - 32)) (by omega), show ¬ i - 32 < 32 - n by omega,
        show i - 32 < 32 by omega, show i - 32 - (32 - n) < 32 by omega]

/-- A rotation to the left by one bit is one to the right by all other bits. -/
theorem b2Join_pairRotl1 (w : Blake2bPair) : b2Join (pairRotl1 w) = rotr64 (b2Join w) 63 := by
  have hpair : pairRotl1 w = pairRotr ⟨w.hi, w.lo⟩ 31 := by
    simp [pairRotl1, pairRotr, BitVec.or_comm]
  rw [hpair, b2Join_pairRotr _ (by decide) (by decide), b2Join_swap,
    rotr64_rotr64 _ (by decide) (by decide) (by decide)]

/-- **Mixing pairs is mixing words.** -/
theorem pairMix_join (q : Quad Blake2bPair) (x y : Blake2bPair) :
    (pairMix q x y).map b2Join = b2G (q.map b2Join) (b2Join x) (b2Join y) := by
  have hswap : ∀ d a : Blake2bPair,
      b2Join ⟨d.hi ^^^ a.hi, d.lo ^^^ a.lo⟩ = rotr64 (b2Join d ^^^ b2Join a) 32 := by
    intro d a
    rw [← b2Join_pairXor]
    exact b2Join_swap (pairXor d a)
  simp only [Quad.map, pairMix, b2G, b2Join_pairAdd2, b2Join_pairAdd, b2Join_pairRotl1, hswap,
    b2Join_pairXor, b2Join_pairRotr _ (show 0 < 24 by decide) (by decide),
    b2Join_pairRotr _ (show 0 < 16 by decide) (by decide)]

theorem b2Join_xor_lo (w : Blake2bPair) (count : BitVec 32) :
    b2Join ⟨w.lo ^^^ count, w.hi⟩ = b2Join w ^^^ count.setWidth 64 := by
  have hcount : count.setWidth 64 = b2Join ⟨count, 0⟩ := by simp [b2Join]
  rw [hcount, ← b2Join_pairXor]
  simp [pairXor]

theorem b2Join_not (w : Blake2bPair) : b2Join ⟨~~~ w.lo, ~~~ w.hi⟩ = ~~~ b2Join w := by
  refine BitVec.eq_of_getLsbD_eq fun i hi => ?_
  rw [BitVec.getLsbD_not, getLsbD_b2Join, getLsbD_b2Join]
  by_cases h : i < 32
  · simp [h, hi]
  · simp [h, hi, show i - 32 < 32 by omega]

theorem b2PairStart_join (midstate : Vector (BitVec 64) 8) :
    (b2PairStart midstate).map b2Join = b2Start midstate 144 true := by
  have hjoin : b2Join ∘ b2Pair = id := funext b2Join_b2Pair
  simp [b2PairStart, b2Start, Vector.map_set, hjoin, b2Join_xor_lo, b2Join_not, b2Join_b2Pair]

/-- **The hash on pairs is the hash.** -/
theorem hashWordsFromTailPair_eq (midstate : Vector (BitVec 64) 8) (first : BitVec 64)
    (secondLow index : BitVec 32) :
    hashWordsFromTailPair midstate first secondLow index =
      hashWordsFromTail midstate first secondLow index := by
  have hword : b2Join ∘ b2TailWord ⟨0, 0⟩ (b2Pair first) ⟨secondLow, index⟩ =
      b2TailWord 0 first (secondLow.setWidth 64 ||| (index.setWidth 64 <<< 32)) := by
    funext i
    simp only [Function.comp_apply, b2TailWord]
    split_ifs
    · exact b2Join_b2Pair first
    · rfl
    · exact BitVec.eq_of_toNat_eq (toNat_b2Join ⟨0, 0⟩)
  have hrounds := b2Rounds_simulates pairMix_join
    (b2TailWord ⟨0, 0⟩ (b2Pair first) ⟨secondLow, index⟩) (b2PairStart midstate)
  rw [hword, b2PairStart_join] at hrounds
  simp only [hashWordsFromTailPair, hashWordsFromTail, b2Join_pairXor, b2Join_b2Pair, ← hrounds,
    Vector.getElem_map, Fin.getElem_fin]

end Pairs

/-! ## Rows -/

def Spec.indicesPerHash : Spec → ℕ
  | .zhash144_5 => 3
  | .equihash192_7 => 2

def Spec.collisionBytes (spec : Spec) : ℕ := (spec.collisionBits + 7) / 8

def Spec.segmentBytes (spec : Spec) : ℕ := spec.rounds * spec.collisionBytes

def Spec.hashLength (spec : Spec) : ℕ := spec.indicesPerHash * spec.segmentBytes

def Spec.personalByte : Spec → ℕ → UInt8
  | .zhash144_5, i =>
    ([0x42, 0x67, 0x6f, 0x6c, 0x64, 0x50, 0x6f, 0x57, 144, 0, 0, 0, 5] : List UInt8).getD i 0
  | .equihash192_7, i =>
    ([0x5a, 0x63, 0x61, 0x73, 0x68, 0x50, 0x6f, 0x57, 192, 0, 0, 0, 7] : List UInt8).getD i 0

def hashHeaderMidstate (spec : Spec) (header : List UInt8) : Vector (BitVec 64) 8 :=
  let parameter : List UInt8 := UInt8.ofNat spec.hashLength :: 0 :: 1 :: 1 ::
    (List.replicate 44 0 ++ (List.range 16).map spec.personalByte)
  b2Compress (.ofFn fun i => blake2bIv[i] ^^^ load64Le parameter (8 * i)) (header.take 128) 128
    false

/-- One field of 24 bits, that may cross two words. -/
def digest24 (digest : Vector (BitVec 64) 8) (byte : ℕ) : ℕ :=
  let word := byte / 8
  let shift := 8 * (byte % 8)
  let value := digest.toList.getD word 0 >>> shift
  let value := if 40 < shift then value ||| digest.toList.getD (word + 1) 0 <<< (64 - shift)
    else value
  (value.setWidth 32 &&& 0xffffff).toNat

/-- The hash of a last block: plain or on pairs. -/
def hashTail (paired : Bool) :
    Vector (BitVec 64) 8 → BitVec 64 → BitVec 32 → BitVec 32 → Vector (BitVec 64) 8 :=
  if paired then hashWordsFromTailPair else hashWordsFromTail

theorem hashTail_eq (paired : Bool) : hashTail paired = hashWordsFromTail := by
  cases paired with
  | false => rfl
  | true =>
    funext midstate first secondLow index
    exact hashWordsFromTailPair_eq midstate first secondLow index

/-- The fields of a leaf's row, from the midstate of its header. -/
def rowFromIndexMidstate (spec : Spec) (paired : Bool) (midstate : Vector (BitVec 64) 8)
    (header : List UInt8) (index field : ℕ) : ℕ :=
  let digest := hashTail paired midstate (load64Le header 128) (load32Le header 136)
    (BitVec.ofNat 32 (index / spec.indicesPerHash))
  digest24 digest (index % spec.indicesPerHash * spec.segmentBytes + field * spec.collisionBytes)

/-- The fields of a leaf's row for a header, as a verifier computes them. -/
def rowFields (spec : Spec) (header : List UInt8) : ℕ → ℕ → ℕ :=
  rowFromIndexMidstate spec false (hashHeaderMidstate spec header) header

end MoMiner.Equihash
