import MoMiner.Lib.Layouts
import MoMiner.Miner.PearlShape
import MoMiner.Pearl.PlainProof

/-!
# The noise of the matrices

Both matrices of a search get noise of a low rank: an entry is the difference of two values of a
table, and the pair depends on the place in the common dimension only. The hash that the tables are
made from is a parameter.

**The routes.** A GPU makes the second table by columns and turns it around; a CPU device and the
host write it where it belongs.

Main results: `permPair_spec` and `NoiseRun.tables`.
-/

namespace MoMiner.Pearl

/-! ## Pairs -/

def mulhi (a b : UInt32) : UInt32 := ((a.toUInt64 * b.toUInt64) >>> 32).toUInt32

/-- Two different values of a rank. -/
def permPair (u : UInt32) (rank : ℕ) : UInt32 × UInt32 :=
  let a := u &&& UInt32.ofNat (rank - 1)
  (a, a ^^^ (1 + mulhi (UInt32.ofNat (rank - 1)) u))

theorem toNat_mulhi (a b : UInt32) : (mulhi a b).toNat = a.toNat * b.toNat / 2 ^ 32 := by
  have ha := a.toNat_lt
  have hb := b.toNat_lt
  have hmul : a.toNat * b.toNat < 2 ^ 64 :=
    lt_of_lt_of_eq (Nat.mul_lt_mul_of_lt_of_lt ha hb) (by decide)
  have hdiv : a.toNat * b.toNat / 2 ^ 32 < 2 ^ 32 := Nat.div_lt_of_lt_mul (by omega)
  rw [mulhi, UInt64.toNat_toUInt32, UInt64.toNat_shiftRight, UInt64.toNat_mul, UInt32.toNat_toUInt64,
    UInt32.toNat_toUInt64, Nat.mod_eq_of_lt hmul, Nat.shiftRight_eq_div_pow]
  exact Nat.mod_eq_of_lt hdiv

/-- **Both values of a pair** are below the rank, and they differ. -/
theorem permPair_spec (u : UInt32) {rank : ℕ} (hpower : rank &&& (rank - 1) = 0) (htwo : 2 ≤ rank)
    (hrank : rank < 2 ^ 32) : (permPair u rank).1.toNat < rank ∧ (permPair u rank).2.toNat < rank ∧
      (permPair u rank).1 ≠ (permPair u rank).2 := by
  obtain ⟨e, rfl⟩ : rank.isPowerOfTwo :=
    (Nat.and_sub_one_eq_zero_iff_isPowerOfTwo (by omega)).mp hpower
  have hmask : (UInt32.ofNat (2 ^ e - 1)).toNat = 2 ^ e - 1 :=
    UInt32.toNat_ofNat_of_lt' (lt_of_le_of_lt (Nat.sub_le _ _) hrank)
  have hfirst : (u &&& UInt32.ofNat (2 ^ e - 1)).toNat < 2 ^ e := by
    rw [UInt32.toNat_and, hmask, Nat.and_two_pow_sub_one_eq_mod]
    exact Nat.mod_lt _ (by positivity)
  have hhigh : (mulhi (UInt32.ofNat (2 ^ e - 1)) u).toNat < 2 ^ e - 1 := by
    rw [toNat_mulhi, hmask]
    exact Nat.div_lt_of_lt_mul (by
      rw [Nat.mul_comm]
      exact Nat.mul_lt_mul_of_pos_right u.toNat_lt (by omega))
  have hstep : (1 + mulhi (UInt32.ofNat (2 ^ e - 1)) u).toNat =
      1 + (mulhi (UInt32.ofNat (2 ^ e - 1)) u).toNat := by
    rw [UInt32.toNat_add]
    exact Nat.mod_eq_of_lt (by simp; omega)
  refine ⟨hfirst, ?_, fun heq => ?_⟩
  · rw [permPair, UInt32.toNat_xor, hstep]
    exact Nat.xor_lt_two_pow hfirst (by omega)
  · have hzero := congrArg ((permPair u (2 ^ e)).1 ^^^ ·) heq
    simp only [permPair, ← UInt32.xor_assoc, UInt32.xor_self, UInt32.zero_xor] at hzero
    rw [← hzero] at hstep
    simp at hstep
    omega

/-! ## Tables -/

/-- The domain of the noise of an operand, `A_tensor` or `B_tensor`. -/
def mkSeed (which : Matrix) : CvBytes :=
  .ofFn fun i => ([if which = .a then 65 else 66, 95, 116, 101, 110, 115, 111, 114] :
    List UInt8).getD i 0

def noiseValue (h : UInt8) : Int8 := Int8.ofInt (((h &&& 63).toNat : ℤ) - 32)

theorem toInt_noiseValue (h : UInt8) : -32 ≤ (noiseValue h).toInt ∧ (noiseValue h).toInt ≤ 31 := by
  have hlt : (h &&& 63).toNat ≤ 63 := by
    rw [UInt8.toNat_and]
    exact Nat.and_le_right
  rw [noiseValue, Int8.toInt_ofInt_of_le (by omega) (by omega)]
  omega

def rdU32le (h : CvBytes) (p : ℕ) : UInt32 :=
  le32 (h.toList.getD p 0) (h.toList.getD (p + 1) 0) (h.toList.getD (p + 2) 0)
    (h.toList.getD (p + 3) 0)

structure Tables where
  eal : ℕ → Int8
  ebr : ℕ → Int8
  earp1 : ℕ → UInt32
  earp2 : ℕ → UInt32
  eblq1 : ℕ → UInt32
  eblq2 : ℕ → UInt32

section Noise

variable (randHash : ℕ → CvBytes → CvBytes → ℕ → CvBytes) (cA cB : CvBytes) (m n k rank : ℕ)

/-- A value of the noise of an operand, from the block of 32 that it is in. -/
def noise (which : Matrix) (key : CvBytes) (o : ℕ) : Int8 :=
  noiseValue ((randHash (o / 32) (mkSeed which) key 0).toList.getD (o % 32) 0)

/-- The pair of a place in the common dimension. -/
def noisePair (which : Matrix) (key : CvBytes) (idx : ℕ) : UInt32 × UInt32 :=
  permPair (rdU32le (randHash (idx / 8) (mkSeed which) key 1) (idx % 8 * 4)) rank

/-! ## The kernels -/

inductive NoiseRoute
  | gpu
  | cpu
  | host
  deriving DecidableEq

/-- The blocks of pairs; the host counts them in another way. -/
def NoiseRoute.pairBlocks (k : ℕ) : NoiseRoute → ℕ
  | .host => (k + 7) / 8
  | _ => (k * 4 + 31) / 32

/-- The stores of the noise of an operand; the last block stops at the total. -/
def noiseStores (which : Matrix) (key : CvBytes) (total : ℕ) (cell : ℕ → ℕ) : List (ℕ × Int8) :=
  (List.range ((total + 31) / 32)).flatMap fun i =>
    ((List.range 32).filter (i * 32 + · < total)).map fun j =>
      (cell (i * 32 + j),
        noiseValue ((randHash i (mkSeed which) key 0).toList.getD j 0))

def pairStores (which : Matrix) (key : CvBytes) (blocks : ℕ) (part : UInt32 × UInt32 → UInt32) :
    List (ℕ × UInt32) :=
  (List.range blocks).flatMap fun i => ((List.range 8).filter (i * 8 + · < k)).map fun kk =>
    (i * 8 + kk,
      part (permPair (rdU32le (randHash i (mkSeed which) key 1) (kk * 4)) rank))

/-- The direct layout of the second table. -/
def directCell (o : ℕ) : ℕ := o % rank * n + o / rank

/-- The transpose of the second table. -/
def transposeStores (ebrt : ℕ → Int8) : List (ℕ × Int8) :=
  (List.range (rank * n)).map fun idx => (idx, ebrt (idx % n * rank + idx / n))

/-- The kernels of the noise, with the tables before and after. -/
structure NoiseRun (route : NoiseRoute) (t t' : Tables) : Prop where
  eal : Stores.Phase (noiseStores randHash .a cA (m * rank) id) t.eal t'.eal
  ebr : if route = .gpu then
      ∃ ebrt ebrt', Stores.Phase (noiseStores randHash .b cB (n * rank) id) ebrt ebrt' ∧
        Stores.Phase (transposeStores n rank ebrt') t.ebr t'.ebr
    else Stores.Phase (noiseStores randHash .b cB (n * rank) (directCell n rank)) t.ebr t'.ebr
  earp1 : Stores.Phase (pairStores randHash k rank .a cA (route.pairBlocks k) Prod.fst) t.earp1 t'.earp1
  earp2 : Stores.Phase (pairStores randHash k rank .a cA (route.pairBlocks k) Prod.snd) t.earp2 t'.earp2
  eblq1 : Stores.Phase (pairStores randHash k rank .b cB (route.pairBlocks k) Prod.fst) t.eblq1 t'.eblq1
  eblq2 : Stores.Phase (pairStores randHash k rank .b cB (route.pairBlocks k) Prod.snd) t.eblq2 t'.eblq2

/-- What the tables hold. -/
structure Tables.Holds (t : Tables) : Prop where
  eal : ∀ o < m * rank, t.eal o = noise randHash .a cA o
  ebr : ∀ q < rank, ∀ j < n, t.ebr (q * n + j) = noise randHash .b cB (j * rank + q)
  earp1 : ∀ c < k, t.earp1 c = (noisePair randHash rank .a cA c).1
  earp2 : ∀ c < k, t.earp2 c = (noisePair randHash rank .a cA c).2
  eblq1 : ∀ r < k, t.eblq1 r = (noisePair randHash rank .b cB r).1
  eblq2 : ∀ r < k, t.eblq2 r = (noisePair randHash rank .b cB r).2

variable {randHash cA cB m n k rank}

/-- The noise of an operand, in the cells of its layout. -/
theorem noiseStores_get {which : Matrix} {key : CvBytes} {total : ℕ} {cell : ℕ → ℕ}
    (hinj : ∀ a < total, ∀ b < total, cell a = cell b → a = b) {mem mem' : ℕ → Int8}
    (h : Stores.Phase (noiseStores randHash which key total cell) mem mem') {o : ℕ}
    (ho : o < total) : mem' (cell o) = noise randHash which key o := by
  refine h.get ?_ fun v hv => ?_
  · refine List.mem_flatMap.mpr ⟨o / 32, List.mem_range.mpr (by omega), List.mem_map.mpr
      ⟨o % 32, List.mem_filter.mpr ⟨List.mem_range.mpr (by omega), decide_eq_true (by omega)⟩, ?_⟩⟩
    rw [Nat.div_add_mod', noise]
  · obtain ⟨i, _, hv⟩ := List.mem_flatMap.mp hv
    obtain ⟨j, hj, hv⟩ := List.mem_map.mp hv
    obtain ⟨hcell, rfl⟩ := Prod.mk.inj hv
    obtain ⟨hj32, hlt⟩ := List.mem_filter.mp hj
    have hj32 := List.mem_range.mp hj32
    obtain rfl := hinj _ (of_decide_eq_true hlt) _ ho hcell
    rw [noise, show (i * 32 + j) / 32 = i by omega, show (i * 32 + j) % 32 = j by omega]

theorem pairStores_get {which : Matrix} {key : CvBytes} {blocks : ℕ}
    {part : UInt32 × UInt32 → UInt32} (hblocks : k ≤ blocks * 8) {mem mem' : ℕ → UInt32}
    (h : Stores.Phase (pairStores randHash k rank which key blocks part) mem mem') {idx : ℕ}
    (hidx : idx < k) : mem' idx = part (noisePair randHash rank which key idx) := by
  refine h.get ?_ fun v hv => ?_
  · refine List.mem_flatMap.mpr ⟨idx / 8, List.mem_range.mpr (by omega), List.mem_map.mpr
      ⟨idx % 8, List.mem_filter.mpr ⟨List.mem_range.mpr (by omega), decide_eq_true (by omega)⟩, ?_⟩⟩
    rw [Nat.div_add_mod', noisePair]
  · obtain ⟨i, _, hv⟩ := List.mem_flatMap.mp hv
    obtain ⟨kk, hkk, hv⟩ := List.mem_map.mp hv
    obtain ⟨rfl, rfl⟩ := Prod.mk.inj hv
    have hkk8 := List.mem_range.mp (List.mem_filter.mp hkk).1
    rw [noisePair, show (i * 8 + kk) / 8 = i by omega, show (i * 8 + kk) % 8 = kk by omega]

theorem directCell_inj {a b : ℕ} (ha : a < n * rank) (hb : b < n * rank)
    (h : directCell n rank a = directCell n rank b) : a = b := by
  have hdiv {o : ℕ} (ho : o < n * rank) : o / rank < n :=
    Nat.div_lt_of_lt_mul (by rwa [Nat.mul_comm])
  obtain ⟨ha1, ha2⟩ := Layout.in_block (q := a % rank) (hdiv ha)
  obtain ⟨hb1, hb2⟩ := Layout.in_block (q := b % rank) (hdiv hb)
  simp only [directCell] at h
  rw [h] at ha1 ha2
  rw [← Nat.div_add_mod' a rank, ← Nat.div_add_mod' b rank, ha1.symm.trans hb1, ha2.symm.trans hb2]

theorem pairBlocks_le (route : NoiseRoute) (k : ℕ) : k ≤ route.pairBlocks k * 8 := by
  cases route <;> simp only [NoiseRoute.pairBlocks] <;> omega

theorem NoiseRun.ebr_get {route : NoiseRoute} {t t' : Tables}
    (h : NoiseRun randHash cA cB m n k rank route t t') {q j : ℕ} (hq : q < rank) (hj : j < n) :
    t'.ebr (q * n + j) = noise randHash .b cB (j * rank + q) := by
  have ho : j * rank + q < n * rank := Layout.cell_lt hj hq
  obtain ⟨hdiv, hmod⟩ := Layout.in_block (q := j) hq
  have hebr := h.ebr
  split at hebr
  · obtain ⟨ebrt, ebrt', hmade, hturned⟩ := hebr
    have hturn := hturned.get_of_forall (f := fun idx => ebrt' (idx % n * rank + idx / n))
      (fun p hp => by obtain ⟨idx, _, rfl⟩ := List.mem_map.mp hp; rfl)
      (List.mem_map.mpr ⟨q * n + j, List.mem_range.mpr (Layout.cell_lt hq hj), rfl⟩)
    obtain ⟨hdiv', hmod'⟩ := Layout.in_block (q := q) hj
    rw [hturn, hdiv', hmod']
    exact noiseStores_get (fun _ _ _ _ h => h) hmade ho
  · have hcell : directCell n rank (j * rank + q) = q * n + j := by rw [directCell, hdiv, hmod]
    rw [← hcell]
    exact noiseStores_get (fun a ha b hb => directCell_inj ha hb) hebr ho

/-- **The tables after the kernels**, by every route and in every order of the stores. -/
theorem NoiseRun.tables {route : NoiseRoute} {t t' : Tables}
    (h : NoiseRun randHash cA cB m n k rank route t t') :
    t'.Holds randHash cA cB m n k rank where
  eal := fun _ ho => noiseStores_get (fun _ _ _ _ h => h) h.eal ho
  ebr := fun _ hq _ hj => h.ebr_get hq hj
  earp1 := fun _ hc => pairStores_get (pairBlocks_le route k) h.earp1 hc
  earp2 := fun _ hc => pairStores_get (pairBlocks_le route k) h.earp2 hc
  eblq1 := fun _ hr => pairStores_get (pairBlocks_le route k) h.eblq1 hr
  eblq2 := fun _ hr => pairStores_get (pairBlocks_le route k) h.eblq2 hr

end Noise

end MoMiner.Pearl
