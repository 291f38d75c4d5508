import MoMiner.Autolykos2.Rows
import MoMiner.Lib.Stores

/-!
# The search routes

Every route takes 32 indexes from the index hash, at each byte the four bytes from there on, and
adds up the rows of these indexes.

**Routes.** The portable kernel makes every row from its digest. The monolithic kernel loads or
makes the rows, or 64 lanes stage them in shared memory, eight lanes a row. The split kernels
start from the index hash in words: one lane a nonce, or eight lanes a nonce, one limb a lane.

**The eight lanes.** A lane adds its limb of all rows in 64 bits. The carries go through the lanes
at the end, from the last one to the first.

Main result: `routes_select`.
-/

namespace MoMiner.Autolykos2

/-- What a route selects for a nonce. -/
structure Selection where
  indices : ℕ → UInt32
  sum : Row

/-- The number of four bytes of the hash from byte `k` on, past the end from the start. -/
def windowIndex (hash : Digest) (k : ℕ) : ℕ :=
  hash[k % 32].toNat * 2 ^ 24 + hash[(k + 1) % 32].toNat * 2 ^ 16 +
    hash[(k + 2) % 32].toNat * 2 ^ 8 + hash[(k + 3) % 32].toNat

/-- The rows that a nonce selects, and their sum. -/
structure Selects (message : Digest) (nonce : UInt64) (height : BitVec 32) (n : UInt32)
    (s : Selection) : Prop where
  indices : ∀ k < 32,
    (s.indices k).toNat = windowIndex (indexHash message nonce height n) k % n.toNat
  sum : s.sum.toNat = (∑ k ∈ Finset.range 32,
    (tableRow height (windowIndex (indexHash message nonce height n) k % n.toNat)).toNat) % 2 ^ 256

/-- The nonce of a global id. -/
def nonceAt (start : UInt64) (gid : ℕ) : UInt64 := start + UInt64.ofNat gid

/-! ## Indexes from bytes -/

def indexFromBytes (b : Build) (n : UInt32) (hash : Digest) (k : ℕ) : UInt32 :=
  moModU32 b.halves (load32BeDev hash[k % 32] hash[(k + 1) % 32] hash[(k + 2) % 32]
    hash[(k + 3) % 32]) n (moModM n)

theorem toNat_indexFromBytes (b : Build) {n : UInt32} (hn : n ≠ 0) (hash : Digest) (k : ℕ) :
    (indexFromBytes b n hash k).toNat = windowIndex hash k % n.toNat := by
  rw [indexFromBytes, moModU32_eq _ _ hn, UInt32.toNat_mod, toNat_load32BeDev, windowIndex]

theorem windowIndex_mod_lt {n : UInt32} (hn : n ≠ 0) (hash : Digest) (k : ℕ) :
    windowIndex hash k % n.toNat < n.toNat :=
  Nat.mod_lt _ (toNat_ne_zero hn)

/-! ## One lane a nonce -/

section Routes

variable (b : Build) (message : Digest) {height : BitVec 32} {n : UInt32}

/-- The kernel of the portable build. -/
def portableRoute (nonce : UInt64) (height : BitVec 32) (n : UInt32) : Selection :=
  let hash := autolykosIndexHashDev b message nonce (none : Option (Table b.portable height n))
  let indices := indexFromBytes b n hash
  ⟨indices, sumRows (fun k =>
    digestToLimbsDev (autolykosPrehashDigestDev b.portable (indices k).toBitVec height)) 32⟩

def tableItemLimbsDev (table : Option (Table b.portable height n)) (index : UInt32) : Row :=
  match table with
  | some table => table.row index.toNat
  | none => digestToLimbsDev (autolykosPrehashDigestDev b.portable index.toBitVec height)

/-- The monolithic kernel, unless it has a table and 64 lanes. -/
def monolithicRoute (nonce : UInt64) (table : Option (Table b.portable height n)) : Selection :=
  let hash := autolykosIndexHashDev b message nonce table
  let indices := indexFromBytes b n hash
  ⟨indices, sumRows (fun k => tableItemLimbsDev b table (indices k)) 32⟩

theorem toNat_sumRows_of_eq {row row' : ℕ → Row} {turns : ℕ} (h : ∀ k < turns, row k = row' k) :
    (sumRows row turns).toNat = (∑ k ∈ Finset.range turns, (row' k).toNat) % 2 ^ 256 := by
  rw [toNat_sumRows]
  exact congrArg (· % 2 ^ 256)
    (Finset.sum_congr rfl fun k hk => by rw [h k (Finset.mem_range.mp hk)])

theorem tableItemLimbsDev_eq (table : Option (Table b.portable height n)) {index : UInt32}
    (h : index.toNat < n.toNat) : tableItemLimbsDev b table index = tableRow height index.toNat := by
  have hindex : BitVec.ofNat 32 index.toNat = index.toBitVec := by simp
  cases table with
  | some table => exact table.row_eq_tableRow h
  | none => rw [tableItemLimbsDev, tableRow, hindex, autolykosPrehashDigestDev_build]

theorem monolithicRoute_selects (nonce : UInt64) (hn : n ≠ 0)
    (table : Option (Table b.portable height n)) :
    Selects message nonce height n (monolithicRoute b message nonce table) where
  indices := by
    intro k _
    rw [monolithicRoute, toNat_indexFromBytes b hn, autolykosIndexHashDev_eq b message nonce hn]
  sum := by
    refine toNat_sumRows_of_eq fun k _ => ?_
    have hindex := toNat_indexFromBytes b hn (autolykosIndexHashDev b message nonce table) k
    rw [autolykosIndexHashDev_eq b message nonce hn] at hindex ⊢
    rw [tableItemLimbsDev_eq b table (hindex ▸ windowIndex_mod_lt hn _ k), hindex]

/-- The portable kernel is the branch without a table. -/
theorem portableRoute_selects (nonce : UInt64) (hn : n ≠ 0) :
    Selects message nonce height n (portableRoute b message nonce height n) :=
  monolithicRoute_selects b message nonce hn (none : Option (Table b.portable height n))

/-! ## Shared memory -/

/-- An order of the stores of a turn; between two barriers the lanes are not ordered. -/
structure Schedule where
  index : List (Fin 64)
  data : List (Fin 64 × Fin 8)
  index_all : ∀ lane, lane ∈ index
  data_all : ∀ p, p ∈ data

structure SharedState where
  sharedIndex : ℕ → UInt32
  sharedData : ℕ → UInt32
  sum : ℕ → Row

/-- A lane and a group of its loop: `hash_id` is `lane / 8`, `thread_id` is `lane % 8`. -/
def sourceLane (p : Fin 64 × Fin 8) : ℕ := p.1.val / 8 + p.2.val * 8

def dataCell (p : Fin 64 × Fin 8) : ℕ := p.2.val * 64 + p.1.val / 8 * 8 + p.1.val % 8

/-- Turn `k` of the 64 lanes. -/
def sharedTurn (table : Table b.portable height n) (indices : ℕ → ℕ → UInt32) (order : Schedule)
    (s : SharedState) (k : ℕ) : SharedState :=
  let sharedIndex := Stores.writes (fun lane : Fin 64 => lane.val) (fun lane => indices lane k)
    s.sharedIndex order.index
  let sharedData := Stores.writes dataCell
    (fun p => Row.limb (table.row (sharedIndex (sourceLane p)).toNat)
      ⟨p.1.val % 8, Nat.mod_lt _ (by decide)⟩) s.sharedData order.data
  { sharedIndex, sharedData,
    sum := fun lane => addLimbsDev (s.sum lane) (.ofFn fun j => sharedData (lane * 8 + j.rev)) }

def sharedTurns (table : Table b.portable height n) (indices : ℕ → ℕ → UInt32)
    (order : ℕ → Schedule) (s : SharedState) (turns : ℕ) : SharedState :=
  (List.range turns).foldl (fun s k => sharedTurn b table indices (order k) s k) s

/-- The indexes of the lanes of a workgroup. -/
def sharedIndices (start : UInt64) (intensity group : ℕ) (table : Table b.portable height n)
    (lane k : ℕ) : UInt32 :=
  let gid := group * 64 + lane
  if gid < intensity then
    indexFromBytes b n (autolykosIndexHashDev b message (nonceAt start gid) (some table)) k
  else 0

/-- The monolithic kernel with a table and 64 lanes, for a lane of a workgroup. -/
def sharedRoute (start : UInt64) (intensity group : ℕ) (table : Table b.portable height n)
    (order : ℕ → Schedule) (index data : ℕ → UInt32) (lane : ℕ) : Selection :=
  let indices := sharedIndices b message start intensity group table
  ⟨indices lane, (sharedTurns b table indices order ⟨index, data, fun _ => zeroRow⟩ 32).sum lane⟩

theorem dataCell_inj {p q : Fin 64 × Fin 8} (h : dataCell p = dataCell q) : p = q := by
  have hp := p.1.isLt
  have hq := q.1.isLt
  simp only [dataCell] at h
  exact Prod.ext (Fin.ext (by omega)) (Fin.ext (by omega))

/-- **A turn adds to the sum of a lane the row of its own index.** -/
theorem sharedTurn_sum (table : Table b.portable height n) (indices : ℕ → ℕ → UInt32)
    (order : Schedule) (s : SharedState) (k : ℕ) {lane : ℕ} (hlane : lane < 64) :
    (sharedTurn b table indices order s k).sum lane =
      addLimbsDev (s.sum lane) (table.row (indices lane k).toNat) := by
  have hindex : Stores.writes (fun l : Fin 64 => l.val) (fun l => indices l k) s.sharedIndex
      order.index lane = indices lane k :=
    Stores.writes_key (fun l : Fin 64 => l.val) _ _ (order.index_all ⟨lane, hlane⟩)
      fun l _ h => Fin.ext h
  have hrow : (Limbs.Number.ofFn fun j : Fin 8 =>
      (sharedTurn b table indices order s k).sharedData (lane * 8 + j.rev)) =
        table.row (indices lane k).toNat := by
    refine (congrArg Limbs.Number.ofFn (funext fun j => ?_)).trans (Limbs.Number.ofFn_get _)
    have hj := j.rev.isLt
    have hcell : lane * 8 + j.rev.val =
        dataCell (⟨lane % 8 * 8 + j.rev.val, by omega⟩, ⟨lane / 8, by omega⟩) := by
      simp only [dataCell]
      omega
    have hsource : sourceLane (⟨lane % 8 * 8 + j.rev.val, by omega⟩, ⟨lane / 8, by omega⟩) =
        lane := by
      simp only [sourceLane]
      omega
    have hlimb : (⟨(lane % 8 * 8 + j.rev.val) % 8, Nat.mod_lt _ (by decide)⟩ : Fin 8) = j.rev :=
      Fin.ext (by simp only; omega)
    rw [hcell]
    refine (Stores.writes_key dataCell _ _ (order.data_all _) fun p _ h => dataCell_inj h).trans ?_
    rw [hsource, hindex]
    simp only [hlimb, Row.limb, Fin.rev_rev]
  exact congrArg (addLimbsDev (s.sum lane)) hrow

theorem sharedTurns_sum (table : Table b.portable height n) (indices : ℕ → ℕ → UInt32)
    (order : ℕ → Schedule) {s : SharedState} {lane : ℕ} (hlane : lane < 64)
    (hs : s.sum lane = zeroRow) (turns : ℕ) :
    (sharedTurns b table indices order s turns).sum lane =
      sumRows (fun k => table.row (indices lane k).toNat) turns := by
  induction turns with
  | zero => exact hs
  | succ turns ih =>
    simp only [sharedTurns, sumRows, List.range_succ, List.foldl_append, List.foldl_cons,
      List.foldl_nil, sharedTurn_sum b table indices _ _ _ hlane]
    exact congrArg (addLimbsDev · _) ih

theorem sharedRoute_selects (start : UInt64) (hn : n ≠ 0) {intensity group lane : ℕ}
    (hlane : lane < 64) (hactive : group * 64 + lane < intensity)
    (table : Table b.portable height n) (order : ℕ → Schedule) (index data : ℕ → UInt32) :
    Selects message (nonceAt start (group * 64 + lane)) height n
      (sharedRoute b message start intensity group table order index data lane) := by
  have hmono := monolithicRoute_selects b message (nonceAt start (group * 64 + lane)) hn
    (some table)
  have hindices : sharedIndices b message start intensity group table lane =
      indexFromBytes b n
        (autolykosIndexHashDev b message (nonceAt start (group * 64 + lane)) (some table)) := by
    funext k
    rw [sharedIndices, if_pos hactive]
  have hroute : sharedRoute b message start intensity group table order index data lane =
      monolithicRoute b message (nonceAt start (group * 64 + lane)) (some table) := by
    rw [sharedRoute, sharedTurns_sum b table _ order hlane rfl, hindices]
    rfl
  rwa [hroute]

/-! ## Indexes from words -/

/-- The words of the index hashes, eight a nonce, stored in any order. -/
def bhashes (start : UInt64) (table : Table b.portable height n) (order : List (ℕ × Fin 8))
    (mem : ℕ → UInt32) : ℕ → UInt32 :=
  Stores.writes (fun p : ℕ × Fin 8 => p.1 * 8 + p.2.val)
    (fun p => digestWord (autolykosIndexHashDev b message (nonceAt start p.1) (some table)) p.2)
    mem order

/-- The switch is the same in the split kernel of one lane. -/
def autolykosIndexFromWordsDev (b : Build) (n : UInt32) (word0 word1 : UInt32) :
    ℕ → UInt32
  | 0 => moModU32 b.halves word0 n (moModM n)
  | 1 => moModU32 b.halves ((word0 <<< 8) ||| (word1 >>> 24)) n (moModM n)
  | 2 => moModU32 b.halves ((word0 <<< 16) ||| (word1 >>> 16)) n (moModM n)
  | _ => moModU32 b.halves ((word0 <<< 24) ||| (word1 >>> 8)) n (moModM n)

/-- A window over two words. -/
theorem toNat_shift_or (x y : UInt32) {a : ℕ} (h0 : 0 < a) (ha : a < 32) :
    ((x <<< UInt32.ofNat a) ||| (y >>> UInt32.ofNat (32 - a))).toNat =
      x.toNat * 2 ^ a % 2 ^ 32 + y.toNat / 2 ^ (32 - a) := by
  have hsize (c : ℕ) (hc : c < 32) : (UInt32.ofNat c).toNat % 32 = c := by
    rw [UInt32.toNat_ofNat']
    omega
  have hleft : (x <<< UInt32.ofNat a).toNat = x.toNat * 2 ^ a % 2 ^ 32 := by
    rw [UInt32.toNat_shiftLeft, hsize a ha, Nat.shiftLeft_eq]
  have hright : (y >>> UInt32.ofNat (32 - a)).toNat = y.toNat / 2 ^ (32 - a) := by
    rw [UInt32.toNat_shiftRight, hsize _ (by omega), Nat.shiftRight_eq_div_pow]
  have hdvd : 2 ^ a ∣ x.toNat * 2 ^ a % 2 ^ 32 :=
    (Nat.dvd_mod_iff (pow_dvd_pow 2 ha.le)).mpr (Dvd.intro_left _ rfl)
  have hlt : y.toNat / 2 ^ (32 - a) < 2 ^ a := by
    rw [Nat.div_lt_iff_lt_mul (Nat.two_pow_pos _), ← pow_add, show a + (32 - a) = 32 by omega]
    exact y.toNat_lt
  rw [toNat_or32_of_dvd (s := a) (hleft ▸ hdvd) (hright ▸ hlt), hleft, hright]

theorem load32BeDev_windows (b0 b1 b2 b3 c0 c1 c2 c3 : UInt8) :
    (load32BeDev b0 b1 b2 b3 <<< 8) ||| (load32BeDev c0 c1 c2 c3 >>> 24) =
        load32BeDev b1 b2 b3 c0 ∧
      (load32BeDev b0 b1 b2 b3 <<< 16) ||| (load32BeDev c0 c1 c2 c3 >>> 16) =
        load32BeDev b2 b3 c0 c1 ∧
      (load32BeDev b0 b1 b2 b3 <<< 24) ||| (load32BeDev c0 c1 c2 c3 >>> 8) =
        load32BeDev b3 c0 c1 c2 := by
  have := b0.toNat_lt
  have := b1.toNat_lt
  have := b2.toNat_lt
  have := b3.toNat_lt
  have := c0.toNat_lt
  have := c1.toNat_lt
  have := c2.toNat_lt
  have := c3.toNat_lt
  refine ⟨UInt32.toNat_inj.mp ?_, UInt32.toNat_inj.mp ?_, UInt32.toNat_inj.mp ?_⟩
  · refine (toNat_shift_or _ _ (a := 8) (by decide) (by decide)).trans ?_
    simp only [toNat_load32BeDev]
    omega
  · refine (toNat_shift_or _ _ (a := 16) (by decide) (by decide)).trans ?_
    simp only [toNat_load32BeDev]
    omega
  · refine (toNat_shift_or _ _ (a := 24) (by decide) (by decide)).trans ?_
    simp only [toNat_load32BeDev]
    omega

/-- **Windows of words are windows of bytes.** -/
theorem autolykosIndexFromWordsDev_eq (b : Build) (n : UInt32) (hash : Digest) {k : ℕ}
    (hk : k < 32) :
    autolykosIndexFromWordsDev b n (digestWord hash ⟨k / 4, by omega⟩)
      (digestWord hash ⟨(k / 4 + 1) % 8, by omega⟩) (k % 4) = indexFromBytes b n hash k := by
  obtain ⟨q, r, hq, hr, rfl⟩ : ∃ q r, q < 8 ∧ r < 4 ∧ k = 4 * q + r :=
    ⟨k / 4, k % 4, by omega, Nat.mod_lt _ (by decide), by omega⟩
  have hdiv : (4 * q + r) / 4 = q := by omega
  have hmod : (4 * q + r) % 4 = r := by omega
  have hnext : 4 * ((q + 1) % 8) = (4 * q + 4) % 32 := by omega
  simp only [hdiv, hmod, digestWord]
  obtain ⟨h1, h2, h3⟩ := load32BeDev_windows hash[4 * q] hash[4 * q + 1] hash[4 * q + 2]
    hash[4 * q + 3] hash[4 * ((q + 1) % 8)] hash[4 * ((q + 1) % 8) + 1]
    hash[4 * ((q + 1) % 8) + 2] hash[4 * ((q + 1) % 8) + 3]
  have hat (i j : ℕ) (hi : i < 32) (hij : i = j % 32) : hash[i] = hash[j % 32] := by
    subst hij
    rfl
  interval_cases r
  · rw [autolykosIndexFromWordsDev, indexFromBytes]
    congr 2 <;> exact hat _ _ _ (by omega)
  · rw [autolykosIndexFromWordsDev, h1, indexFromBytes]
    congr 2 <;> exact hat _ _ _ (by omega)
  · rw [autolykosIndexFromWordsDev, h2, indexFromBytes]
    congr 2 <;> exact hat _ _ _ (by omega)
  · refine (congrArg (moModU32 b.halves · n (moModM n)) h3).trans ?_
    rw [indexFromBytes]
    congr 2 <;> exact hat _ _ _ (by omega)

/-- The words of a nonce after the index kernel. -/
theorem bhashes_word (start : UInt64) (hn : n ≠ 0) (table : Table b.portable height n)
    {order : List (ℕ × Fin 8)} (mem : ℕ → UInt32) {gid : ℕ} (i : Fin 8)
    (horder : (gid, i) ∈ order) :
    bhashes b message start table order mem (gid * 8 + i) =
      digestWord (indexHash message (nonceAt start gid) height n) i := by
  have hinj : ∀ p ∈ order, p.1 * 8 + p.2.val = gid * 8 + i.val → p = (gid, i) := by
    intro p _ h
    have hp := p.2.isLt
    have hi := i.isLt
    exact Prod.ext (by simp only; omega) (Fin.ext (by simp only; omega))
  refine (Stores.writes_key (fun p : ℕ × Fin 8 => p.1 * 8 + p.2.val) _ _ horder hinj).trans ?_
  rw [autolykosIndexHashDev_eq b message _ hn]

/-- The split kernel of one lane; word 8 is word 0. -/
def splitRoute (n : UInt32) (table : Table b.portable height n) (bhashes : ℕ → UInt32) (gid : ℕ) :
    Selection :=
  let words : ℕ → UInt32 := fun i => if i = 8 then bhashes (gid * 8) else bhashes (gid * 8 + i)
  let indices : ℕ → UInt32 := fun k =>
    autolykosIndexFromWordsDev b n (words (k / 4)) (words (k / 4 + 1)) (k % 4)
  ⟨indices, sumRows (fun k => table.row (indices k).toNat) 32⟩

/-- A sum of table rows at the right indexes. -/
theorem selects_of_indices (nonce : UInt64) (hn : n ≠ 0) (table : Table b.portable height n)
    {indices : ℕ → UInt32} {sum : Row}
    (hindices : ∀ k < 32, indices k = indexFromBytes b n (indexHash message nonce height n) k)
    (hsum : sum.toNat = (∑ k ∈ Finset.range 32, (table.row (indices k).toNat).toNat) % 2 ^ 256) :
    Selects message nonce height n ⟨indices, sum⟩ where
  indices := fun k hk => by
    refine (congrArg UInt32.toNat (hindices k hk)).trans ?_
    rw [toNat_indexFromBytes b hn]
  sum := by
    refine hsum.trans (congrArg (· % 2 ^ 256) (Finset.sum_congr rfl fun k hk => ?_))
    rw [hindices k (Finset.mem_range.mp hk), toNat_indexFromBytes b hn,
      table.row_eq_tableRow (windowIndex_mod_lt hn _ k)]

theorem splitRoute_selects (start : UInt64) (hn : n ≠ 0) (table : Table b.portable height n)
    {order : List (ℕ × Fin 8)} (mem : ℕ → UInt32) {gid : ℕ} (horder : ∀ i, (gid, i) ∈ order) :
    Selects message (nonceAt start gid) height n
      (splitRoute b n table (bhashes b message start table order mem) gid) := by
  refine selects_of_indices b message _ hn table (fun k hk => ?_) (toNat_sumRows _ 32)
  have hword (i : Fin 8) := bhashes_word b message start hn table mem i (horder i)
  have hfirst := hword ⟨k / 4, by omega⟩
  have hnext := hword ⟨(k / 4 + 1) % 8, by omega⟩
  rw [← autolykosIndexFromWordsDev_eq b n _ hk, ← hfirst, ← hnext]
  have hne : k / 4 ≠ 8 := by omega
  by_cases hwrap : k / 4 + 1 = 8
  · simp [hne, hwrap]
  · simp only [hne, hwrap, if_false, Nat.mod_eq_of_lt (show k / 4 + 1 < 8 by omega)]

/-! ## Eight lanes a nonce -/

/-- Lanes of one subgroup: the global id of the first one, and their number. -/
structure Subgroup where
  first : ℕ
  width : ℕ
  first_dvd : 8 ∣ first
  width_dvd : 8 ∣ width

/-- The value of a lane; there is none outside of the subgroup. -/
def Subgroup.select (sg : Subgroup) (x : ℕ → UInt32) (lane : ℕ) : UInt32 :=
  if lane < sg.width then x lane else 0

def Subgroup.gid (sg : Subgroup) (lane : ℕ) : ℕ := (sg.first + lane) / 8

def teamBase (lane : ℕ) : ℕ := lane - lane % 8

section Team

variable (n) (bhashes : ℕ → UInt32) (intensity : ℕ) (sg : Subgroup)

def teamWord (lane : ℕ) : UInt32 :=
  if sg.gid lane < intensity then bhashes (sg.gid lane * 8 + lane % 8) else 0

def teamIndex (lane k : ℕ) : UInt32 :=
  autolykosIndexFromWordsDev b n
    (sg.select (teamWord bhashes intensity sg) (teamBase lane + k / 4))
    (sg.select (teamWord bhashes intensity sg) (teamBase lane + (k / 4 + 1) % 8)) (k % 4)

end Team

/-- The limb of a lane goes into one of four sums. -/
def partialStep (active : Bool) (limb : ℕ → UInt32) (p : ℕ → UInt64) (k : ℕ) : ℕ → UInt64 :=
  if active then Function.update p (k % 4) (p (k % 4) + (limb k).toUInt64) else p

def teamColumn (active : Bool) (limb : ℕ → UInt32) : UInt64 :=
  let p := (List.range 32).foldl (partialStep active limb) fun _ => 0
  (p 0 + p 1) + (p 2 + p 3)

/-- The carry and the limb of a lane. -/
structure Carry where
  carry : UInt32
  outputLimb : UInt32

/-- A step of the carry: its owner adds, then every lane of the team takes the owner's carry. -/
def carryStep (sg : Subgroup) (column : ℕ → UInt64) (s : ℕ → Carry) (step : ℕ) : ℕ → Carry :=
  let owned : ℕ → Carry := fun lane =>
    if lane % 8 = 7 - step then
      let withCarry := column lane + (s lane).carry.toUInt64
      ⟨(withCarry >>> 32).toUInt32, withCarry.toUInt32⟩
    else s lane
  fun lane => ⟨sg.select (fun l => (owned l).carry) (teamBase lane + 7 - step),
    (owned lane).outputLimb⟩

def carrySteps (sg : Subgroup) (column : ℕ → UInt64) (steps : ℕ) : ℕ → Carry :=
  (List.range steps).foldl (carryStep sg column) fun _ => ⟨0, 0⟩

/-- The split kernel of eight lanes; the first lane of a team gathers the sum. -/
def teamRoute (n : UInt32) (table : Table b.portable height n) (bhashes : ℕ → UInt32)
    (intensity : ℕ) (sg : Subgroup) (lane : ℕ) : Selection :=
  let column : ℕ → UInt64 := fun lane =>
    teamColumn (decide (sg.gid lane < intensity)) fun k =>
      Row.limb (table.row (teamIndex b n bhashes intensity sg lane k).toNat)
        ⟨lane % 8, Nat.mod_lt _ (by decide)⟩
  let output := carrySteps sg column 8
  ⟨teamIndex b n bhashes intensity sg lane,
    .ofFn fun j => sg.select (fun l => (output l).outputLimb) (teamBase lane + j.rev)⟩

theorem Subgroup.team (sg : Subgroup) {lane i : ℕ} (hlane : lane < sg.width) (hi : i < 8) :
    teamBase lane + i < sg.width ∧ sg.gid (teamBase lane + i) = sg.gid lane ∧
      (teamBase lane + i) % 8 = i ∧ teamBase (teamBase lane + i) = teamBase lane := by
  obtain ⟨f, hf⟩ := sg.first_dvd
  obtain ⟨w, hw⟩ := sg.width_dvd
  simp only [gid, teamBase]
  omega

/-- The lanes of a team have the indexes of its nonce. -/
theorem teamIndex_eq (start : UInt64) (hn : n ≠ 0) (table : Table b.portable height n)
    {order : List (ℕ × Fin 8)} (mem : ℕ → UInt32) {intensity : ℕ} (sg : Subgroup) {lane : ℕ}
    (hlane : lane < sg.width) (hactive : sg.gid lane < intensity)
    (horder : ∀ i, (sg.gid lane, i) ∈ order) {k : ℕ} (hk : k < 32) :
    teamIndex b n (bhashes b message start table order mem) intensity sg lane k =
      indexFromBytes b n (indexHash message (nonceAt start (sg.gid lane)) height n) k := by
  have hword (i : Fin 8) : sg.select
      (teamWord (bhashes b message start table order mem) intensity sg) (teamBase lane + i.val) =
        digestWord (indexHash message (nonceAt start (sg.gid lane)) height n) i := by
    obtain ⟨hin, hgid, hmod, -⟩ := sg.team hlane i.isLt
    rw [Subgroup.select, if_pos hin, teamWord, hgid, if_pos hactive, hmod,
      bhashes_word b message start hn table mem i (horder i)]
  rw [← autolykosIndexFromWordsDev_eq b n _ hk, teamIndex, ← hword, ← hword]

theorem partialStep_toNat (limb : ℕ → UInt32) {t : ℕ} (ht : t ≤ 32) (j : ℕ) :
    ((List.range t).foldl (partialStep true limb) (fun _ => 0) j).toNat =
      ∑ k ∈ Finset.range t, if k % 4 = j then (limb k).toNat else 0 := by
  induction t with
  | zero => rfl
  | succ t ih =>
    have hsum := ih (by omega)
    have hbound : (∑ k ∈ Finset.range t, if k % 4 = j then (limb k).toNat else 0) ≤
        t * (2 ^ 32 - 1) := by
      refine (Finset.sum_le_card_nsmul _ _ (2 ^ 32 - 1) fun k _ => ?_).trans (by simp)
      have := (limb k).toNat_lt
      split_ifs <;> omega
    rw [List.range_succ, List.foldl_append, Finset.sum_range_succ]
    simp only [List.foldl_cons, List.foldl_nil, partialStep, if_true]
    by_cases hj : t % 4 = j
    · subst hj
      have hlt := (limb t).toNat_lt
      rw [Function.update_self, UInt64.toNat_add, hsum, UInt32.toNat_toUInt64, if_pos rfl]
      exact Nat.mod_eq_of_lt (by omega)
    · rw [Function.update_of_ne (Ne.symm hj), if_neg hj, hsum, Nat.add_zero]

/-- **A column adds up the limbs of its lane**, with no overflow. -/
theorem toNat_teamColumn (limb : ℕ → UInt32) :
    (teamColumn true limb).toNat = ∑ k ∈ Finset.range 32, (limb k).toNat ∧
      (teamColumn true limb).toNat ≤ 32 * (2 ^ 32 - 1) := by
  have hsum : (∑ k ∈ Finset.range 32, (limb k).toNat) =
      ∑ j ∈ Finset.range 4, ∑ k ∈ Finset.range 32, if k % 4 = j then (limb k).toNat else 0 := by
    rw [Finset.sum_comm]
    refine Finset.sum_congr rfl fun k _ => ?_
    rw [Finset.sum_ite_eq, if_pos (Finset.mem_range.mpr (Nat.mod_lt _ (by decide)))]
  have hbound : (∑ k ∈ Finset.range 32, (limb k).toNat) ≤ 32 * (2 ^ 32 - 1) := by
    refine (Finset.sum_le_card_nsmul _ _ (2 ^ 32 - 1) fun k _ => ?_).trans (by simp)
    have := (limb k).toNat_lt
    omega
  have hcolumn : (teamColumn true limb).toNat = ∑ k ∈ Finset.range 32, (limb k).toNat := by
    have hp := partialStep_toNat limb le_rfl
    simp only [Finset.sum_range_succ _ 3, Finset.sum_range_succ _ 2, Finset.sum_range_succ _ 1,
      Finset.sum_range_succ _ 0, Finset.sum_range_zero, ← hp] at hsum
    simp only [teamColumn, UInt64.toNat_add]
    rw [hsum] at hbound ⊢
    omega
  exact ⟨hcolumn, hcolumn ▸ hbound⟩

/-- The carry after some steps, for the lanes of the team from `base` on. -/
structure CarryInv (column : ℕ → UInt64) (s : ℕ → Carry) (base steps : ℕ) (c : ℕ) : Prop where
  small : c ≤ 32
  carry : ∀ i < 8, (s (base + i)).carry.toNat = c
  sum : (∑ j ∈ Finset.range steps, (2 ^ 32) ^ j * (s (base + 7 - j)).outputLimb.toNat) +
    (2 ^ 32) ^ steps * c =
      ∑ j ∈ Finset.range steps, (2 ^ 32) ^ j * (column (base + 7 - j)).toNat

theorem CarryInv.next (sg : Subgroup) {column : ℕ → UInt64} {s : ℕ → Carry} {base steps c : ℕ}
    (hin : base + 8 ≤ sg.width) (hbase : 8 ∣ base)
    (hcolumn : ∀ i < 8, (column (base + i)).toNat ≤ 32 * (2 ^ 32 - 1)) (hsteps : steps < 8)
    (h : CarryInv column s base steps c) :
    CarryInv column (carryStep sg column s steps) base (steps + 1)
      (((column (base + 7 - steps)).toNat + c) / 2 ^ 32) := by
  obtain ⟨q, rfl⟩ := hbase
  have hat : 8 * q + 7 - steps = 8 * q + (7 - steps) := by omega
  have hle := hcolumn (7 - steps) (by omega)
  have hc := h.small
  have hcarry := h.carry (7 - steps) (by omega)
  rw [hat]
  generalize hv : column (8 * q + (7 - steps)) + (s (8 * q + (7 - steps))).carry.toUInt64 = v
  have hvnat : v.toNat = (column (8 * q + (7 - steps))).toNat + c := by
    rw [← hv, UInt64.toNat_add, UInt32.toNat_toUInt64, hcarry]
    exact Nat.mod_eq_of_lt (by omega)
  have howner : (8 * q + (7 - steps)) % 8 = 7 - steps := by omega
  have hother : ∀ j < steps, (8 * q + 7 - j) % 8 ≠ 7 - steps := by
    intro j hj
    omega
  constructor
  · omega
  · intro i hi
    have hteam : teamBase (8 * q + i) + 7 - steps = 8 * q + (7 - steps) := by
      simp only [teamBase]
      omega
    simp only [carryStep, hteam, Subgroup.select, howner, if_true, hv]
    rw [if_pos (by omega), UInt64.toNat_toUInt32, toNat_shiftRight_32, hvnat]
    exact Nat.mod_eq_of_lt (by omega)
  · have hold : ∀ j ∈ Finset.range steps,
        (2 ^ 32) ^ j * (carryStep sg column s steps (8 * q + 7 - j)).outputLimb.toNat =
          (2 ^ 32) ^ j * (s (8 * q + 7 - j)).outputLimb.toNat := by
      intro j hj
      simp only [carryStep, hother j (Finset.mem_range.mp hj), if_false]
    have hnew : (carryStep sg column s steps (8 * q + (7 - steps))).outputLimb.toNat =
        v.toNat % 2 ^ 32 := by
      simp only [carryStep, howner, if_true, hv, UInt64.toNat_toUInt32]
    have hdiv := (Nat.div_add_mod v.toNat (2 ^ 32)).trans hvnat
    rw [Finset.sum_range_succ, Finset.sum_range_succ, Finset.sum_congr rfl hold, ← h.sum, hat,
      hnew, ← hvnat, pow_succ]
    generalize v.toNat / 2 ^ 32 = high at hdiv ⊢
    generalize v.toNat % 2 ^ 32 = low at hdiv ⊢
    linear_combination (2 ^ 32) ^ steps * hdiv

theorem carrySteps_inv (sg : Subgroup) {column : ℕ → UInt64} {base : ℕ}
    (hin : base + 8 ≤ sg.width) (hbase : 8 ∣ base)
    (hcolumn : ∀ i < 8, (column (base + i)).toNat ≤ 32 * (2 ^ 32 - 1)) {steps : ℕ}
    (hsteps : steps ≤ 8) : ∃ c, CarryInv column (carrySteps sg column steps) base steps c := by
  induction steps with
  | zero => exact ⟨0, by decide, fun _ _ => rfl, rfl⟩
  | succ steps ih =>
    obtain ⟨c, hc⟩ := ih (by omega)
    have hnext := hc.next sg hin hbase hcolumn (by omega)
    rw [carrySteps, List.range_succ, List.foldl_append]
    exact ⟨_, hnext⟩

/-- **The gathered sum** is the sum of the columns, each at its place. -/
theorem toNat_teamSum (sg : Subgroup) {column : ℕ → UInt64} {lane : ℕ} (hlane : lane < sg.width)
    (hcolumn : ∀ i < 8, (column (teamBase lane + i)).toNat ≤ 32 * (2 ^ 32 - 1)) :
    Limbs.Number.toNat (.ofFn fun j : Fin 8 =>
      sg.select (fun l => (carrySteps sg column 8 l).outputLimb) (teamBase lane + j.rev)) =
      (∑ j ∈ Finset.range 8, (2 ^ 32) ^ j * (column (teamBase lane + 7 - j)).toNat) % 2 ^ 256 := by
  obtain ⟨w, hw⟩ := sg.width_dvd
  have hin : teamBase lane + 8 ≤ sg.width := by
    simp only [teamBase]
    omega
  have hbase : 8 ∣ teamBase lane := by
    simp only [teamBase]
    omega
  obtain ⟨c, hc⟩ := carrySteps_inv sg hin hbase hcolumn le_rfl
  have hlimbs : (Limbs.Number.ofFn fun j : Fin 8 =>
      sg.select (fun l => (carrySteps sg column 8 l).outputLimb) (teamBase lane + j.rev)) =
        .ofFn fun j : Fin 8 => (carrySteps sg column 8 (teamBase lane + 7 - j.val)).outputLimb := by
    refine congrArg Limbs.Number.ofFn (funext fun j => ?_)
    have hj := j.isLt
    have hat : teamBase lane + j.rev.val = teamBase lane + 7 - j.val := by
      rw [Fin.val_rev]
      omega
    rw [Subgroup.select, if_pos (by omega), hat]
  have hlt := Limbs.Number.toNat_lt (.ofFn fun j : Fin 8 =>
    (carrySteps sg column 8 (teamBase lane + 7 - j.val)).outputLimb)
  have hpow : ((2 : ℕ) ^ 32) ^ 8 = 2 ^ 256 := by norm_num
  have hsum := hc.sum
  rw [hpow] at hlt hsum
  rw [hlimbs]
  rw [Limbs.Number.toNat_ofFn fun j => (carrySteps sg column 8 (teamBase lane + 7 - j)).outputLimb]
    at hlt ⊢
  rw [← hsum, Nat.mul_comm, Nat.add_mul_mod_self_right, Nat.mod_eq_of_lt hlt]

/-- A row in the limbs of the lanes of a team. -/
theorem Row.toNat_limbs (a : Row) {base : ℕ} (hbase : 8 ∣ base) :
    a.toNat = ∑ j ∈ Finset.range 8, (2 ^ 32) ^ j *
      (Row.limb a ⟨(base + 7 - j) % 8, Nat.mod_lt _ (by decide)⟩).toNat := by
  have hlimbs : (Limbs.Number.ofFn fun j : Fin 8 =>
      Row.limb a ⟨(base + 7 - j.val) % 8, Nat.mod_lt _ (by decide)⟩) = a := by
    refine (congrArg Limbs.Number.ofFn (funext fun j => ?_)).trans (Limbs.Number.ofFn_get a)
    rw [Row.limb]
    congr 1
    refine Fin.ext ?_
    have hj := j.isLt
    rw [Fin.val_rev]
    simp only
    omega
  rw [← Limbs.Number.toNat_ofFn, hlimbs]

theorem teamRoute_selects (start : UInt64) (hn : n ≠ 0) (table : Table b.portable height n)
    {order : List (ℕ × Fin 8)} (mem : ℕ → UInt32) {intensity : ℕ} (sg : Subgroup) {lane : ℕ}
    (hlane : lane < sg.width) (hactive : sg.gid lane < intensity)
    (horder : ∀ i, (sg.gid lane, i) ∈ order) :
    Selects message (nonceAt start (sg.gid lane)) height n
      (teamRoute b n table (bhashes b message start table order mem) intensity sg lane) := by
  refine selects_of_indices b message _ hn table
    (fun k hk => teamIndex_eq b message start hn table mem sg hlane hactive horder hk) ?_
  have hteam : ∀ i < 8, ∀ k < 32,
      teamIndex b n (bhashes b message start table order mem) intensity sg (teamBase lane + i) k =
        teamIndex b n (bhashes b message start table order mem) intensity sg lane k := by
    intro i hi k hk
    obtain ⟨hin, hgid, -, -⟩ := sg.team hlane hi
    rw [teamIndex_eq b message start hn table mem sg hlane hactive horder hk, ← hgid]
    exact teamIndex_eq b message start hn table mem sg hin (hgid ▸ hactive) (hgid ▸ horder) hk
  have hbase : 8 ∣ teamBase lane := by
    simp only [teamBase]
    omega
  refine (toNat_teamSum sg hlane fun i hi => ?_).trans (congrArg (· % 2 ^ 256) ?_)
  · rw [(sg.team hlane hi).2.1, decide_eq_true hactive]
    exact (toNat_teamColumn _).2
  · have hlimb : ∀ j ∈ Finset.range 8, (2 ^ 32) ^ j * (teamColumn
        (decide (sg.gid (teamBase lane + 7 - j) < intensity)) fun k =>
          Row.limb (table.row (teamIndex b n (bhashes b message start table order mem) intensity sg
            (teamBase lane + 7 - j) k).toNat)
            ⟨(teamBase lane + 7 - j) % 8, Nat.mod_lt _ (by decide)⟩).toNat =
        ∑ k ∈ Finset.range 32, (2 ^ 32) ^ j * (Row.limb (table.row (teamIndex b n
          (bhashes b message start table order mem) intensity sg lane k).toNat)
            ⟨(teamBase lane + 7 - j) % 8, Nat.mod_lt _ (by decide)⟩).toNat := by
      intro j hj
      have hj8 := Finset.mem_range.mp hj
      have hat : teamBase lane + 7 - j = teamBase lane + (7 - j) := by omega
      rw [hat, (sg.team hlane (show 7 - j < 8 by omega)).2.1, decide_eq_true hactive,
        (toNat_teamColumn _).1, Finset.mul_sum]
      refine Finset.sum_congr rfl fun k hk => ?_
      rw [hteam (7 - j) (by omega) k (Finset.mem_range.mp hk)]
    rw [Finset.sum_congr rfl hlimb, Finset.sum_comm]
    exact Finset.sum_congr rfl fun k _ => (Row.toNat_limbs _ hbase).symm

end Routes

/-! ## All routes -/

/-- The routes of one build, for all nonces of a launch. -/
structure RoutesSelect (b : Build) (message : Digest) (start : UInt64) (height : BitVec 32)
    (n : UInt32) (intensity : ℕ) : Prop where
  /-- Without a table, in the portable kernel and in the monolithic one. -/
  portable : ∀ gid, Selects message (nonceAt start gid) height n
    (portableRoute b message (nonceAt start gid) height n)
  monolithic : ∀ gid, ∀ table : Option (Table b.portable height n),
    Selects message (nonceAt start gid) height n
      (monolithicRoute b message (nonceAt start gid) table)
  /-- Whatever the order of the stores, and whatever the shared memory holds before. -/
  shared : ∀ (table : Table b.portable height n) (order : ℕ → Schedule) (index data : ℕ → UInt32)
    (group lane : ℕ), lane < 64 → group * 64 + lane < intensity →
      Selects message (nonceAt start (group * 64 + lane)) height n
        (sharedRoute b message start intensity group table order index data lane)
  split : ∀ (table : Table b.portable height n) (order : List (ℕ × Fin 8)) (mem : ℕ → UInt32),
    (∀ gid < intensity, ∀ i, (gid, i) ∈ order) → ∀ gid < intensity,
      Selects message (nonceAt start gid) height n
        (splitRoute b n table (bhashes b message start table order mem) gid)
  team : ∀ (table : Table b.portable height n) (order : List (ℕ × Fin 8)) (mem : ℕ → UInt32),
    (∀ gid < intensity, ∀ i, (gid, i) ∈ order) → ∀ (sg : Subgroup) (lane : ℕ), lane < sg.width →
      sg.gid lane < intensity → Selects message (nonceAt start (sg.gid lane)) height n
        (teamRoute b n table (bhashes b message start table order mem) intensity sg lane)

/-- **All search routes agree.** For every message, nonce, height and table length, every route
selects the rows of the index hash and their sum; the remainders and the row digest are exact. -/
theorem routes_select (message : Digest) (start : UInt64) (height : BitVec 32) {n : UInt32}
    (hn : n ≠ 0) (intensity : ℕ) :
    (∀ b, RoutesSelect b message start height n intensity) ∧
    (∀ halves x, moModU32 halves x n (moModM n) = x % n) ∧
    (∀ halves x, (moModU64 halves x n (moDivM64 n)).toNat = x.toNat % n.toNat) ∧
    ∀ portable index, autolykosPrehashDigestFastDev portable index height =
      autolykosPrehashDigestDev portable index height := by
  refine ⟨fun b => ?_, fun halves x => moModU32_eq halves x hn,
    fun halves x => moModU64_eq halves x hn,
    fun portable index => autolykosPrehashDigestFastDev_eq portable index height⟩
  constructor
  · exact fun gid => portableRoute_selects b message _ hn
  · exact fun gid table => monolithicRoute_selects b message _ hn table
  · exact fun table order index data group lane hlane hactive =>
      sharedRoute_selects b message start hn hlane hactive table order index data
  · exact fun table order mem horder gid hgid =>
      splitRoute_selects b message start hn table mem (horder gid hgid)
  · exact fun table order mem horder sg lane hlane hactive =>
      teamRoute_selects b message start hn table mem sg hlane hactive (horder _ hactive)

/-- The routes over a table of one row. -/
theorem routes_select_one :
    (1 : UInt32) ≠ 0 ∧ RoutesSelect ⟨false, false⟩ (Vector.replicate 32 0) 0 0 1 1 :=
  ⟨by decide, (routes_select (Vector.replicate 32 0) 0 0 (by decide) 1).1 ⟨false, false⟩⟩

end MoMiner.Autolykos2
