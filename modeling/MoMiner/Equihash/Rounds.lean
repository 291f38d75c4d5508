import Mathlib.Data.List.Induction
import MoMiner.Equihash.Records
import MoMiner.Lib.Bins

/-!
# Bucketed collision rounds

The reference rounds of the solver. Records are scattered into buckets by their first field; a round
finds the pairs of a bucket with equal first fields through chained bins, and emits a collision
record for each.

Both rounds are one loop with its own key and its own `make`. `roundReference_eq` says what the loop
emits, `slotPairs_perm` that the slots of the buckets pair up exactly as the inputs do.

Main result: `rounds_complete`.
-/

namespace MoMiner.Equihash

open MoMiner.PackedWords MoMiner.Bins

/-- A bucket geometry: every key has a bucket, and slots fit into parent references. -/
structure Layout where
  bucketCount : ℕ
  bucketSlotCapacity : ℕ
  bucketFor : ℕ → ℕ
  localBin : ℕ → ℕ
  bucketFor_lt : ∀ key < 2 ^ 24, bucketFor key < bucketCount
  arena_le : bucketCount * bucketSlotCapacity ≤ 2 ^ 26

/-! ## Collisions of two records -/

section Make

variable (spec : Spec)

/-- The first collision of two rows. -/
def makeCollision (a b : Words) (aRef bRef : ℕ) : Option Words :=
  if loadLevel0Field spec a 0 ≠ loadLevel0Field spec b 0 then none else
  let aLeaf := loadLevel0Leaf spec a
  let bLeaf := loadLevel0Leaf spec b
  if aLeaf = bLeaf then none else
  let fields := fun i => loadLevel0Field spec a (i + 1) ^^^ loadLevel0Field spec b (i + 1)
  if aLeaf < bLeaf then some (storeCollision spec (spec.rounds - 1) fields aRef bRef)
  else some (storeCollision spec (spec.rounds - 1) fields bRef aRef)

/-- A later collision: two records of the round before with their minimum indices. -/
def makeNextCollision (fieldCount : ℕ) (a b : Words) (aRef bRef aOrder bOrder : ℕ) : Option Words :=
  if loadCollisionField spec fieldCount a 0 ≠ loadCollisionField spec fieldCount b 0 then none else
  if aOrder = bOrder then none else
  let aLeft := loadCollisionLeft spec fieldCount a
  let aRight := loadCollisionRight spec fieldCount a
  let bLeft := loadCollisionLeft spec fieldCount b
  let bRight := loadCollisionRight spec fieldCount b
  if aLeft = bLeft ∨ aLeft = bRight ∨ aRight = bLeft ∨ aRight = bRight then none else
  let fields := fun i =>
    loadCollisionField spec fieldCount a (i + 1) ^^^ loadCollisionField spec fieldCount b (i + 1)
  if aOrder < bOrder then some (storeCollision spec (fieldCount - 1) fields aRef bRef)
  else some (storeCollision spec (fieldCount - 1) fields bRef aRef)

end Make

/-! ## Scattering -/

section Scatter

variable {R : Type} (layout : Layout) (key : R → ℕ)

structure Scatter (R : Type) where
  output : ℕ → R
  bucketCounts : ℕ → ℕ
  overflowCount : ℕ

def scatterStep (s : Scatter R) (r : R) : Scatter R :=
  let bucket := layout.bucketFor (key r)
  let slot := s.bucketCounts bucket
  let bucketCounts := Function.update s.bucketCounts bucket ((slot + 1) % 2 ^ 32)
  if slot < layout.bucketSlotCapacity then
    ⟨Function.update s.output (bucket * layout.bucketSlotCapacity + slot) r, bucketCounts,
      s.overflowCount⟩
  else ⟨s.output, bucketCounts, (s.overflowCount + 1) % 2 ^ 32⟩

def scatterReference (input : ℕ → R) (inputCount : ℕ) (s : Scatter R) : Scatter R :=
  (List.range inputCount).foldl (fun s i => scatterStep layout key s (input i)) s

/-- The newly counted overflow, in 32 bits. -/
def newOverflow (before after : ℕ) : ℕ := (after + 2 ^ 32 - before) % 2 ^ 32

/-- The number that a scatter returns, in 32 bits. -/
def scatterReturned (inputCount before after : ℕ) : ℕ :=
  (inputCount + 2 ^ 32 - newOverflow before after) % 2 ^ 32

end Scatter

def scatterLevel0Reference (spec : Spec) (layout : Layout) : (ℕ → Words) → ℕ → Scatter Words →
    Scatter Words :=
  scatterReference layout fun r => loadLevel0Field spec r 0

/-- Records travel with their minimum indices. -/
def scatterCollisionReference (spec : Spec) (fieldCount : ℕ) (layout : Layout) :
    (ℕ → Words × ℕ) → ℕ → Scatter (Words × ℕ) → Scatter (Words × ℕ) :=
  scatterReference layout fun r => loadCollisionField spec fieldCount r.1 0

/-! ## Rounds -/

section Round

variable {Out : Type} (capacity : ℕ)

structure Emitted (Out : Type) where
  output : ℕ → Out
  emitted : ℕ

/-- Store a record if there is room, and count it in 32 bits. -/
def emit (s : Emitted Out) (r : Out) : Emitted Out where
  output := if s.emitted < capacity then Function.update s.output s.emitted r else s.output
  emitted := (s.emitted + 1) % 2 ^ 32

variable (layout : Layout) (key : ℕ → ℕ) (make : ℕ → ℕ → Option Out)

def visit (base a : ℕ) (s : Emitted Out) (b : ℕ) : Emitted Out :=
  if a ≤ b then s
  else match make (base + a) (base + b) with
    | none => s
    | some r => emit capacity s r

/-- The number of slots of a bucket that are in use. -/
def slotCount (bucketCounts : ℕ → ℕ) (bucket : ℕ) : ℕ :=
  if bucketCounts bucket < layout.bucketSlotCapacity then bucketCounts bucket
  else layout.bucketSlotCapacity

def localBins (base : ℕ) : ℕ → ℕ := fun i => layout.localBin (key (base + i))

/-- A round over all buckets; `none` if a chain does not end. -/
def roundReference (bucketCounts : ℕ → ℕ) (output : ℕ → Out) : Option (Emitted Out) :=
  (List.range layout.bucketCount).foldlM (fun s bucket =>
    let count := slotCount layout bucketCounts bucket
    let base := bucket * layout.bucketSlotCapacity
    let bins := Table.build (localBins layout key base) count
    (List.range count).foldlM (fun s a =>
      (chain bins.next count (bins.head (localBins layout key base a))).map fun visited =>
        visited.foldl (visit capacity make base a) s) s) ⟨output, 0⟩

end Round

def bucketRoundReference (spec : Spec) (layout : Layout) (input : ℕ → Words)
    (bucketCounts : ℕ → ℕ) (output : ℕ → Words) (outputCapacity : ℕ) : Option (Emitted Words) :=
  roundReference outputCapacity layout (fun slot => loadLevel0Field spec (input slot) 0)
    (fun a b => makeCollision spec (input a) (input b) a b) bucketCounts output

def collisionRoundReference (spec : Spec) (fieldCount : ℕ) (layout : Layout)
    (input : ℕ → Words × ℕ) (bucketCounts : ℕ → ℕ) (output : ℕ → Words × ℕ)
    (outputCapacity : ℕ) : Option (Emitted (Words × ℕ)) :=
  let key := fun slot => loadCollisionField spec fieldCount (input slot).1 0
  roundReference outputCapacity layout key
    (fun a b => if key b ≠ key a then none else
      (makeNextCollision spec fieldCount (input a).1 (input b).1 a b (input a).2 (input b).2).map
        fun record => (record, if (input a).2 < (input b).2 then (input a).2 else (input b).2))
    bucketCounts output

/-! ## What a round emits -/

section Emissions

variable {Out : Type} {capacity : ℕ} {layout : Layout} {key : ℕ → ℕ} {make : ℕ → ℕ → Option Out}
  {bucketCounts : ℕ → ℕ} {output : ℕ → Out}

/-- The records of a round, in the order in which they are emitted. -/
def emissions (layout : Layout) (key : ℕ → ℕ) (make : ℕ → ℕ → Option Out)
    (bucketCounts : ℕ → ℕ) : List Out :=
  (List.range layout.bucketCount).flatMap fun bucket =>
    let count := slotCount layout bucketCounts bucket
    let base := bucket * layout.bucketSlotCapacity
    (List.range count).flatMap fun a =>
      (members (localBins layout key base) count (localBins layout key base a)).filterMap
        fun b => if a ≤ b then none else make (base + a) (base + b)

theorem foldl_visit {base a : ℕ} {s : Emitted Out} (visited : List ℕ) :
    visited.foldl (visit capacity make base a) s =
      (visited.filterMap fun b => if a ≤ b then none else make (base + a) (base + b)).foldl
        (emit capacity) s := by
  rw [List.foldl_filterMap]
  congr 1
  funext s b
  rw [visit]
  by_cases h : a ≤ b
  · rw [if_pos h, if_pos h]
  · rw [if_neg h, if_neg h]
    cases make (base + a) (base + b) with
    | none => rfl
    | some r => rfl

/-- **The loop of a round emits its records one after the other**, and its chains end. -/
theorem roundReference_eq : roundReference capacity layout key make bucketCounts output =
    some ((emissions layout key make bucketCounts).foldl (emit capacity) ⟨output, 0⟩) := by
  simp only [roundReference, chain_build, Option.map_some, emissions, List.foldl_flatMap,
    ← foldl_visit]
  refine (congrFun (congrArg (List.foldlM · _) ?_) _).trans List.foldlM_pure
  funext s bucket
  exact List.foldlM_pure

theorem foldl_emit_emitted (records : List Out) (s : Emitted Out) (hs : s.emitted < 2 ^ 32) :
    (records.foldl (emit capacity) s).emitted = (s.emitted + records.length) % 2 ^ 32 := by
  induction records generalizing s with
  | nil => exact (Nat.mod_eq_of_lt hs).symm
  | cons r records ih =>
    rw [List.foldl_cons, ih _ (Nat.mod_lt _ (by decide)), emit, List.length_cons, Nat.mod_add_mod]
    congr 1
    omega

/-- As long as the count does not wrap, the records that fit are stored in order. -/
theorem foldl_emit_output (records : List Out) (hlen : records.length < 2 ^ 32) {k : ℕ}
    (hk : k < records.length) (hcap : k < capacity) :
    (records.foldl (emit capacity) ⟨output, 0⟩).output k = records[k] := by
  induction records using List.reverseRecOn with
  | nil => exact absurd hk (Nat.not_lt_zero k)
  | append_singleton records r ih =>
    rw [List.length_append, List.length_singleton] at hlen hk
    have hcount : (records.foldl (emit capacity) ⟨output, 0⟩).emitted = records.length := by
      rw [foldl_emit_emitted _ _ (Nat.two_pow_pos 32), Nat.zero_add, Nat.mod_eq_of_lt (by omega)]
    rw [List.foldl_append, List.foldl_cons, List.foldl_nil, emit, hcount]
    dsimp only
    rcases Nat.lt_succ_iff_lt_or_eq.mp hk with hk | rfl
    · rw [List.getElem_append_left hk, ← ih (by omega) hk]
      split_ifs
      · exact Function.update_of_ne hk.ne _ _
      · rfl
    · rw [if_pos hcap, Function.update_self, List.getElem_append_right le_rfl]
      simp

/-- The pairs of slots in use, bucket by bucket. -/
def slotPairs (layout : Layout) (bucketCounts : ℕ → ℕ) : List (ℕ × ℕ) :=
  (List.range layout.bucketCount).flatMap fun bucket =>
    (pairsBelow (slotCount layout bucketCounts bucket)).map fun p =>
      (bucket * layout.bucketSlotCapacity + p.1, bucket * layout.bucketSlotCapacity + p.2)

/-- If only equal keys collide, the bins do not matter. -/
theorem emissions_perm (hkey : ∀ x y, key x ≠ key y → make x y = none) :
    List.Perm (emissions layout key make bucketCounts)
      ((slotPairs layout bucketCounts).filterMap fun p => make p.1 p.2) := by
  rw [slotPairs, List.filterMap_flatMap, emissions]
  refine List.Perm.flatMap_left _ fun bucket _ => ?_
  rw [List.filterMap_map, pairsBelow, List.filterMap_flatMap]
  refine List.Perm.flatMap_left _ fun a ha => ?_
  rw [List.filterMap_map]
  refine members_filterMap_perm (List.mem_range.mp ha) fun b hb => hkey _ _ fun heq => hb ?_
  rw [localBins, localBins, heq]

end Emissions

/-! ## Where the inputs are -/

section Slots

variable {R : Type} (layout : Layout) (key : R → ℕ) (input : ℕ → R)

/-- The number of inputs below `n` in a bucket. -/
def bucketSize (n bucket : ℕ) : ℕ :=
  (List.range n).countP fun j => layout.bucketFor (key (input j)) = bucket

/-- The number of earlier inputs in an input's bucket. -/
def rank (i : ℕ) : ℕ := bucketSize layout key input i (layout.bucketFor (key (input i)))

/-- The slot of an input. -/
def slotOf (i : ℕ) : ℕ :=
  layout.bucketFor (key (input i)) * layout.bucketSlotCapacity + rank layout key input i

/-- The inputs below `n` beyond their bucket's capacity. -/
def beyond (n : ℕ) : ℕ :=
  (List.range n).countP fun i => layout.bucketSlotCapacity ≤ rank layout key input i

variable {layout key input}

theorem bucketSize_succ (n bucket : ℕ) : bucketSize layout key input (n + 1) bucket =
    bucketSize layout key input n bucket +
      if layout.bucketFor (key (input n)) = bucket then 1 else 0 := by
  simp [bucketSize, List.range_succ]

theorem bucketSize_mono {n m bucket : ℕ} (h : n ≤ m) :
    bucketSize layout key input n bucket ≤ bucketSize layout key input m bucket := by
  induction m, h using Nat.le_induction with
  | base => exact le_rfl
  | succ m _ ih =>
    rw [bucketSize_succ]
    omega

theorem bucketSize_le (n bucket : ℕ) : bucketSize layout key input n bucket ≤ n :=
  List.countP_le_length.trans (by rw [List.length_range])

theorem rank_lt_bucketSize {n i : ℕ} (hi : i < n) : rank layout key input i <
    bucketSize layout key input n (layout.bucketFor (key (input i))) := by
  refine Nat.lt_of_lt_of_le ?_ (bucketSize_mono (Nat.succ_le_of_lt hi))
  rw [Nat.succ_eq_add_one, bucketSize_succ, if_pos rfl]
  exact Nat.lt_succ_self _

/-- Within a bucket, ranks follow the order of the inputs. -/
theorem rank_lt_rank {i j : ℕ} (hij : i < j)
    (hbucket : layout.bucketFor (key (input i)) = layout.bucketFor (key (input j))) :
    rank layout key input i < rank layout key input j := by
  have h : rank layout key input i <
      bucketSize layout key input j (layout.bucketFor (key (input i))) := rank_lt_bucketSize hij
  rwa [hbucket] at h

/-- Every number below the size of a bucket is the rank of one of its inputs. -/
theorem exists_rank {n bucket a : ℕ} (ha : a < bucketSize layout key input n bucket) :
    ∃ i < n, layout.bucketFor (key (input i)) = bucket ∧ rank layout key input i = a := by
  induction n with
  | zero => exact absurd ha (Nat.not_lt_zero a)
  | succ n ih =>
    by_cases hlt : a < bucketSize layout key input n bucket
    · obtain ⟨i, hi, h⟩ := ih hlt
      exact ⟨i, Nat.lt_succ_of_lt hi, h⟩
    · rw [bucketSize_succ] at ha
      split_ifs at ha with hbucket
      · refine ⟨n, Nat.lt_succ_self n, hbucket, ?_⟩
        rw [rank, hbucket]
        omega
      · exact absurd ha (by omega)

theorem slotOf_injective {i j : ℕ} (hi : rank layout key input i < layout.bucketSlotCapacity)
    (hj : rank layout key input j < layout.bucketSlotCapacity)
    (h : slotOf layout key input i = slotOf layout key input j) : i = j := by
  rw [slotOf, slotOf, Nat.mul_comm, Nat.mul_comm (layout.bucketFor (key (input j)))] at h
  have hbucket : layout.bucketFor (key (input i)) = layout.bucketFor (key (input j)) := by
    have hdiv := congrArg (· / layout.bucketSlotCapacity) h
    rwa [Nat.mul_add_div (by omega), Nat.mul_add_div (by omega), Nat.div_eq_of_lt hi,
      Nat.div_eq_of_lt hj, Nat.add_zero, Nat.add_zero] at hdiv
  have hrank : rank layout key input i = rank layout key input j := by
    rw [hbucket] at h
    omega
  rcases lt_trichotomy i j with hij | hij | hij
  · exact absurd hrank (rank_lt_rank hij hbucket).ne
  · exact hij
  · exact absurd hrank (rank_lt_rank hij hbucket.symm).ne'

/-- The state of a scatter after `n` inputs. -/
structure Scattered (layout : Layout) (key : R → ℕ) (input : ℕ → R) (before n : ℕ)
    (s : Scatter R) : Prop where
  counts : ∀ bucket, s.bucketCounts bucket = bucketSize layout key input n bucket
  overflow : s.overflowCount = (before + beyond layout key input n) % 2 ^ 32
  output : ∀ i < n, rank layout key input i < layout.bucketSlotCapacity →
    s.output (slotOf layout key input i) = input i

theorem Scattered.step {before n : ℕ} {s : Scatter R} (hn : n + 1 < 2 ^ 32)
    (h : Scattered layout key input before n s) :
    Scattered layout key input before (n + 1) (scatterStep layout key s (input n)) := by
  have hslot : s.bucketCounts (layout.bucketFor (key (input n))) = rank layout key input n :=
    h.counts _
  have hsmall : (rank layout key input n + 1) % 2 ^ 32 = rank layout key input n + 1 := by
    have hle : rank layout key input n ≤ n := bucketSize_le n _
    exact Nat.mod_eq_of_lt (by omega)
  have hcounts : ∀ bucket, Function.update s.bucketCounts (layout.bucketFor (key (input n)))
      (rank layout key input n + 1) bucket = bucketSize layout key input (n + 1) bucket := by
    intro bucket
    rw [bucketSize_succ]
    by_cases hb : layout.bucketFor (key (input n)) = bucket
    · subst hb
      rw [Function.update_self, if_pos rfl]
      rfl
    · rw [Function.update_of_ne (Ne.symm hb), if_neg hb, h.counts, Nat.add_zero]
  have hbeyond : beyond layout key input (n + 1) = beyond layout key input n +
      if layout.bucketSlotCapacity ≤ rank layout key input n then 1 else 0 := by
    simp [beyond, List.range_succ]
  rw [scatterStep, hslot, hsmall]
  by_cases hfits : rank layout key input n < layout.bucketSlotCapacity
  · rw [if_pos hfits]
    refine ⟨hcounts, ?_, fun i hi hrank => ?_⟩
    · rw [hbeyond, if_neg (Nat.not_le.mpr hfits), Nat.add_zero]
      exact h.overflow
    · change Function.update s.output (slotOf layout key input n) (input n) _ = _
      rcases Nat.lt_succ_iff_lt_or_eq.mp hi with hi | rfl
      · rw [Function.update_of_ne fun heq => hi.ne (slotOf_injective hrank hfits heq)]
        exact h.output i hi hrank
      · exact Function.update_self _ _ _
  · rw [if_neg hfits]
    refine ⟨hcounts, ?_, fun i hi hrank => ?_⟩
    · rw [hbeyond, if_pos (Nat.not_lt.mp hfits), h.overflow, Nat.mod_add_mod, Nat.add_assoc]
    · rcases Nat.lt_succ_iff_lt_or_eq.mp hi with hi | rfl
      · exact h.output i hi hrank
      · exact absurd hrank hfits

/-- **A scatter from zero counts.** -/
theorem scattered_scatterReference {n : ℕ} (hn : n < 2 ^ 32) (output : ℕ → R) {before : ℕ}
    (hbefore : before < 2 ^ 32) : Scattered layout key input before n
      (scatterReference layout key input n ⟨output, fun _ => 0, before⟩) := by
  induction n with
  | zero =>
    exact ⟨fun _ => rfl, (Nat.mod_eq_of_lt hbefore).symm, fun i hi => absurd hi (Nat.not_lt_zero i)⟩
  | succ n ih =>
    have hstep : scatterReference layout key input (n + 1) ⟨output, fun _ => 0, before⟩ =
        scatterStep layout key (scatterReference layout key input n ⟨output, fun _ => 0, before⟩)
          (input n) := by
      simp [scatterReference, List.range_succ]
    rw [hstep]
    exact (ih (by omega)).step hn

theorem rank_lt_of_beyond_eq_zero {n : ℕ} (h : beyond layout key input n = 0) {i : ℕ} (hi : i < n) :
    rank layout key input i < layout.bucketSlotCapacity := by
  have hall := List.countP_eq_zero.mp h i (List.mem_range.mpr hi)
  simpa using hall

theorem slotCount_eq {n : ℕ} (hfits : ∀ i < n, rank layout key input i < layout.bucketSlotCapacity)
    {bucketCounts : ℕ → ℕ}
    (hcounts : ∀ bucket, bucketCounts bucket = bucketSize layout key input n bucket) (bucket : ℕ) :
    slotCount layout bucketCounts bucket = bucketSize layout key input n bucket := by
  have hle : bucketSize layout key input n bucket ≤ layout.bucketSlotCapacity := by
    by_contra hlt
    obtain ⟨i, hi, -, hrank⟩ := exists_rank (Nat.not_le.mp hlt)
    exact absurd (hfits i hi) (by omega)
  rw [slotCount, hcounts]
  split_ifs <;> omega

theorem nodup_slotPairs (bucketCounts : ℕ → ℕ) : (slotPairs layout bucketCounts).Nodup := by
  have hcount : ∀ bucket, slotCount layout bucketCounts bucket ≤ layout.bucketSlotCapacity := by
    intro bucket
    rw [slotCount]
    split_ifs <;> omega
  refine List.nodup_flatMap.mpr ⟨fun bucket _ => ?_, ?_⟩
  · refine (nodup_pairsBelow _).map fun p q h => ?_
    obtain ⟨h₁, h₂⟩ := Prod.mk.inj h
    exact Prod.ext (by omega) (by omega)
  · refine List.nodup_range.imp fun {bucket bucket'} hne x hx hx' => hne ?_
    obtain ⟨p, hp, rfl⟩ := List.mem_map.mp hx
    obtain ⟨q, hq, h⟩ := List.mem_map.mp hx'
    have hp' := (mem_pairsBelow.mp hp).1.trans_le (hcount bucket)
    have hq' := (mem_pairsBelow.mp hq).1.trans_le (hcount bucket')
    have hdiv := congrArg (· / layout.bucketSlotCapacity) (Prod.mk.inj h).1
    rw [Nat.mul_comm, Nat.mul_comm bucket, Nat.mul_add_div (by omega), Nat.mul_add_div (by omega),
      Nat.div_eq_of_lt hp', Nat.div_eq_of_lt hq'] at hdiv
    omega

/-- **Slots pair up as inputs do.** If no bucket overflows, the pairs of slots of a bucket are those
of the inputs of one bucket. -/
theorem slotPairs_perm {n : ℕ} (hkey : ∀ r, key r < 2 ^ 24)
    (hfits : ∀ i < n, rank layout key input i < layout.bucketSlotCapacity) {bucketCounts : ℕ → ℕ}
    (hcounts : ∀ bucket, bucketCounts bucket = bucketSize layout key input n bucket) :
    List.Perm (slotPairs layout bucketCounts)
      (((pairsBelow n).filter fun p =>
        layout.bucketFor (key (input p.1)) = layout.bucketFor (key (input p.2))).map fun p =>
          (slotOf layout key input p.1, slotOf layout key input p.2)) := by
  refine (List.perm_ext_iff_of_nodup (nodup_slotPairs _) ?_).mpr fun x => ?_
  · refine ((nodup_pairsBelow n).filter _).map_on fun p hp q hq h => ?_
    obtain ⟨hp₁, hp₂⟩ := mem_pairsBelow.mp (List.mem_filter.mp hp).1
    obtain ⟨hq₁, hq₂⟩ := mem_pairsBelow.mp (List.mem_filter.mp hq).1
    obtain ⟨h₁, h₂⟩ := Prod.mk.inj h
    exact Prod.ext (slotOf_injective (hfits _ hp₁) (hfits _ hq₁) h₁)
      (slotOf_injective (hfits _ (by omega)) (hfits _ (by omega)) h₂)
  · simp only [slotPairs, List.mem_flatMap, List.mem_map, List.mem_range, List.mem_filter,
      mem_pairsBelow, slotCount_eq hfits hcounts, decide_eq_true_eq]
    constructor
    · rintro ⟨bucket, hbucket, p, ⟨ha, hb⟩, rfl⟩
      obtain ⟨j, hj, hjbucket, hjrank⟩ := exists_rank ha
      obtain ⟨i, hi, hibucket, hirank⟩ := exists_rank (hb.trans ha)
      have hij : i < j := by
        by_contra hge
        rcases (Nat.not_lt.mp hge).lt_or_eq with hlt | rfl
        · have := rank_lt_rank hlt (hjbucket.trans hibucket.symm)
          omega
        · omega
      refine ⟨(j, i), ⟨⟨hj, hij⟩, hjbucket.trans hibucket.symm⟩, ?_⟩
      rw [slotOf, slotOf, hjbucket, hibucket, hjrank, hirank]
    · rintro ⟨p, ⟨⟨hj, hij⟩, hbucket⟩, rfl⟩
      refine ⟨layout.bucketFor (key (input p.1)), layout.bucketFor_lt _ (hkey _),
        (rank layout key input p.1, rank layout key input p.2),
        ⟨rank_lt_bucketSize hj, rank_lt_rank hij hbucket.symm⟩, ?_⟩
      rw [slotOf, slotOf, ← hbucket]

/-- **A round pairs up its inputs.** After a scatter without overflow, the records of a round are
those of the pairs of inputs. -/
theorem emissions_perm_inputs {Out : Type} {make : ℕ → ℕ → Option Out} {n before : ℕ} {s : Scatter R}
    (h : Scattered layout key input before n s) (hkey : ∀ r, key r < 2 ^ 24)
    (hfits : ∀ i < n, rank layout key input i < layout.bucketSlotCapacity)
    (hmake : ∀ x y, key (s.output x) ≠ key (s.output y) → make x y = none) :
    List.Perm (emissions layout (fun slot => key (s.output slot)) make s.bucketCounts)
      ((pairsBelow n).filterMap fun p =>
        make (slotOf layout key input p.1) (slotOf layout key input p.2)) := by
  refine (emissions_perm hmake).trans (((slotPairs_perm hkey hfits h.counts).filterMap _).trans ?_)
  rw [List.filterMap_map, List.filterMap_filter]
  refine List.Perm.of_eq (List.filterMap_congr fun p hp => ?_)
  obtain ⟨hj, hij⟩ := mem_pairsBelow.mp hp
  by_cases hbucket : layout.bucketFor (key (input p.1)) = layout.bucketFor (key (input p.2))
  · rw [if_pos (decide_eq_true hbucket)]
    rfl
  · rw [if_neg (by simpa using hbucket)]
    refine (hmake _ _ fun heq => hbucket ?_).symm
    rw [h.output _ hj (hfits _ hj), h.output _ (by omega) (hfits _ (by omega))] at heq
    rw [heq]

/-- The numbers that a scatter reports. -/
theorem scatter_counts {n before : ℕ} {s : Scatter R} (hn : n < 2 ^ 32) (hbefore : before < 2 ^ 32)
    (h : Scattered layout key input before n s) :
    newOverflow before s.overflowCount = beyond layout key input n ∧
      scatterReturned n before s.overflowCount + newOverflow before s.overflowCount = n := by
  have hle : beyond layout key input n ≤ n :=
    List.countP_le_length.trans (by rw [List.length_range])
  have hnew : newOverflow before s.overflowCount = beyond layout key input n := by
    rw [newOverflow, h.overflow]
    omega
  rw [scatterReturned, hnew]
  omega

end Slots

/-! ## The records -/

/-- A round gives out a list of records: it emits each of them once, in some order, counts them in
32 bits, and stores as many as there is room for, as long as the count does not wrap. -/
def Gives {Out : Type} (capacity : ℕ) (result : Option (Emitted Out)) (records : List Out) : Prop :=
  ∃ emitted : List Out, List.Perm emitted records ∧ ∃ r, result = some r ∧
    r.emitted = records.length % 2 ^ 32 ∧
    (records.length < 2 ^ 32 →
      ∀ k (_ : k < emitted.length), k < capacity → r.output k = emitted[k])

/-- What a collision record says: its fields and its parents. -/
structure IsCollision (spec : Spec) (fieldCount : ℕ) (fields : ℕ → ℕ) (left right : ℕ)
    (record : Words) : Prop where
  fields : ∀ field < fieldCount, loadCollisionField spec fieldCount record field = fields field
  left : loadCollisionLeft spec fieldCount record = left
  right : loadCollisionRight spec fieldCount record = right

section Records

variable {spec : Spec} {fieldCount : ℕ}

theorem isCollision_storeCollision {fields : ℕ → ℕ} {left right : ℕ}
    (hfields : ∀ field, fields field < 2 ^ 24) (hleft : left < 2 ^ 26) (hright : right < 2 ^ 26) :
    IsCollision spec fieldCount fields left right
      (storeCollision spec fieldCount fields left right) := by
  have hbits : 2 ^ 26 ≤ 2 ^ spec.parentRefBits :=
    Nat.pow_le_pow_right (by decide) spec.le_parentRefBits
  refine ⟨fun field hfield => ?_, ?_, ?_⟩
  · rw [loadCollisionField_store hfield, spec.collisionBits_eq, Nat.mod_eq_of_lt (hfields field)]
  · rw [loadCollisionLeft_store, Nat.mod_eq_of_lt (hleft.trans_le hbits)]
  · rw [loadCollisionRight_store, Nat.mod_eq_of_lt (hright.trans_le hbits)]

theorem loadLevel0Field_lt (record : Words) (field : ℕ) :
    loadLevel0Field spec record field < 2 ^ 24 := spec.collisionBits_eq ▸ packedLoad_lt

theorem loadCollisionField_lt (record : Words) (field : ℕ) :
    loadCollisionField spec fieldCount record field < 2 ^ 24 := spec.collisionBits_eq ▸ packedLoad_lt

theorem gives_of_perm {Out : Type} {capacity : ℕ} {layout : Layout} {key : ℕ → ℕ}
    {make : ℕ → ℕ → Option Out} {bucketCounts : ℕ → ℕ} {output : ℕ → Out} {records : List Out}
    (h : List.Perm (emissions layout key make bucketCounts) records) :
    Gives capacity (roundReference capacity layout key make bucketCounts output) records := by
  refine ⟨_, h, _, roundReference_eq, ?_, fun hlen k hk hcap => ?_⟩
  · rw [foldl_emit_emitted _ _ (Nat.two_pow_pos 32), Nat.zero_add, h.length_eq]
  · exact foldl_emit_output _ (h.length_eq ▸ hlen) hk hcap

/-- Two rows collide. -/
def Collide (spec : Spec) (a b : Words) : Prop :=
  loadLevel0Field spec a 0 = loadLevel0Field spec b 0 ∧
    loadLevel0Leaf spec a ≠ loadLevel0Leaf spec b

instance (spec : Spec) (a b : Words) : Decidable (Collide spec a b) := by
  unfold Collide
  infer_instance

/-- The record of two rows, the smaller leaf first. -/
def collisionOf (spec : Spec) (a b : Words) (aRef bRef : ℕ) : Words :=
  let fields := fun i => loadLevel0Field spec a (i + 1) ^^^ loadLevel0Field spec b (i + 1)
  if loadLevel0Leaf spec a < loadLevel0Leaf spec b then
    storeCollision spec (spec.rounds - 1) fields aRef bRef
  else storeCollision spec (spec.rounds - 1) fields bRef aRef

theorem makeCollision_eq (a b : Words) (aRef bRef : ℕ) : makeCollision spec a b aRef bRef =
    if Collide spec a b then some (collisionOf spec a b aRef bRef) else none := by
  by_cases h : Collide spec a b
  · rw [if_pos h, makeCollision, if_neg (not_not.mpr h.1), if_neg h.2, collisionOf]
    split_ifs <;> rfl
  · rw [if_neg h, makeCollision]
    by_cases hfield : loadLevel0Field spec a 0 = loadLevel0Field spec b 0
    · rw [if_neg (not_not.mpr hfield), if_pos (not_not.mp fun hleaf => h ⟨hfield, hleaf⟩)]
    · rw [if_pos hfield]

/-- Two records of a later round collide. -/
def CollideNext (spec : Spec) (fieldCount : ℕ) (a b : Words × ℕ) : Prop :=
  loadCollisionField spec fieldCount a.1 0 = loadCollisionField spec fieldCount b.1 0 ∧
    a.2 ≠ b.2 ∧
    ¬ (loadCollisionLeft spec fieldCount a.1 = loadCollisionLeft spec fieldCount b.1 ∨
      loadCollisionLeft spec fieldCount a.1 = loadCollisionRight spec fieldCount b.1 ∨
      loadCollisionRight spec fieldCount a.1 = loadCollisionLeft spec fieldCount b.1 ∨
      loadCollisionRight spec fieldCount a.1 = loadCollisionRight spec fieldCount b.1)

instance (spec : Spec) (fieldCount : ℕ) (a b : Words × ℕ) :
    Decidable (CollideNext spec fieldCount a b) := by
  unfold CollideNext
  infer_instance

/-- The record of two records of the round before, the smaller minimum index first and kept. -/
def nextCollisionOf (spec : Spec) (fieldCount : ℕ) (a b : Words × ℕ) (aRef bRef : ℕ) : Words × ℕ :=
  let fields := fun i =>
    loadCollisionField spec fieldCount a.1 (i + 1) ^^^ loadCollisionField spec fieldCount b.1 (i + 1)
  if a.2 < b.2 then (storeCollision spec (fieldCount - 1) fields aRef bRef, a.2)
  else (storeCollision spec (fieldCount - 1) fields bRef aRef, b.2)

theorem makeNextCollision_eq (a b : Words × ℕ) (aRef bRef : ℕ) :
    (makeNextCollision spec fieldCount a.1 b.1 aRef bRef a.2 b.2).map
        (fun record => (record, if a.2 < b.2 then a.2 else b.2)) =
      if CollideNext spec fieldCount a b then some (nextCollisionOf spec fieldCount a b aRef bRef)
      else none := by
  by_cases h : CollideNext spec fieldCount a b
  · rw [if_pos h, makeNextCollision, if_neg (not_not.mpr h.1), if_neg h.2.1, if_neg h.2.2,
      nextCollisionOf]
    split_ifs <;> rfl
  · rw [if_neg h, makeNextCollision]
    by_cases hfield : loadCollisionField spec fieldCount a.1 0 =
        loadCollisionField spec fieldCount b.1 0
    · rw [if_neg (not_not.mpr hfield)]
      by_cases horder : a.2 = b.2
      · rw [if_pos horder]
        rfl
      · rw [if_neg horder, if_pos (not_not.mp fun hparents => h ⟨hfield, horder, hparents⟩)]
        rfl
    · rw [if_pos hfield]
      rfl

theorem filterMap_ite {α β : Type} (l : List α) (p : α → Prop) [DecidablePred p] (f : α → β) :
    (l.filterMap fun a => if p a then some (f a) else none) = (l.filter fun a => p a).map f := by
  rw [← List.filterMap_eq_map, List.filterMap_filter]
  simp

theorem slotOf_lt {R : Type} {layout : Layout} {key : R → ℕ} {input : ℕ → R} {i : ℕ}
    (hkey : ∀ r, key r < 2 ^ 24) (hrank : rank layout key input i < layout.bucketSlotCapacity) :
    slotOf layout key input i < 2 ^ 26 := by
  refine Nat.lt_of_lt_of_le ?_ layout.arena_le
  have hbucket := Nat.mul_le_mul_right layout.bucketSlotCapacity
    (Nat.succ_le_of_lt (layout.bucketFor_lt _ (hkey (input i))))
  rw [Nat.succ_mul] at hbucket
  rw [slotOf]
  omega

end Records

/-! ## Completeness -/

section Complete

variable (spec : Spec) (fieldCount : ℕ) (layout : Layout)

def level0Slot (input : ℕ → Words) : ℕ → ℕ := slotOf layout (fun r => loadLevel0Field spec r 0) input

def nextSlot (input : ℕ → Words × ℕ) : ℕ → ℕ :=
  slotOf layout (fun r => loadCollisionField spec fieldCount r.1 0) input

/-- The records of the first round: one for each pair of colliding inputs. -/
def level0Records (input : ℕ → Words) (n : ℕ) : List Words :=
  ((pairsBelow n).filter fun p => Collide spec (input p.1) (input p.2)).map fun p =>
    collisionOf spec (input p.1) (input p.2) (level0Slot spec layout input p.1)
      (level0Slot spec layout input p.2)

/-- The records of a later round. -/
def nextRecords (input : ℕ → Words × ℕ) (n : ℕ) : List (Words × ℕ) :=
  ((pairsBelow n).filter fun p => CollideNext spec fieldCount (input p.1) (input p.2)).map fun p =>
    nextCollisionOf spec fieldCount (input p.1) (input p.2)
      (nextSlot spec fieldCount layout input p.1) (nextSlot spec fieldCount layout input p.2)

variable {spec fieldCount layout}

theorem level0_gives {input : ℕ → Words} {n before capacity : ℕ} {s : Scatter Words}
    (output : ℕ → Words)
    (h : Scattered layout (fun r => loadLevel0Field spec r 0) input before n s)
    (hzero : beyond layout (fun r => loadLevel0Field spec r 0) input n = 0) :
    Gives capacity (bucketRoundReference spec layout s.output s.bucketCounts output capacity)
      (level0Records spec layout input n) := by
  have hfits : ∀ i < n, rank layout (fun r => loadLevel0Field spec r 0) input i <
      layout.bucketSlotCapacity := fun i hi => rank_lt_of_beyond_eq_zero hzero hi
  refine gives_of_perm ((emissions_perm_inputs h (fun r => loadLevel0Field_lt r 0) hfits ?_).trans
    (List.Perm.of_eq ?_))
  · intro x y hne
    rw [makeCollision_eq, if_neg fun hcollide => hne hcollide.1]
  · rw [level0Records, ← filterMap_ite]
    refine List.filterMap_congr fun p hp => ?_
    obtain ⟨hj, hij⟩ := mem_pairsBelow.mp hp
    rw [makeCollision_eq, h.output _ hj (hfits _ hj),
      h.output _ (by omega) (hfits _ (by omega))]
    rfl

theorem next_gives {input : ℕ → Words × ℕ} {n before capacity : ℕ} {s : Scatter (Words × ℕ)}
    (output : ℕ → Words × ℕ)
    (h : Scattered layout (fun r => loadCollisionField spec fieldCount r.1 0) input before n s)
    (hzero : beyond layout (fun r => loadCollisionField spec fieldCount r.1 0) input n = 0) :
    Gives capacity
      (collisionRoundReference spec fieldCount layout s.output s.bucketCounts output capacity)
      (nextRecords spec fieldCount layout input n) := by
  have hfits : ∀ i < n, rank layout (fun r => loadCollisionField spec fieldCount r.1 0) input i <
      layout.bucketSlotCapacity := fun i hi => rank_lt_of_beyond_eq_zero hzero hi
  refine gives_of_perm ((emissions_perm_inputs h (fun r => loadCollisionField_lt r.1 0) hfits ?_).trans
    (List.Perm.of_eq ?_))
  · intro x y hne
    exact if_pos (Ne.symm hne)
  · rw [nextRecords, ← filterMap_ite]
    refine List.filterMap_congr fun p hp => ?_
    obtain ⟨hj, hij⟩ := mem_pairsBelow.mp hp
    beta_reduce
    rw [makeNextCollision_eq, h.output _ hj (hfits _ hj),
      h.output _ (by omega) (hfits _ (by omega))]
    by_cases hcollide : CollideNext spec fieldCount (input p.1) (input p.2)
    · rw [if_neg (not_not.mpr hcollide.1.symm)]
      rfl
    · rw [if_neg hcollide, ite_self, if_neg hcollide]

/-- What the records of the first round say: the remaining fields are combined, and the parents are
the slots of the two inputs, that of the smaller leaf first. -/
def Level0Collision (spec : Spec) (layout : Layout) (input : ℕ → Words) (i j : ℕ)
    (record : Words) : Prop :=
  let small := if loadLevel0Leaf spec (input i) < loadLevel0Leaf spec (input j) then i else j
  let large := if loadLevel0Leaf spec (input i) < loadLevel0Leaf spec (input j) then j else i
  IsCollision spec (spec.rounds - 1)
    (fun f => loadLevel0Field spec (input i) (f + 1) ^^^ loadLevel0Field spec (input j) (f + 1))
    (level0Slot spec layout input small) (level0Slot spec layout input large) record

theorem level0Collision_collisionOf {input : ℕ → Words} {i j : ℕ}
    (hi : rank layout (fun r => loadLevel0Field spec r 0) input i < layout.bucketSlotCapacity)
    (hj : rank layout (fun r => loadLevel0Field spec r 0) input j < layout.bucketSlotCapacity) :
    Level0Collision spec layout input i j
      (collisionOf spec (input i) (input j) (level0Slot spec layout input i)
        (level0Slot spec layout input j)) := by
  have hfields : ∀ f, loadLevel0Field spec (input i) (f + 1) ^^^
      loadLevel0Field spec (input j) (f + 1) < 2 ^ 24 := fun f =>
    Nat.xor_lt_two_pow (loadLevel0Field_lt _ _) (loadLevel0Field_lt _ _)
  have hislot := slotOf_lt (fun r => loadLevel0Field_lt r 0) hi
  have hjslot := slotOf_lt (fun r => loadLevel0Field_lt r 0) hj
  simp only [Level0Collision, collisionOf]
  split_ifs
  · exact isCollision_storeCollision hfields hislot hjslot
  · exact isCollision_storeCollision hfields hjslot hislot

/-- What the records of a later round say, with the minimum index that is kept. -/
def NextCollision (spec : Spec) (fieldCount : ℕ) (layout : Layout) (input : ℕ → Words × ℕ) (i j : ℕ)
    (record : Words × ℕ) : Prop :=
  let small := if (input i).2 < (input j).2 then i else j
  let large := if (input i).2 < (input j).2 then j else i
  IsCollision spec (fieldCount - 1)
    (fun f => loadCollisionField spec fieldCount (input i).1 (f + 1) ^^^
      loadCollisionField spec fieldCount (input j).1 (f + 1))
    (nextSlot spec fieldCount layout input small) (nextSlot spec fieldCount layout input large)
    record.1 ∧
  record.2 = (input small).2

theorem nextCollision_nextCollisionOf {input : ℕ → Words × ℕ} {i j : ℕ}
    (hi : rank layout (fun r => loadCollisionField spec fieldCount r.1 0) input i <
      layout.bucketSlotCapacity)
    (hj : rank layout (fun r => loadCollisionField spec fieldCount r.1 0) input j <
      layout.bucketSlotCapacity) :
    NextCollision spec fieldCount layout input i j
      (nextCollisionOf spec fieldCount (input i) (input j)
        (nextSlot spec fieldCount layout input i) (nextSlot spec fieldCount layout input j)) := by
  have hfields : ∀ f, loadCollisionField spec fieldCount (input i).1 (f + 1) ^^^
      loadCollisionField spec fieldCount (input j).1 (f + 1) < 2 ^ 24 := fun f =>
    Nat.xor_lt_two_pow (loadCollisionField_lt _ _) (loadCollisionField_lt _ _)
  have hkey : ∀ r : Words × ℕ, loadCollisionField spec fieldCount r.1 0 < 2 ^ 24 := fun r =>
    loadCollisionField_lt r.1 0
  have hislot := slotOf_lt hkey hi
  have hjslot := slotOf_lt hkey hj
  by_cases h : (input i).2 < (input j).2
  · rw [NextCollision, nextCollisionOf, if_pos h, if_pos h, if_pos h]
    exact ⟨isCollision_storeCollision hfields hislot hjslot, rfl⟩
  · rw [NextCollision, nextCollisionOf, if_neg h, if_neg h, if_neg h]
    exact ⟨isCollision_storeCollision hfields hjslot hislot, rfl⟩

end Complete

/-- **Rounds lose and duplicate nothing.** A scatter from zero counts reports the inputs beyond their
bucket's capacity as overflow and the others as stored. If there is no overflow, the round after it
emits one record for each pair of colliding inputs and no other, and returns their number in 32 bits
whatever its capacity. -/
theorem rounds_complete (spec : Spec) (layout : Layout) :
    (∀ (input arena output : ℕ → Words) (n before capacity : ℕ), n < 2 ^ 32 → before < 2 ^ 32 →
      let s := scatterLevel0Reference spec layout input n ⟨arena, fun _ => 0, before⟩
      let overflow := newOverflow before s.overflowCount
      scatterReturned n before s.overflowCount + overflow = n ∧
      overflow = beyond layout (fun r => loadLevel0Field spec r 0) input n ∧
      (overflow = 0 →
        Gives capacity (bucketRoundReference spec layout s.output s.bucketCounts output capacity)
          (level0Records spec layout input n) ∧
        ∀ i < n, ∀ j < n, Level0Collision spec layout input i j
          (collisionOf spec (input i) (input j) (level0Slot spec layout input i)
            (level0Slot spec layout input j)))) ∧
    ∀ (fieldCount : ℕ) (input arena output : ℕ → Words × ℕ) (n before capacity : ℕ), n < 2 ^ 32 →
      before < 2 ^ 32 →
      let s := scatterCollisionReference spec fieldCount layout input n ⟨arena, fun _ => 0, before⟩
      let overflow := newOverflow before s.overflowCount
      scatterReturned n before s.overflowCount + overflow = n ∧
      overflow = beyond layout (fun r => loadCollisionField spec fieldCount r.1 0) input n ∧
      (overflow = 0 →
        Gives capacity
          (collisionRoundReference spec fieldCount layout s.output s.bucketCounts output capacity)
          (nextRecords spec fieldCount layout input n) ∧
        ∀ i < n, ∀ j < n, NextCollision spec fieldCount layout input i j
          (nextCollisionOf spec fieldCount (input i) (input j)
            (nextSlot spec fieldCount layout input i) (nextSlot spec fieldCount layout input j))) := by
  constructor
  · intro input arena output n before capacity hn hbefore
    have hscattered : Scattered layout (fun r => loadLevel0Field spec r 0) input before n
        (scatterLevel0Reference spec layout input n ⟨arena, fun _ => 0, before⟩) :=
      scattered_scatterReference hn arena hbefore
    obtain ⟨hnew, hreturned⟩ := scatter_counts hn hbefore hscattered
    refine ⟨hreturned, hnew, fun hzero => ⟨level0_gives output hscattered (hnew ▸ hzero),
      fun i hi j hj => level0Collision_collisionOf ?_ ?_⟩⟩
    · exact rank_lt_of_beyond_eq_zero (hnew ▸ hzero) hi
    · exact rank_lt_of_beyond_eq_zero (hnew ▸ hzero) hj
  · intro fieldCount input arena output n before capacity hn hbefore
    have hscattered : Scattered layout (fun r => loadCollisionField spec fieldCount r.1 0) input
        before n
        (scatterCollisionReference spec fieldCount layout input n ⟨arena, fun _ => 0, before⟩) :=
      scattered_scatterReference hn arena hbefore
    obtain ⟨hnew, hreturned⟩ := scatter_counts hn hbefore hscattered
    refine ⟨hreturned, hnew, fun hzero => ⟨next_gives output hscattered (hnew ▸ hzero),
      fun i hi j hj => nextCollision_nextCollisionOf ?_ ?_⟩⟩
    · exact rank_lt_of_beyond_eq_zero (hnew ▸ hzero) hi
    · exact rank_lt_of_beyond_eq_zero (hnew ▸ hzero) hj

section Wrap

/-- One bucket of `2 ^ 17` slots. -/
def oneBucket : Layout where
  bucketCount := 1
  bucketSlotCapacity := 2 ^ 17
  bucketFor _ := 0
  localBin _ := 0
  bucketFor_lt _ _ := Nat.one_pos
  arena_le := by decide

/-- Row `i` has the leaf `i` and only zeros in its fields. -/
def zeroRow (i : ℕ) : Words := packedStore (fun _ => 0) 6 144 25 i

theorem loadLevel0Field_zeroRow (i : ℕ) : loadLevel0Field .zhash144_5 (zeroRow i) 0 = 0 := by
  have hwords : Spec.zhash144_5.level0Words = 6 := rfl
  rw [loadLevel0Field, Spec.collisionBits_eq, hwords, zeroRow, packedLoad_packedStore_of_disjoint
    (by decide) (by decide) (by decide) (by decide) (.inl (by decide))]
  refine Nat.eq_of_testBit_eq fun j => ?_
  rw [testBit_packedLoad (by decide) (by decide)]
  simp [bit]

theorem loadLevel0Leaf_zeroRow {i : ℕ} (hi : i < 2 ^ 25) :
    loadLevel0Leaf .zhash144_5 (zeroRow i) = i := by
  have hwords : Spec.zhash144_5.level0Words = 6 := rfl
  have hplace : Spec.zhash144_5.rounds * Spec.zhash144_5.collisionBits = 144 := rfl
  rw [loadLevel0Leaf, hwords, hplace, Spec.indexBits_eq, zeroRow,
    packedLoad_packedStore_self (by decide) (by decide), Nat.mod_eq_of_lt hi]

theorem length_level0Records_zeroRow {n : ℕ} (hn : n < 2 ^ 25) :
    (level0Records .zhash144_5 oneBucket zeroRow n).length = (pairsBelow n).length := by
  rw [level0Records, List.length_map, List.filter_eq_self.mpr]
  intro p hp
  obtain ⟨hj, hij⟩ := mem_pairsBelow.mp hp
  refine decide_eq_true ⟨?_, ?_⟩
  · rw [loadLevel0Field_zeroRow, loadLevel0Field_zeroRow]
  · rw [loadLevel0Leaf_zeroRow (by omega), loadLevel0Leaf_zeroRow (by omega)]
    exact hij.ne'

def emptyArena : ℕ → Words := fun _ _ => 0

/-- A round over rows of one key, that all collide. -/
theorem round_zeroRow {n : ℕ} (hn : n ≤ 2 ^ 17) :
    let s := scatterLevel0Reference .zhash144_5 oneBucket zeroRow n ⟨emptyArena, fun _ => 0, 0⟩
    newOverflow 0 s.overflowCount = 0 ∧
      ∃ r, bucketRoundReference .zhash144_5 oneBucket s.output s.bucketCounts emptyArena 0 = some r ∧
        r.emitted = n * (n - 1) / 2 % 2 ^ 32 ∧
        (level0Records .zhash144_5 oneBucket zeroRow n).length = n * (n - 1) / 2 := by
  intro s
  have hn' : n < 2 ^ 32 := by omega
  have hscattered : Scattered oneBucket (fun r => loadLevel0Field .zhash144_5 r 0) zeroRow 0 n s :=
    scattered_scatterReference hn' emptyArena (Nat.two_pow_pos 32)
  have hbeyond : beyond oneBucket (fun r => loadLevel0Field .zhash144_5 r 0) zeroRow n = 0 := by
    refine List.countP_eq_zero.mpr fun i hi => ?_
    have hrank : rank oneBucket (fun r => loadLevel0Field .zhash144_5 r 0) zeroRow i ≤ i :=
      bucketSize_le i _
    have hcapacity : oneBucket.bucketSlotCapacity = 2 ^ 17 := rfl
    have hi' := List.mem_range.mp hi
    rw [decide_eq_true_iff]
    omega
  have hlength := length_level0Records_zeroRow (show n < 2 ^ 25 by omega)
  have hpairs := length_pairsBelow n
  have hgives : Gives 0 (bucketRoundReference .zhash144_5 oneBucket s.output s.bucketCounts
      emptyArena 0) (level0Records .zhash144_5 oneBucket zeroRow n) :=
    level0_gives _ hscattered hbeyond
  obtain ⟨emitted, -, r, hr, hcount, -⟩ := hgives
  refine ⟨?_, r, hr, ?_, ?_⟩
  · rw [(scatter_counts hn' (Nat.two_pow_pos 32) hscattered).1, hbeyond]
  · rw [hcount, hlength]
    omega
  · rw [hlength]
    omega

theorem round_zeroRow_wraps {n : ℕ} (hn : n = 92683) :
    let s := scatterLevel0Reference .zhash144_5 oneBucket zeroRow n ⟨emptyArena, fun _ => 0, 0⟩
    newOverflow 0 s.overflowCount = 0 ∧
      ∃ r, bucketRoundReference .zhash144_5 oneBucket s.output s.bucketCounts emptyArena 0 = some r ∧
        r.emitted ≠ (level0Records .zhash144_5 oneBucket zeroRow n).length := by
  intro s
  obtain ⟨hoverflow, r, hr, hcount, hlength⟩ := round_zeroRow (show n ≤ 2 ^ 17 by omega)
  refine ⟨hoverflow, r, hr, ?_⟩
  rw [hcount, hlength, hn]
  decide

/-- With 92683 rows of one key in a bucket there are more pairs than 32 bits can count: nothing
overflows, but the number that the round returns is not that of the colliding pairs. -/
theorem rounds_count_wraps :
    let s := scatterLevel0Reference .zhash144_5 oneBucket zeroRow 92683 ⟨emptyArena, fun _ => 0, 0⟩
    newOverflow 0 s.overflowCount = 0 ∧
      ∃ r, bucketRoundReference .zhash144_5 oneBucket s.output s.bucketCounts emptyArena 0 = some r ∧
        r.emitted ≠ (level0Records .zhash144_5 oneBucket zeroRow 92683).length :=
  round_zeroRow_wraps rfl

end Wrap

end MoMiner.Equihash
