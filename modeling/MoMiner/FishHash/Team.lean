import Mathlib.Tactic.IntervalCases
import Mathlib.Tactic.Ring
import MoMiner.FishHash.Search

/-!
# The cooperative search

Sixteen lanes a nonce, over the full dataset: a lane owns one element of the mix. The indexes of a
round and the neighbour of the fold come from other lanes of the subgroup; the header, the seed and
the folded mix go through a staging area of the workgroup.

**A run of a workgroup** (`GroupRun`): three phases of stores, in any order, with barriers between
them. Every team stores to its own part of the area.

Main result: `routes_agree`.
-/

namespace MoMiner.FishHash

open Equihash (Blake2bPair b2Join b2Pair)

/-! ## Lanes -/

/-- The sizes of a launch: whole teams in a subgroup, whole subgroups in a workgroup. -/
structure Shape where
  width : ℕ
  workgroup : ℕ
  width_pos : 0 < width
  width_dvd : 16 ∣ width
  workgroup_pos : 0 < workgroup
  workgroup_dvd : width ∣ workgroup

namespace Shape

variable (sh : Shape)

/-- The lane of a local id in its team. -/
def teamLane (l : ℕ) : ℕ := l % sh.width % 16

/-- The first lane of the team in its subgroup. -/
def teamBase (l : ℕ) : ℕ := l % sh.width - sh.teamLane l

/-- The value of another lane of the subgroup; there is none past its width. -/
def select {w : ℕ} (x : ℕ → BitVec w) (l lane : ℕ) : BitVec w :=
  if lane < sh.width then x (l / sh.width * sh.width + lane) else 0

theorem teamLane_eq (l : ℕ) : sh.teamLane l = l % 16 := Nat.mod_mod_of_dvd l sh.width_dvd

/-- **A selection stays in the team**, for every width of a subgroup. -/
theorem select_team {w : ℕ} (x : ℕ → BitVec w) (l : ℕ) {i : ℕ} (hi : i < 16) :
    sh.select x l (sh.teamBase l + i) = x (l / 16 * 16 + i) := by
  obtain ⟨c, hc⟩ := sh.width_dvd
  have hdiv := Nat.div_add_mod l sh.width
  have hlt := Nat.mod_lt l sh.width_pos
  have hlane := sh.teamLane_eq l
  have hmul : l / sh.width * sh.width = 16 * (c * (l / sh.width)) := by
    rw [hc]
    ring
  rw [Nat.mul_comm] at hdiv
  rw [hmul] at hdiv
  rw [select, teamBase, hlane, hmul]
  generalize c * (l / sh.width) = q at hdiv
  generalize l % sh.width = r at hdiv hlt
  rw [if_pos (by omega)]
  congr 1
  omega

end Shape

/-! ## Elements -/

theorem b2Pair_b2Join (m : Blake2bPair) : b2Pair (b2Join m) = m := by
  have hlo := m.lo.isLt
  have hhi := m.hi.isLt
  obtain ⟨lo, hi⟩ := m
  simp only [b2Pair, Blake2bPair.mk.injEq]
  constructor <;> refine BitVec.eq_of_toNat_eq ?_ <;>
    simp only [BitVec.toNat_setWidth, BitVec.toNat_ushiftRight, Equihash.toNat_b2Join,
      Nat.shiftRight_eq_div_pow] <;> omega

/-- The new element of a lane. -/
def teamElement (f0 f1 f2 mix : BitVec 64) : BitVec 64 :=
  let b := b2Join ⟨fnv1Dev (b2Pair mix).lo (b2Pair f1).lo, fnv1Dev (b2Pair mix).hi (b2Pair f1).hi⟩
  f0 * b + (mix ^^^ f2)

theorem teamElement_join (f0 f1 f2 : BitVec 64) (m : Blake2bPair) :
    teamElement f0 f1 f2 (b2Join m) = mixElement f0 f1 f2 m := by
  have hxor : b2Join m ^^^ f2 = b2Join ⟨m.lo ^^^ (b2Pair f2).lo, m.hi ^^^ (b2Pair f2).hi⟩ := by
    have h := Equihash.b2Join_pairXor m (b2Pair f2)
    rw [Equihash.b2Join_b2Pair] at h
    exact h.symm
  simp only [teamElement, mixElement, b2Pair_b2Join, hxor]

/-- The lanes of the team of `l` own the elements of a mix. -/
def Owns (team : ℕ → BitVec 64) (mix : Mix) (l : ℕ) : Prop :=
  ∀ j < 16, team (l / 16 * 16 + j) = b2Join (pairAt mix j)

/-- How a team finds the items of a round. -/
structure TeamVariant (v : Variant) where
  indices : Shape → ℕ → (ℕ → BitVec 64) → ℕ → Indices
  indices_eq : ∀ sh round team mix l, Owns team mix l →
    indices sh round team l = v.indices round mix

def fishTeamIndices (sh : Shape) (_ : ℕ) (team : ℕ → BitVec 64) (l : ℕ) : Indices :=
  let ownLow : ℕ → BitVec 32 := fun l => (b2Pair (team l)).lo
  ⟨modItems (sh.select ownLow l (sh.teamBase l + 0)),
    modItems (sh.select ownLow l (sh.teamBase l + 2)),
    modItems (sh.select ownLow l (sh.teamBase l + 4))⟩

theorem fishTeamIndices_eq (sh : Shape) (round : ℕ) (team : ℕ → BitVec 64) (mix : Mix) (l : ℕ)
    (h : Owns team mix l) : fishTeamIndices sh round team l = fishIndices round mix := by
  simp only [fishTeamIndices, fishIndices, sh.select_team _ l (show 0 < 16 by decide),
    sh.select_team _ l (show 2 < 16 by decide), sh.select_team _ l (show 4 < 16 by decide),
    h 0 (by decide), h 2 (by decide), h 4 (by decide), b2Pair_b2Join, pairAt]

/-- Each lane folds its two words, then those of its neighbour. -/
def karlsenPairMix (sh : Shape) (team : ℕ → BitVec 64) (l : ℕ) : BitVec 32 :=
  let laneMix : ℕ → BitVec 32 := fun l => (b2Pair (team l)).lo ^^^ (b2Pair (team l)).hi
  laneMix l ^^^ sh.select laneMix l (sh.teamBase l + (sh.teamLane l ^^^ 1))

def karlsenTeamIndices (sh : Shape) (round : ℕ) (team : ℕ → BitVec 64) (l : ℕ) : Indices :=
  let pick : ℕ → BitVec 32 := fun i => sh.select (karlsenPairMix sh team) l (sh.teamBase l + i)
  ⟨modItems (pick 0 ^^^ pick 6 ^^^ pick 12), modItems (pick 2 ^^^ pick 8 ^^^ pick 14),
    modItems (pick 4 ^^^ pick 10 ^^^ BitVec.ofNat 32 round)⟩

/-- An even lane folds a whole group. -/
theorem karlsenPairMix_eq (sh : Shape) {team : ℕ → BitVec 64} {mix : Mix} {l : ℕ}
    (h : Owns team mix l) {c : ℕ} (hc : c < 8) :
    karlsenPairMix sh team (l / 16 * 16 + 2 * c) = karlsenGroup mix c := by
  have hlane : sh.teamLane (l / 16 * 16 + 2 * c) ^^^ 1 = 2 * c + 1 := by
    rw [sh.teamLane_eq, show (l / 16 * 16 + 2 * c) % 16 = 2 * c by omega]
    interval_cases c <;> rfl
  have hdiv : (l / 16 * 16 + 2 * c) / 16 = l / 16 := by omega
  simp only [karlsenPairMix, karlsenGroup]
  rw [hlane, sh.select_team _ _ (by omega), hdiv, h (2 * c) (by omega), h (2 * c + 1) (by omega),
    b2Pair_b2Join, b2Pair_b2Join, pairAt, pairAt]
  simp only [show 2 * (2 * c) = 4 * c by ring, show 2 * (2 * c + 1) = 4 * c + 2 by ring,
    BitVec.xor_assoc]

theorem karlsenTeamIndices_eq (sh : Shape) (round : ℕ) (team : ℕ → BitVec 64) (mix : Mix) (l : ℕ)
    (h : Owns team mix l) : karlsenTeamIndices sh round team l = karlsenIndices round mix := by
  have hpick (c : ℕ) (hc : c < 8) : sh.select (karlsenPairMix sh team) l (sh.teamBase l + 2 * c) =
      karlsenGroup mix c := by
    rw [sh.select_team _ l (by omega), karlsenPairMix_eq sh h hc]
  simp only [karlsenTeamIndices, karlsenIndices, ← hpick _ (show 0 < 8 by decide),
    ← hpick _ (show 1 < 8 by decide), ← hpick _ (show 2 < 8 by decide),
    ← hpick _ (show 3 < 8 by decide), ← hpick _ (show 4 < 8 by decide),
    ← hpick _ (show 5 < 8 by decide), ← hpick _ (show 6 < 8 by decide),
    ← hpick _ (show 7 < 8 by decide), Nat.reduceMul]

section Variants

variable (blake3 : ℕ → List UInt8 → ℕ → UInt8)

def fishOfflineTeam : TeamVariant (fishOffline blake3) := ⟨fishTeamIndices, fishTeamIndices_eq⟩

def fishIronTeam : TeamVariant (fishIron blake3) := ⟨fishTeamIndices, fishTeamIndices_eq⟩

def karlsenV2Team : TeamVariant (karlsenV2 blake3) := ⟨karlsenTeamIndices, karlsenTeamIndices_eq⟩

end Variants

/-! ## A workgroup -/

section Group

variable (sh : Shape) {v : Variant} (k : TeamVariant v) (dag : ℕ → BitVec 64)

def teamRound (team : ℕ → BitVec 64) (round : ℕ) (l : ℕ) : BitVec 64 :=
  let p := k.indices sh round team l
  let lane := sh.teamLane l
  teamElement (fullItem dag p.p0 lane) (fullItem dag p.p1 lane) (fullItem dag p.p2 lane) (team l)

/-- **A round of a team is a scalar round.** -/
theorem Owns.round {team : ℕ → BitVec 64} {mix : Mix} {l : ℕ} (h : Owns team mix l) (round : ℕ) :
    Owns (teamRound sh k dag team round) (searchRound v (fullItem dag) mix round) l := by
  intro j hj
  have hdiv : (l / 16 * 16 + j) / 16 = l / 16 := by omega
  have hown : Owns team mix (l / 16 * 16 + j) := by
    intro i hi
    rw [hdiv]
    exact h i hi
  have hlane : sh.teamLane (l / 16 * 16 + j) = j := by
    rw [sh.teamLane_eq]
    omega
  rw [teamRound, k.indices_eq sh round team mix _ hown, hlane, h j hj, teamElement_join,
    searchRound, scalarRound_pair _ _ _ hj, Equihash.b2Join_b2Pair]

theorem Owns.rounds {team : ℕ → BitVec 64} {mix : Mix} {l : ℕ} (h : Owns team mix l) (rounds : ℕ) :
    Owns ((List.range rounds).foldl (teamRound sh k dag) team)
      ((List.range rounds).foldl (searchRound v (fullItem dag)) mix) l := by
  induction rounds with
  | zero => exact h
  | succ rounds ih =>
    rw [List.range_succ, List.foldl_append, List.foldl_append]
    exact ih.round sh k dag rounds

/-- A byte of the staging part of a lane's team, of `FISH_STAGE_BYTES` bytes. -/
def stageCell (l i : ℕ) : ℕ := l / 16 * 180 + i

variable (blake3 : ℕ → List UInt8 → ℕ → UInt8) (input : List UInt8) (start : BitVec 64) (w : ℕ)

/-- The nonce of a lane of workgroup `w`. -/
def teamNonce (l : ℕ) : BitVec 64 := nonceAt start ((w * sh.workgroup + l) / 16)

/-- The lanes copy the header; the leader alone writes the nonce. -/
def headerStores (v : Variant) (l : ℕ) : List (ℕ × UInt8) :=
  let lane := sh.teamLane l
  (((List.range' lane ((v.hlen - lane + 15) / 16) 16).filter fun i =>
    i < v.nonceOff || v.nonceOff + 8 ≤ i).map fun i => (stageCell l i, input.getD i 0)) ++
  if lane = 0 then
    (List.range 8).map fun i =>
      (stageCell l (v.nonceOff + i), nonceByte v.nonceBe (teamNonce sh start w l) i)
  else []

/-- The leader reads the header, then writes the seed over it. -/
def seedStores (v : Variant) (stage : ℕ → UInt8) (l : ℕ) : List (ℕ × UInt8) :=
  if sh.teamLane l = 0 then
    (List.range 64).map fun i =>
      (stageCell l i, v.seed (bytesAt stage (stageCell l 0) v.hlen) i)
  else []

def startTeam (stage : ℕ → UInt8) (l : ℕ) : BitVec 64 :=
  load64LeDev stage (stageCell l (8 * (sh.teamLane l % 8)))

def finalTeam (stage : ℕ → UInt8) : ℕ → BitVec 64 :=
  (List.range numDatasetAccesses).foldl (teamRound sh k dag) (startTeam sh stage)

/-- The even lanes write the folded mix. -/
def foldStores (v : Variant) (team : ℕ → BitVec 64) (l : ℕ) : List (ℕ × UInt8) :=
  let lane := sh.teamLane l
  let m1 := sh.select team l (sh.teamBase l + (lane ||| 1))
  let folded := fnv1Dev (fnv1Dev (fnv1Dev (b2Pair (team l)).lo (b2Pair (team l)).hi)
    (b2Pair m1).lo) (b2Pair m1).hi
  if lane % 2 = 0 then
    (List.range 4).map fun b => (stageCell l (v.seedPart + 2 * lane + b), byteOf folded b)
  else []

/-- The staging area of a workgroup, before and after each phase. -/
structure GroupRun (stage0 stage1 stage2 stage3 : ℕ → UInt8) : Prop where
  header : Stores.Phase ((List.range sh.workgroup).flatMap (headerStores sh input start w v))
    stage0 stage1
  seed : Stores.Phase ((List.range sh.workgroup).flatMap (seedStores sh v stage1)) stage1 stage2
  fold : Stores.Phase ((List.range sh.workgroup).flatMap
    (foldStores sh v (finalTeam sh k dag stage2))) stage2 stage3

theorem GroupRun.exists (stage0 : ℕ → UInt8) : ∃ stage1 stage2 stage3,
    GroupRun sh k dag input start w stage0 stage1 stage2 stage3 := by
  obtain ⟨stage1, h1⟩ := Stores.Phase.exists
    ((List.range sh.workgroup).flatMap (headerStores sh input start w v)) stage0
  obtain ⟨stage2, h2⟩ := Stores.Phase.exists
    ((List.range sh.workgroup).flatMap (seedStores sh v stage1)) stage1
  obtain ⟨stage3, h3⟩ := Stores.Phase.exists
    ((List.range sh.workgroup).flatMap (foldStores sh v (finalTeam sh k dag stage2))) stage2
  exact ⟨stage1, stage2, stage3, h1, h2, h3⟩

/-- The leader's final hash. -/
def teamHash (v : Variant) (stage : ℕ → UInt8) (l : ℕ) : Hash :=
  finalHash blake3 (bytesAt stage (stageCell l 0) (v.seedPart + 32))

/-! ## What the staging area holds -/

theorem stageCell_team {l i : ℕ} (hi : i < 180) :
    stageCell l i / 180 = l / 16 ∧ stageCell l i % 180 = i := by
  simp only [stageCell]
  omega

theorem stageCell_add (l i b : ℕ) : stageCell l i + b = stageCell l (i + b) := Nat.add_assoc ..

theorem Shape.sixteen_dvd : 16 ∣ sh.workgroup := sh.width_dvd.trans sh.workgroup_dvd

theorem Shape.leader_lt {l : ℕ} (hl : l < sh.workgroup) {i : ℕ} (hi : i < 16) :
    l / 16 * 16 + i < sh.workgroup := by
  obtain ⟨c, hc⟩ := sh.sixteen_dvd
  omega

theorem teamNonce_eq (l : ℕ) :
    teamNonce sh start w l = nonceAt start (w * (sh.workgroup / 16) + l / 16) := by
  obtain ⟨c, hc⟩ := sh.sixteen_dvd
  have hmul : w * sh.workgroup = 16 * (w * c) := by
    rw [hc]
    ring
  rw [teamNonce, hmul, hc, Nat.mul_div_cancel_left _ (by decide), Nat.mul_add_div (by decide)]

theorem teamNonce_leader (l : ℕ) {i : ℕ} (hi : i < 16) :
    teamNonce sh start w (l / 16 * 16 + i) = teamNonce sh start w l := by
  rw [teamNonce_eq, teamNonce_eq, show (l / 16 * 16 + i) / 16 = l / 16 by omega]

/-- A header store is a byte of the team's header. -/
theorem headerStores_eq {l : ℕ} {p : ℕ × UInt8} (hp : p ∈ headerStores sh input start w v l) :
    ∃ i < v.hlen, p = (stageCell l i,
      FishHash.header v.nonceOff v.nonceBe input (teamNonce sh start w l) i) := by
  have hnonce := v.nonce_le
  rcases List.mem_append.mp hp with hp | hp
  · obtain ⟨i, hi, rfl⟩ := List.mem_map.mp hp
    obtain ⟨hrange, hout⟩ := List.mem_filter.mp hi
    obtain ⟨m, hm, rfl⟩ := List.mem_range'.mp hrange
    simp only [Bool.or_eq_true, decide_eq_true_eq] at hout
    refine ⟨sh.teamLane l + 16 * m, by omega, ?_⟩
    rw [header_eq, if_neg (by omega)]
  · split at hp
    · obtain ⟨i, hi, rfl⟩ := List.mem_map.mp hp
      have hi8 := List.mem_range.mp hi
      refine ⟨v.nonceOff + i, by omega, ?_⟩
      rw [header_eq, if_pos (by omega), Nat.add_sub_cancel_left]
    · cases hp

/-- Every byte of a header is stored, by one lane of the team. -/
theorem exists_headerStores {l i : ℕ} (hl : l < sh.workgroup) (hi : i < v.hlen) :
    ∃ b, (stageCell l i, b) ∈ (List.range sh.workgroup).flatMap (headerStores sh input start w v) := by
  by_cases hnonce : v.nonceOff ≤ i ∧ i < v.nonceOff + 8
  · have hmem : (stageCell l i, nonceByte v.nonceBe (teamNonce sh start w (l / 16 * 16 + 0))
        (i - v.nonceOff)) ∈ headerStores sh input start w v (l / 16 * 16 + 0) := by
      refine List.mem_append_right _ ?_
      rw [if_pos (by rw [sh.teamLane_eq]; omega)]
      refine List.mem_map.mpr ⟨i - v.nonceOff, List.mem_range.mpr (by omega), Prod.ext ?_ rfl⟩
      simp only [stageCell]
      omega
    exact ⟨_, List.mem_flatMap.mpr
      ⟨_, List.mem_range.mpr (sh.leader_lt hl (by decide)), hmem⟩⟩
  · have hlane : sh.teamLane (l / 16 * 16 + i % 16) = i % 16 := by
      rw [sh.teamLane_eq]
      omega
    have hmem : (stageCell l i, input.getD i 0) ∈
        headerStores sh input start w v (l / 16 * 16 + i % 16) := by
      refine List.mem_append_left _
        (List.mem_map.mpr ⟨i, List.mem_filter.mpr ⟨?_, ?_⟩, Prod.ext ?_ rfl⟩)
      · rw [hlane]
        exact List.mem_range'.mpr ⟨i / 16, by omega, by omega⟩
      · simp only [Bool.or_eq_true, decide_eq_true_eq]
        omega
      · simp only [stageCell]
        omega
    exact ⟨_, List.mem_flatMap.mpr
      ⟨_, List.mem_range.mpr (sh.leader_lt hl (Nat.mod_lt _ (by decide))), hmem⟩⟩

variable {stage0 stage1 stage2 stage3 : ℕ → UInt8}
  (h : GroupRun sh k dag input start w stage0 stage1 stage2 stage3)

include h

/-- **The header of every team** after the first phase. -/
theorem GroupRun.headerByte {l i : ℕ} (hl : l < sh.workgroup) (hi : i < v.hlen) :
    stage1 (stageCell l i) =
      FishHash.header v.nonceOff v.nonceBe input (teamNonce sh start w l) i := by
  obtain ⟨b, hb⟩ := exists_headerStores sh input start w (v := v) hl hi
  have hlen := v.hlen_le
  have hget := h.header.get_of_forall (f := fun c => FishHash.header v.nonceOff v.nonceBe input
    (nonceAt start (w * (sh.workgroup / 16) + c / 180)) (c % 180)) (fun p hp => ?_) hb
  · obtain ⟨hteam, hat⟩ := stageCell_team (l := l) (i := i) (by omega)
    rw [hget, hteam, hat, teamNonce_eq]
  · obtain ⟨l', -, hp⟩ := List.mem_flatMap.mp hp
    obtain ⟨i', hi', rfl⟩ := headerStores_eq sh input start w hp
    obtain ⟨hteam, hat⟩ := stageCell_team (l := l') (i := i') (by omega)
    simp only [hteam, hat, teamNonce_eq]

theorem GroupRun.headerBytes {l : ℕ} (hl : l < sh.workgroup) :
    bytesAt stage1 (stageCell l 0) v.hlen =
      FishHash.headerBytes v input (teamNonce sh start w l) := by
  rw [bytesAt, FishHash.headerBytes, bytesAt]
  refine List.map_congr_left fun i hi => ?_
  rw [stageCell_add, Nat.zero_add]
  exact h.headerByte sh k dag input start w hl (List.mem_range.mp hi)

/-- **The seed of every team** after the second phase. -/
theorem GroupRun.seedByte {l i : ℕ} (hl : l < sh.workgroup) (hi : i < 64) :
    stage2 (stageCell l i) =
      v.seed (FishHash.headerBytes v input (teamNonce sh start w l)) i := by
  have hleader : sh.teamLane (l / 16 * 16 + 0) = 0 := by
    rw [sh.teamLane_eq]
    omega
  have hcell : stageCell (l / 16 * 16 + 0) i = stageCell l i := by
    simp only [stageCell]
    omega
  have hmem : (stageCell l i, v.seed (bytesAt stage1 (stageCell (l / 16 * 16 + 0) 0) v.hlen) i) ∈
      seedStores sh v stage1 (l / 16 * 16 + 0) := by
    rw [seedStores, if_pos hleader]
    exact List.mem_map.mpr ⟨i, List.mem_range.mpr hi, Prod.ext hcell rfl⟩
  have hget := h.seed.get_of_forall (f := fun c => v.seed (FishHash.headerBytes v input
      (nonceAt start (w * (sh.workgroup / 16) + c / 180))) (c % 180)) (fun p hp => ?_)
    (List.mem_flatMap.mpr ⟨_, List.mem_range.mpr (sh.leader_lt hl (by decide)), hmem⟩)
  · obtain ⟨hteam, hat⟩ := stageCell_team (l := l) (i := i) (by omega)
    rw [hget, hteam, hat, teamNonce_eq]
  · obtain ⟨l', hl', hp⟩ := List.mem_flatMap.mp hp
    rw [seedStores] at hp
    split at hp
    · obtain ⟨i', hi', rfl⟩ := List.mem_map.mp hp
      have hi64 := List.mem_range.mp hi'
      obtain ⟨hteam, hat⟩ := stageCell_team (l := l') (i := i') (by omega)
      simp only [hteam, hat, ← teamNonce_eq,
        h.headerBytes sh k dag input start w (List.mem_range.mp hl')]
    · cases hp

/-- A team starts with the mix of its nonce. -/
theorem GroupRun.owns_start {l : ℕ} (hl : l < sh.workgroup) :
    Owns (startTeam sh stage2)
      (v.startMix (FishHash.headerBytes v input (teamNonce sh start w l))) l := by
  intro j hj
  have hlane : sh.teamLane (l / 16 * 16 + j) = j := by
    rw [sh.teamLane_eq]
    omega
  have hload : ∀ i < 16, load32LeDev stage2 (stageCell (l / 16 * 16 + j) (4 * i)) =
      load32LeDev (v.seed (FishHash.headerBytes v input (teamNonce sh start w l))) (4 * i) := by
    intro i hi
    have hbyte (b : ℕ) (hb : b < 4) : stage2 (stageCell (l / 16 * 16 + j) (4 * i) + b) =
        v.seed (FishHash.headerBytes v input (teamNonce sh start w l)) (4 * i + b) := by
      have hcell : stageCell (l / 16 * 16 + j) (4 * i + b) = stageCell l (4 * i + b) := by
        simp only [stageCell]
        omega
      rw [stageCell_add, hcell]
      exact h.seedByte sh k dag input start w hl (by omega)
    have hbyte0 := hbyte 0 (by decide)
    rw [Nat.add_zero, Nat.add_zero] at hbyte0
    simp only [load32LeDev, hbyte0, hbyte 1 (by decide), hbyte 2 (by decide),
      hbyte 3 (by decide)]
  have hfirst : stageCell (l / 16 * 16 + j) (8 * (j % 8)) =
      stageCell (l / 16 * 16 + j) (4 * (2 * (j % 8))) := by
    simp only [stageCell]
    omega
  have hsecond : stageCell (l / 16 * 16 + j) (8 * (j % 8)) + 4 =
      stageCell (l / 16 * 16 + j) (4 * (2 * (j % 8) + 1)) := by
    simp only [stageCell]
    omega
  rw [startTeam, hlane, load64LeDev, hsecond, hfirst, hload _ (by omega), hload _ (by omega),
    pairAt, v.startMix_eq _ _ (by omega), v.startMix_eq _ _ (by omega)]
  congr 3 <;> omega

/-- The mix of a team after all rounds. -/
theorem GroupRun.owns_final {l : ℕ} (hl : l < sh.workgroup) :
    Owns (finalTeam sh k dag stage2)
      (finalMix v (fullItem dag) input (teamNonce sh start w l) numDatasetAccesses) l :=
  (h.owns_start sh k dag input start w hl).rounds sh k dag numDatasetAccesses

/-- A store of the last phase is a byte of the folded mix of the team. -/
theorem GroupRun.foldStores_eq {l : ℕ} (hl : l < sh.workgroup) {p : ℕ × UInt8}
    (hp : p ∈ foldStores sh v (finalTeam sh k dag stage2) l) :
    ∃ i < 32, p = (stageCell l (v.seedPart + i),
      mixHash (finalMix v (fullItem dag) input (teamNonce sh start w l) numDatasetAccesses) i) := by
  have howns := h.owns_final sh k dag input start w hl
  rw [foldStores] at hp
  split at hp
  · rename_i heven
    obtain ⟨b, hb, rfl⟩ := List.mem_map.mp hp
    have hb4 := List.mem_range.mp hb
    obtain ⟨c, hc⟩ : ∃ c, l % 16 = 2 * c := ⟨l % 16 / 2, by rw [sh.teamLane_eq] at heven; omega⟩
    have hor : 2 * c ||| 1 = 2 * c + 1 := by
      have : c < 8 := by omega
      interval_cases c <;> rfl
    have hself : l = l / 16 * 16 + 2 * c := by omega
    have hown0 := howns (2 * c) (by omega)
    have hown1 := howns (2 * c + 1) (by omega)
    rw [← hself] at hown0
    refine ⟨4 * c + b, by omega, Prod.ext ?_ ?_⟩
    · simp only [stageCell, sh.teamLane_eq, hc]
      omega
    · have hdiv : (4 * c + b) / 4 = c := by omega
      have hmod : (4 * c + b) % 4 = b := by omega
      simp only [mixHash, collapse, hdiv, hmod, sh.teamLane_eq, hc, hor,
        sh.select_team _ l (show 2 * c + 1 < 16 by omega), hown0, hown1, b2Pair_b2Join, pairAt,
        show 2 * (2 * c) = 4 * c by omega, show 2 * (2 * c + 1) = 4 * c + 2 by omega]
  · cases hp

omit h in
/-- Every byte of the folded mix is stored. -/
theorem exists_foldStores (team : ℕ → BitVec 64) {l i : ℕ} (hl : l < sh.workgroup) (hi : i < 32) :
    ∃ b, (stageCell l (v.seedPart + i), b) ∈
      (List.range sh.workgroup).flatMap (foldStores sh v team) := by
  have hlane : sh.teamLane (l / 16 * 16 + 2 * (i / 4)) = 2 * (i / 4) := by
    rw [sh.teamLane_eq]
    omega
  have hcell : stageCell (l / 16 * 16 + 2 * (i / 4)) (v.seedPart + 2 * (2 * (i / 4)) + i % 4) =
      stageCell l (v.seedPart + i) := by
    simp only [stageCell]
    omega
  obtain ⟨b, hmem⟩ : ∃ b, (stageCell l (v.seedPart + i), b) ∈
      foldStores sh v team (l / 16 * 16 + 2 * (i / 4)) := by
    rw [foldStores, if_pos (by rw [hlane]; omega), hlane, ← hcell]
    exact ⟨_, List.mem_map.mpr ⟨i % 4, List.mem_range.mpr (by omega), rfl⟩⟩
  exact ⟨b, List.mem_flatMap.mpr ⟨_, List.mem_range.mpr (sh.leader_lt hl (by omega)), hmem⟩⟩

/-- **The final data of every team** after the last phase. -/
theorem GroupRun.finalByte {l i : ℕ} (hl : l < sh.workgroup) (hi : i < 32) :
    stage3 (stageCell l (v.seedPart + i)) =
      mixHash (finalMix v (fullItem dag) input (teamNonce sh start w l) numDatasetAccesses) i := by
  obtain ⟨b, hb⟩ := exists_foldStores sh (v := v) (finalTeam sh k dag stage2) hl hi
  have hpart := v.seedPart_le
  have hget := h.fold.get_of_forall (f := fun c => mixHash (finalMix v (fullItem dag) input
    (nonceAt start (w * (sh.workgroup / 16) + c / 180)) numDatasetAccesses)
      (c % 180 - v.seedPart)) (fun p hp => ?_) hb
  · obtain ⟨hteam, hat⟩ := stageCell_team (l := l) (i := v.seedPart + i) (by omega)
    rw [hget, hteam, hat, teamNonce_eq, Nat.add_sub_cancel_left]
  · obtain ⟨l', hl', hp⟩ := List.mem_flatMap.mp hp
    obtain ⟨i', hi', rfl⟩ := h.foldStores_eq sh k dag input start w (List.mem_range.mp hl') hp
    obtain ⟨hteam, hat⟩ := stageCell_team (l := l') (i := v.seedPart + i') (by omega)
    simp only [hteam, hat, teamNonce_eq, Nat.add_sub_cancel_left]

theorem GroupRun.keptByte {l i : ℕ} (hl : l < sh.workgroup) (hi : i < v.seedPart) :
    stage3 (stageCell l i) = v.seed (FishHash.headerBytes v input (teamNonce sh start w l)) i := by
  have hpart := v.seedPart_le
  rw [h.fold.get_of_notMem fun b hb => ?_, h.seedByte sh k dag input start w hl (by omega)]
  obtain ⟨l', hl', hp⟩ := List.mem_flatMap.mp hb
  obtain ⟨i', hi', heq⟩ := h.foldStores_eq sh k dag input start w (List.mem_range.mp hl') hp
  have hcell := congrArg Prod.fst heq
  simp only [stageCell] at hcell
  omega

/-- **A team computes the scalar hash of its nonce.** -/
theorem GroupRun.teamHash_eq {l : ℕ} (hl : l < sh.workgroup) :
    teamHash blake3 v stage3 l =
      scalarHash blake3 v (fullItem dag) input (teamNonce sh start w l) := by
  have hdata : bytesAt stage3 (stageCell l 0) (v.seedPart + 32) =
      finalData v (fullItem dag) input (teamNonce sh start w l) := by
    rw [bytesAt, List.range_add, List.map_append, finalData, List.map_map]
    congr 1
    · refine List.map_congr_left fun i hi => ?_
      rw [stageCell_add, Nat.zero_add]
      exact h.keptByte sh k dag input start w hl (List.mem_range.mp hi)
    · refine List.map_congr_left fun i hi => ?_
      rw [Function.comp_apply, stageCell_add, Nat.zero_add]
      exact h.finalByte sh k dag input start w hl (List.mem_range.mp hi)
  rw [teamHash, hdata, scalarHash]

end Group

/-! ## All routes -/

section Launch

variable (blake3 : ℕ → List UInt8 → ℕ → UInt8) (sh : Shape) (v : Variant) (isTest : Bool)
  (target : Hash) (start : BitVec 64) (intensity : ℕ)

/-- The lanes of the cooperative kernel; `stage w` is what workgroup `w` leaves in its area. -/
def teamLaunch (stage : ℕ → ℕ → UInt8) : List Evaluation :=
  let global := (intensity * 16 + sh.workgroup - 1) / sh.workgroup * sh.workgroup
  (List.range global).filterMap fun g =>
    let l := g % sh.workgroup
    let gid := g / 16
    if sh.teamLane l = 0 ∧ gid < intensity then
      some (evaluation v isTest target start gid
        (teamHash blake3 v (stage (g / sh.workgroup)) l))
    else none

theorem filterMap_teams {α : Type} (f : ℕ → Option α) (n : ℕ) :
    ((List.range (16 * n)).filterMap fun g => if g % 16 = 0 then f (g / 16) else none) =
      (List.range n).filterMap f := by
  induction n with
  | zero => rfl
  | succ n ih =>
    have hstep : (((List.range 16).map (16 * n + ·)).filterMap fun g =>
        if g % 16 = 0 then f (g / 16) else none) = [n].filterMap f := by
      rw [List.filterMap_map]
      have hterm : ∀ i ∈ List.range 16, ((fun g => if g % 16 = 0 then f (g / 16) else none) ∘
          (16 * n + ·)) i = if i = 0 then f n else none := by
        intro i hi
        have hi16 := List.mem_range.mp hi
        have hmod : (16 * n + i) % 16 = i := by omega
        have hdiv : (16 * n + i) / 16 = n := by omega
        simp only [Function.comp_apply, hmod, hdiv]
      rw [List.filterMap_congr hterm]
      rfl
    rw [Nat.mul_succ, List.range_add, List.filterMap_append, ih, hstep, List.range_succ,
      List.filterMap_append]

variable (cache dag : ℕ → BitVec 64) (input : List UInt8) {v} (k : TeamVariant v)

/-- Every nonce of a launch once, with its lazy hash. -/
def launchEvaluations (v : Variant) : List Evaluation :=
  (List.range intensity).map fun gid =>
    evaluation v isTest target start gid
      (scalarHash blake3 v (lazyItem cache) input (nonceAt start gid))

theorem teamLaunch_eq (hdag : EnsureDag cache dag) {stage : ℕ → ℕ → UInt8}
    (hrun : ∀ w, w * sh.workgroup < intensity * 16 →
      ∃ stage0 stage1 stage2, GroupRun sh k dag input start w stage0 stage1 stage2 (stage w)) :
    teamLaunch blake3 sh v isTest target start intensity stage =
      launchEvaluations blake3 isTest target start intensity cache input v := by
  obtain ⟨c, hc⟩ := sh.sixteen_dvd
  have hpos := sh.workgroup_pos
  obtain ⟨n, hn, hle⟩ : ∃ n, (intensity * 16 + sh.workgroup - 1) / sh.workgroup * sh.workgroup =
      16 * n ∧ intensity ≤ n := by
    refine ⟨(intensity * 16 + sh.workgroup - 1) / sh.workgroup * c, by rw [hc]; ring, ?_⟩
    have hdiv := Nat.div_add_mod (intensity * 16 + sh.workgroup - 1) sh.workgroup
    have hmod := Nat.mod_lt (intensity * 16 + sh.workgroup - 1) hpos
    have hmul : sh.workgroup * ((intensity * 16 + sh.workgroup - 1) / sh.workgroup) =
        16 * ((intensity * 16 + sh.workgroup - 1) / sh.workgroup * c) := by
      rw [hc]
      ring
    omega
  have hlane (g : ℕ) : sh.teamLane (g % sh.workgroup) = g % 16 := by
    rw [sh.teamLane_eq, Nat.mod_mod_of_dvd _ sh.sixteen_dvd]
  have hhash : ∀ g, g % 16 = 0 → g / 16 < intensity →
      teamHash blake3 v (stage (g / sh.workgroup)) (g % sh.workgroup) =
        scalarHash blake3 v (lazyItem cache) input (nonceAt start (g / 16)) := by
    intro g hg hgid
    have hglobal : g / sh.workgroup * sh.workgroup + g % sh.workgroup = g :=
      Nat.div_add_mod' g sh.workgroup
    obtain ⟨stage0, stage1, stage2, h⟩ := hrun (g / sh.workgroup) (by omega)
    rw [h.teamHash_eq sh k dag blake3 input start _ (Nat.mod_lt _ hpos), teamNonce, hglobal]
    exact scalarHash_congr blake3 v input (fun p hp j hj => fullItem_eq hdag hp hj) _
  have hterm : ∀ g ∈ List.range (16 * n), (if sh.teamLane (g % sh.workgroup) = 0 ∧
      g / 16 < intensity then some (evaluation v isTest target start (g / 16)
        (teamHash blake3 v (stage (g / sh.workgroup)) (g % sh.workgroup))) else none) =
      if g % 16 = 0 then (if g / 16 < intensity then some (evaluation v isTest target start
        (g / 16) (scalarHash blake3 v (lazyItem cache) input (nonceAt start (g / 16)))) else none)
      else none := by
    intro g _
    rw [hlane]
    by_cases hg : g % 16 = 0
    · by_cases hgid : g / 16 < intensity
      · rw [if_pos ⟨hg, hgid⟩, if_pos hg, if_pos hgid, hhash g hg hgid]
      · rw [if_neg (fun h => hgid h.2), if_pos hg, if_neg hgid]
    · rw [if_neg (fun h => hg h.1), if_neg hg]
  simp only [teamLaunch]
  rw [hn, List.filterMap_congr hterm, filterMap_teams fun gid =>
    if gid < intensity then some (evaluation v isTest target start gid
      (scalarHash blake3 v (lazyItem cache) input (nonceAt start gid))) else none,
    launchEvaluations, ← filter_lt_range hle]
  generalize List.range n = l
  induction l with
  | nil => rfl
  | cons gid l ih => by_cases hgid : gid < intensity <;> simp [hgid, ih]

/-- The routes of a variant over every launch. -/
structure RoutesAgree (v : Variant) (k : TeamVariant v) : Prop where
  lazyRoute : scalarLaunch blake3 v (lazyItem cache) input isTest target start intensity =
    launchEvaluations blake3 isTest target start intensity cache input v
  fullRoute : scalarLaunch blake3 v (fullItem dag) input isTest target start intensity =
    launchEvaluations blake3 isTest target start intensity cache input v
  /-- For every subgroup width and workgroup size, and every order of the stores. -/
  teamRoute : ∀ (sh : Shape) (stage : ℕ → ℕ → UInt8),
    (∀ w, w * sh.workgroup < intensity * 16 →
      ∃ stage0 stage1 stage2, GroupRun sh k dag input start w stage0 stage1 stage2 (stage w)) →
    teamLaunch blake3 sh v isTest target start intensity stage =
      launchEvaluations blake3 isTest target start intensity cache input v
  /-- No nonce twice. -/
  nodup : ((launchEvaluations blake3 isTest target start intensity cache input v).map
    Evaluation.nonce).Nodup

theorem routesAgree (hdag : EnsureDag cache dag) (hintensity : intensity < 2 ^ 32) :
    RoutesAgree blake3 isTest target start intensity cache dag input v k where
  lazyRoute := scalarLaunch_eq ..
  fullRoute := by
    rw [scalarLaunch_eq, launchEvaluations]
    refine List.map_congr_left fun gid _ => ?_
    rw [scalarHash_congr blake3 v input (fun p hp j hj => fullItem_eq hdag hp hj)]
  teamRoute := fun sh _ hrun =>
    teamLaunch_eq blake3 sh isTest target start intensity cache dag input k hdag hrun
  nodup := by
    have hnonces : (launchEvaluations blake3 isTest target start intensity cache input v).map
        Evaluation.nonce = (List.range intensity).map (nonceAt start) := by
      rw [launchEvaluations, List.map_map]
      rfl
    rw [hnonces]
    refine List.Nodup.map_on (fun a ha b hb hab => ?_) List.nodup_range
    have ha' := List.mem_range.mp ha
    have hb' := List.mem_range.mp hb
    have hnat := congrArg BitVec.toNat hab
    simp only [nonceAt, BitVec.toNat_add, BitVec.toNat_ofNat] at hnat
    omega

/-- **The routes of FishHash and KarlsenHashV2 agree**, over the dataset that `ensure_dag` fills. -/
theorem routes_agree (hdag : EnsureDag cache dag) (hintensity : intensity < 2 ^ 32) :
    RoutesAgree blake3 isTest target start intensity cache dag input _ (fishOfflineTeam blake3) ∧
    RoutesAgree blake3 isTest target start intensity cache dag input _ (fishIronTeam blake3) ∧
    RoutesAgree blake3 isTest target start intensity cache dag input _ (karlsenV2Team blake3) ∧
    ∀ index < fullDatasetNumItems, ∀ k : Fin 16,
      dag (index * 16 + k) = (fishDatasetItem cache (BitVec.ofNat 32 index))[k] :=
  ⟨routesAgree _ _ _ _ _ _ _ _ _ hdag hintensity, routesAgree _ _ _ _ _ _ _ _ _ hdag hintensity,
    routesAgree _ _ _ _ _ _ _ _ _ hdag hintensity, fun _ hindex k => hdag.item cache hindex k⟩

end Launch

/-- A launch of one nonce over a dataset of the zero cache. -/
theorem routes_agree_one : ∃ dag, EnsureDag (fun _ => 0) dag ∧ 1 < 2 ^ 32 ∧
    RoutesAgree (fun _ _ _ => 0) false (Vector.replicate 32 0) 0 1 (fun _ => 0) dag
      (List.replicate 80 0) _ (karlsenV2Team fun _ _ _ => 0) := by
  obtain ⟨dag, hdag⟩ := EnsureDag.exists fun _ => 0
  exact ⟨dag, hdag, by decide, (routes_agree (fun _ _ _ => 0) false (Vector.replicate 32 0) 0 1
    (fun _ => 0) dag (List.replicate 80 0) hdag (by decide)).2.2.1⟩

end MoMiner.FishHash
