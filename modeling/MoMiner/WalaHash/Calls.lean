import MoMiner.Lib.Mask
import MoMiner.WalaHash.Wmma

/-!
# Calls of the search

A device keeps the buffers of the staged kernels and the matrix of the last seed between calls. A
call makes the buffers larger where it needs more room, lays out the matrix of a new seed, and runs
the kernels of its route. It can stop on the way; the next call goes on with what it left.

The state of a device is good for a call (`Inv`) when

- the capacity is a multiple of the tile of the route,
- a matrix that counts as ready is the matrix of the stored seed, in the layout of the route.

Main results: `Step.inv` and `calls_agree`.
-/

namespace MoMiner.WalaHash

open Pearl (Cv Block CvBytes)

/-! ## Calls and their results -/

/-- The kernels of a device. -/
inductive Route
  | fused (fixedHashes : Bool) (workGroup : ℕ) (pos : 0 < workGroup)
  | esimd (wide : Bool)
  | hip

/-- The routes with buffers between their kernels. -/
def Route.staged : Route → Bool
  | .fused .. => false
  | _ => true

def Route.alignment : Route → UInt32
  | .hip => 64
  | _ => 16

def Route.layout (route : Route) (m : NibbleMatrix) : ℕ → UInt8 :=
  match route with
  | .esimd _ => tiled (rowMajor m)
  | _ => rowMajor m

structure Call where
  header : Header
  first : UInt64
  intensity : UInt32
  isTest : Bool
  target : CvBytes

def Call.seed (call : Call) : CvBytes := .ofFn fun i => call.header[i.val]

/-- `padded_u32_range_fits(intensity, 256)`, after the check for zero. -/
def Call.Accepted (call : Call) : Prop :=
  call.intensity ≠ 0 ∧ call.intensity.toNat ≤ 2 ^ 32 - 1 - (256 - 1)

/-- What a kernel finds for a nonce. -/
structure Evaluation where
  nonce : UInt64
  hash : CvBytes
  hit : Bool
  /-- Whether the lane tries to store its result. -/
  stored : Bool

def evaluation (call : Call) (gid : ℕ) (hash : CvBytes) : Evaluation :=
  let hit := Bytes.leAt hash call.target (List.finRange 32).reverse
  ⟨nonceOf call.first gid, hash, hit, call.isTest && gid == 0 || hit⟩

/-- The result of a search: of the lanes that store, one is first. -/
def Reports (evaluations : List Evaluation) : Option (UInt64 × CvBytes) → Prop
  | none => ∀ e ∈ evaluations, e.stored = false
  | some result => ∃ e ∈ evaluations, e.stored = true ∧ result = (e.nonce, e.hash)

/-! ## The state of a device -/

structure State where
  capacity : UInt32
  buffers : Buffers
  matrix : ℕ → UInt8
  matrixSeed : CvBytes
  matrixReady : Bool

/-- A new state; device memory holds anything. -/
def State.initial (buffers : Buffers) (matrix : ℕ → UInt8) : State :=
  ⟨0, buffers, matrix, .replicate 32 0, false⟩

def nextCapacity (alignment count : UInt32) : UInt32 :=
  (count + alignment - 1) &&& ~~~(alignment - 1)

/-- `ensure`, where the route needs it. New buffers hold anything. -/
inductive Ensure (route : Route) (count : UInt32) (s : State) : State → Prop
  | unused : route.staged = false → Ensure route count s s
  | fits : route.staged = true → count ≤ s.capacity → Ensure route count s s
  | grows (buffers : Buffers) : route.staged = true → s.capacity < count →
      Ensure route count s
        { s with capacity := nextCapacity route.alignment count, buffers := buffers }

section Calls

variable (compress : Cv → Block → UInt64 → UInt32 → UInt32 → Block) (sha3 : CvBytes → CvBytes)
variable (makeMatrix : CvBytes → NibbleMatrix)

def refreshMatrix (route : Route) (call : Call) (s : State) : State :=
  if s.matrixReady ∧ s.matrixSeed = call.seed then s
  else { s with
    matrix := route.layout (makeMatrix call.seed)
    matrixSeed := call.seed
    matrixReady := true }

/-- The lanes of the fused kernel, in full workgroups. -/
def fusedLanes (workGroup : ℕ) (count : UInt32) : List ℕ :=
  (List.range ((count.toNat + workGroup - 1) / workGroup * workGroup)).filter (· < count.toNat)

/-- The kernels of a call. -/
inductive Searches (call : Call) (s : State) : Route → List Evaluation → State → Prop
  | fused (fixedHashes : Bool) (workGroup : ℕ) (pos : 0 < workGroup) :
      Searches call s (.fused fixedHashes workGroup pos)
        ((fusedLanes workGroup call.intensity).map fun gid => evaluation call gid
          (fusedHash compress sha3 fixedHashes s.matrix call.header (nonceOf call.first gid))) s
  | esimd (wide : Bool) (mem : Buffers) :
      EsimdRun compress sha3 call.header call.first wide s.matrix s.capacity.toNat
        call.intensity.toNat s.buffers mem →
      Searches call s (.esimd wide)
        ((List.range call.intensity.toNat).map fun gid => evaluation call gid
          (esimdHash compress s.capacity.toNat mem.mixed gid)) { s with buffers := mem }
  | hip (mem : Buffers) :
      HipRun compress sha3 call.header call.first s.matrix s.capacity.toNat s.buffers mem →
      Searches call s .hip
        ((List.range call.intensity.toNat).map fun gid => evaluation call gid
          (hipHash compress mem.mixed gid)) { s with buffers := mem }

/-- A call, with its evaluations where it does not throw. -/
inductive Step (route : Route) (s : State) (call : Call) : Option (List Evaluation) → State → Prop
  | rejected : ¬call.Accepted → Step route s call none s
  | unallocated (buffers : Buffers) : call.Accepted → route.staged = true →
      s.capacity < call.intensity →
      Step route s call none { s with capacity := 0, buffers := buffers }
  /-- The matrix or its copy fails. -/
  | unprepared {s' : State} (matrix : ℕ → UInt8) : call.Accepted →
      Ensure route call.intensity s s' →
      Step route s call none { s' with matrix := matrix, matrixReady := false }
  /-- A kernel fails. -/
  | interrupted {s' : State} (buffers : Buffers) : call.Accepted →
      Ensure route call.intensity s s' →
      Step route s call none { refreshMatrix makeMatrix route call s' with buffers := buffers }
  | searched {s' s'' : State} {evaluations : List Evaluation} : call.Accepted →
      Ensure route call.intensity s s' →
      Searches compress sha3 call (refreshMatrix makeMatrix route call s') route evaluations s'' →
      Step route s call (some evaluations) s''

/-- The states after any calls. -/
inductive Reachable (route : Route) : State → Prop
  | initial (buffers : Buffers) (matrix : ℕ → UInt8) :
      Reachable route (State.initial buffers matrix)
  | step {s s' : State} {call : Call} {result : Option (List Evaluation)} :
      Reachable route s → Step compress sha3 makeMatrix route s call result s' → Reachable route s'

/-! ## The invariant -/

structure Inv (route : Route) (s : State) : Prop where
  aligned : route.alignment.toNat ∣ s.capacity.toNat
  matrix : s.matrixReady = true → s.matrix = route.layout (makeMatrix s.matrixSeed)

theorem toNat_nextCapacity {alignment count : UInt32} {k : ℕ} (halign : alignment.toNat = 2 ^ k)
    (hmask : (~~~(alignment - 1)).toNat = Mask.highMask 32 k) (hk : k ≤ 6)
    (hcount : count.toNat ≤ 2 ^ 32 - 1 - (256 - 1)) : (nextCapacity alignment count).toNat =
      (count.toNat + alignment.toNat - 1) / 2 ^ k * 2 ^ k := by
  have hpow : 2 ^ k ≤ 2 ^ 6 := Nat.pow_le_pow_right (by decide) hk
  have hpos : 0 < 2 ^ k := by positivity
  have hsum : (count + alignment).toNat = count.toNat + alignment.toNat := by
    rw [UInt32.toNat_add, Nat.mod_eq_of_lt (by omega)]
  have hlast : (count + alignment - 1).toNat = count.toNat + alignment.toNat - 1 := by
    rw [UInt32.toNat_sub_of_le _ _ (by rw [UInt32.le_iff_toNat_le, hsum]; simp; omega), hsum]
    rfl
  rw [nextCapacity, UInt32.toNat_and, hmask,
    Mask.and_highMask (by omega) (UInt32.toNat_lt _), hlast]

/-- **The new capacity** has whole tiles, and room for the count. -/
theorem nextCapacity_fits (route : Route) {count : UInt32}
    (hcount : count.toNat ≤ 2 ^ 32 - 1 - (256 - 1)) :
    route.alignment.toNat ∣ (nextCapacity route.alignment count).toNat ∧
      count.toNat ≤ (nextCapacity route.alignment count).toNat := by
  obtain ⟨k, hk, halign, hmask⟩ : ∃ k ≤ 6, route.alignment.toNat = 2 ^ k ∧
      (~~~(route.alignment - 1)).toNat = Mask.highMask 32 k := by
    have h16 : (~~~((16 : UInt32) - 1)).toNat = Mask.highMask 32 4 := by decide
    cases route with
    | fused => exact ⟨4, by decide, rfl, h16⟩
    | esimd => exact ⟨4, by decide, rfl, h16⟩
    | hip => exact ⟨6, by decide, rfl, rfl⟩
  rw [toNat_nextCapacity halign hmask hk hcount, halign]
  refine ⟨⟨_, Nat.mul_comm _ _⟩, ?_⟩
  have hdiv := Nat.div_add_mod' (count.toNat + 2 ^ k - 1) (2 ^ k)
  have hmod := Nat.mod_lt (count.toNat + 2 ^ k - 1) (show 0 < 2 ^ k by positivity)
  omega

variable {compress sha3 makeMatrix}
variable {route : Route} {s s' : State} {call : Call}

theorem Inv.initial (buffers : Buffers) (matrix : ℕ → UInt8) :
    Inv makeMatrix route (State.initial buffers matrix) where
  aligned := dvd_zero _
  matrix := fun h => Bool.noConfusion h

theorem Inv.ensure (h : Inv makeMatrix route s) (haccepted : call.Accepted)
    (hensure : Ensure route call.intensity s s') : Inv makeMatrix route s' := by
  cases hensure with
  | unused => exact h
  | fits => exact h
  | grows => exact ⟨(nextCapacity_fits route haccepted.2).1, h.matrix⟩

/-- A staged route has room for the count. -/
theorem Ensure.fits_count (haccepted : call.Accepted) (hensure : Ensure route call.intensity s s')
    (hstaged : route.staged = true) : call.intensity.toNat ≤ s'.capacity.toNat := by
  cases hensure with
  | unused h => exact absurd hstaged (by rw [h]; decide)
  | fits _ h => exact UInt32.le_iff_toNat_le.mp h
  | grows => exact (nextCapacity_fits route haccepted.2).2

theorem capacity_refreshMatrix (route : Route) (call : Call) (s : State) :
    (refreshMatrix makeMatrix route call s).capacity = s.capacity := by
  rw [refreshMatrix]
  split <;> rfl

theorem Inv.refreshMatrix (h : Inv makeMatrix route s) (call : Call) :
    Inv makeMatrix route (refreshMatrix makeMatrix route call s) := by
  refine ⟨by rw [capacity_refreshMatrix]; exact h.aligned, ?_⟩
  rw [WalaHash.refreshMatrix]
  split
  · exact h.matrix
  · exact fun _ => rfl

/-- **The matrix of a call** is the matrix of its own seed. -/
theorem Inv.matrix_refreshMatrix (h : Inv makeMatrix route s) (call : Call) :
    (WalaHash.refreshMatrix makeMatrix route call s).matrix =
      route.layout (makeMatrix call.seed) := by
  rw [WalaHash.refreshMatrix]
  split
  · rename_i hready
    rw [h.matrix hready.1, hready.2]
  · rfl

/-- A search changes the contents of the buffers only. -/
theorem Searches.frame {evaluations : List Evaluation}
    (h : Searches compress sha3 call s route evaluations s') :
    s'.capacity = s.capacity ∧ s'.matrix = s.matrix ∧ s'.matrixSeed = s.matrixSeed ∧
      s'.matrixReady = s.matrixReady := by
  cases h <;> exact ⟨rfl, rfl, rfl, rfl⟩

/-- **Every call keeps the invariant**, also one that stops on the way. -/
theorem Step.inv {result : Option (List Evaluation)} (h : Inv makeMatrix route s)
    (hstep : Step compress sha3 makeMatrix route s call result s') : Inv makeMatrix route s' := by
  cases hstep with
  | rejected => exact h
  | unallocated => exact ⟨dvd_zero _, h.matrix⟩
  | unprepared matrix haccepted hensure =>
    exact ⟨(h.ensure haccepted hensure).aligned, fun hready => Bool.noConfusion hready⟩
  | interrupted buffers haccepted hensure =>
    have hrefresh := (h.ensure haccepted hensure).refreshMatrix call
    exact ⟨hrefresh.aligned, hrefresh.matrix⟩
  | searched haccepted hensure hsearch =>
    have hrefresh := (h.ensure haccepted hensure).refreshMatrix call
    obtain ⟨hcapacity, hmatrix, hseed, hready⟩ := hsearch.frame
    refine ⟨by rw [hcapacity]; exact hrefresh.aligned, ?_⟩
    rw [hmatrix, hseed, hready]
    exact hrefresh.matrix

theorem Reachable.inv (h : Reachable compress sha3 makeMatrix route s) : Inv makeMatrix route s := by
  induction h with
  | initial buffers matrix => exact Inv.initial buffers matrix
  | step _ hstep ih => exact hstep.inv ih

/-! ## The evaluations of a call -/

variable (compress sha3 makeMatrix) in
/-- Every nonce of a call once, with its hash. -/
def reference (call : Call) : List Evaluation :=
  (List.range call.intensity.toNat).map fun gid => evaluation call gid
    (walaHash compress sha3 (makeMatrix call.seed) call.header (nonceOf call.first gid))

theorem fusedLanes_eq {workGroup : ℕ} (hpos : 0 < workGroup) (count : UInt32) :
    fusedLanes workGroup count = List.range count.toNat := by
  refine filter_lt_range ?_
  have hdiv := Nat.div_add_mod' (count.toNat + workGroup - 1) workGroup
  have hmod := Nat.mod_lt (count.toNat + workGroup - 1) hpos
  omega

/-- **A search on a good state** evaluates the nonces of the call. -/
theorem Searches.evaluations_eq {evaluations : List Evaluation}
    (h : Searches compress sha3 call s route evaluations s')
    (hcapacity : route.alignment.toNat ∣ s.capacity.toNat)
    (hcount : route.staged = true → call.intensity.toNat ≤ s.capacity.toNat)
    (hmatrix : s.matrix = route.layout (makeMatrix call.seed)) :
    evaluations = reference compress sha3 makeMatrix call := by
  cases h with
  | fused fixedHashes workGroup pos =>
    rw [fusedLanes_eq pos, reference]
    refine List.map_congr_left fun gid _ => ?_
    rw [fusedHash_eq compress sha3 fixedHashes (fun cell _ => congrFun hmatrix cell)]
  | esimd wide mem hrun =>
    refine List.map_congr_left fun gid hgid => ?_
    rw [hrun.hash_eq (fun r hr k hk => (congrFun hmatrix _).trans (tiled_cell _ hr hk)) hcapacity
      (hcount rfl) (List.mem_range.mp hgid)]
  | hip mem hrun =>
    refine List.map_congr_left fun gid hgid => ?_
    rw [hrun.hash_eq (fun cell _ => congrFun hmatrix cell) hcapacity
      (lt_of_lt_of_le (List.mem_range.mp hgid) (hcount rfl))]

theorem Step.evaluations_eq {evaluations : List Evaluation} (h : Inv makeMatrix route s)
    (hstep : Step compress sha3 makeMatrix route s call (some evaluations) s') :
    evaluations = reference compress sha3 makeMatrix call := by
  cases hstep with
  | searched haccepted hensure hsearch =>
    have hinv := h.ensure haccepted hensure
    refine hsearch.evaluations_eq (hinv.refreshMatrix call).aligned (fun hstaged => ?_)
      (hinv.matrix_refreshMatrix call)
    rw [capacity_refreshMatrix]
    exact hensure.fits_count haccepted hstaged

theorem nodup_reference (call : Call) :
    ((reference compress sha3 makeMatrix call).map Evaluation.nonce).Nodup := by
  have hnonces : (reference compress sha3 makeMatrix call).map Evaluation.nonce =
      (List.range call.intensity.toNat).map (nonceOf call.first) := by
    rw [reference, List.map_map]
    rfl
  rw [hnonces]
  refine List.Nodup.map_on (fun a ha b hb hab => ?_) List.nodup_range
  have hlt := call.intensity.toNat_lt
  have ha' := List.mem_range.mp ha
  have hb' := List.mem_range.mp hb
  have hnat := congrArg UInt64.toNat hab
  simp only [nonceOf, UInt64.toNat_add, UInt64.toNat_ofNat'] at hnat
  omega

variable (compress sha3 makeMatrix) in
/-- A state can always search an accepted call. -/
theorem Step.exists (route : Route) (s : State) (call : Call) (haccepted : call.Accepted) :
    ∃ evaluations s', Step compress sha3 makeMatrix route s call (some evaluations) s' := by
  obtain ⟨s', hensure⟩ : ∃ s', Ensure route call.intensity s s' := by
    by_cases hstaged : route.staged = true
    · rcases UInt32.lt_or_le s.capacity call.intensity with hlt | hle
      · exact ⟨_, .grows s.buffers hstaged hlt⟩
      · exact ⟨s, .fits hstaged hle⟩
    · exact ⟨s, .unused (Bool.eq_false_iff.mpr hstaged)⟩
  cases route with
  | fused fixedHashes workGroup pos =>
    exact ⟨_, _, .searched haccepted hensure (.fused fixedHashes workGroup pos)⟩
  | esimd wide =>
    obtain ⟨mem, hrun⟩ := EsimdRun.exists compress sha3 call.header call.first wide _ _ _ _
    exact ⟨_, _, .searched haccepted hensure (.esimd wide mem hrun)⟩
  | hip =>
    obtain ⟨mem, hrun⟩ := HipRun.exists compress sha3 call.header call.first _ _ _
    exact ⟨_, _, .searched haccepted hensure (.hip mem hrun)⟩

/-- **The routes of WalaHash agree.** After any calls, a call evaluates the nonces of its count once
each, with the hash and the decision of the header, and reports no other. -/
theorem calls_agree {evaluations : List Evaluation}
    (hreach : Reachable compress sha3 makeMatrix route s)
    (hstep : Step compress sha3 makeMatrix route s call (some evaluations) s') :
    evaluations = reference compress sha3 makeMatrix call ∧
      (evaluations.map Evaluation.nonce).Nodup ∧
      (∀ nonce hash, Reports evaluations (some (nonce, hash)) →
        ∃ gid < call.intensity.toNat, nonce = nonceOf call.first gid ∧
          hash = walaHash compress sha3 (makeMatrix call.seed) call.header nonce ∧
          (evaluation call gid hash).stored = true) ∧
      ∀ s, ∃ evaluations s', Step compress sha3 makeMatrix route s call (some evaluations) s' := by
  obtain rfl : evaluations = reference compress sha3 makeMatrix call := hstep.evaluations_eq hreach.inv
  refine ⟨rfl, nodup_reference call, ?_, fun s => ?_⟩
  · rintro nonce hash ⟨e, he, hstored, hresult⟩
    obtain ⟨gid, hgid, rfl⟩ := List.mem_map.mp he
    obtain ⟨rfl, rfl⟩ := Prod.mk.inj hresult
    exact ⟨gid, List.mem_range.mp hgid, rfl, rfl, hstored⟩
  · cases hstep with
    | searched haccepted => exact Step.exists compress sha3 makeMatrix route s call haccepted

end Calls

/-- A call of 65 nonces after a call of one, on the HIP route. -/
theorem calls_agree_grown :
    ∃ s s' evaluations,
      Reachable (fun _ _ _ _ _ => .replicate 16 0) id (fun _ => ⟨fun _ _ => 3, fun _ _ => by decide⟩)
        .hip s ∧
      Step (fun _ _ _ _ _ => .replicate 16 0) id (fun _ => ⟨fun _ _ => 3, fun _ _ => by decide⟩)
        .hip s ⟨.replicate 72 1, 7, 65, false, .replicate 32 0⟩ (some evaluations) s' ∧
      evaluations = reference (fun _ _ _ _ _ => .replicate 16 0) id
        (fun _ => ⟨fun _ _ => 3, fun _ _ => by decide⟩)
        ⟨.replicate 72 1, 7, 65, false, .replicate 32 0⟩ := by
  obtain ⟨_, s, hfirst⟩ := Step.exists (fun _ _ _ _ _ => .replicate 16 0) id
    (fun _ => ⟨fun _ _ => 3, fun _ _ => by decide⟩) .hip
    (State.initial ⟨fun _ => 0, fun _ => 0, fun _ => 0⟩ fun _ => 0)
    ⟨.replicate 72 0, 7, 1, true, .replicate 32 0⟩ ⟨by decide, by decide⟩
  obtain ⟨evaluations, s', hsecond⟩ := Step.exists (fun _ _ _ _ _ => .replicate 16 0) id
    (fun _ => ⟨fun _ _ => 3, fun _ _ => by decide⟩) .hip s
    ⟨.replicate 72 1, 7, 65, false, .replicate 32 0⟩ ⟨by decide, by decide⟩
  have hreach := Reachable.step (Reachable.initial _ _) hfirst
  exact ⟨s, s', evaluations, hreach, hsecond, (calls_agree hreach hsecond).1⟩

end MoMiner.WalaHash
