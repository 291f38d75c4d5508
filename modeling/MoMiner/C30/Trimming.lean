import Mathlib.Algebra.Order.BigOperators.Group.Finset
import MoMiner.C30.Trim

/-!
# The trim kernels agree

Both kernels of a round keep the edges whose first endpoint occurs twice in its bucket, in both
layouts and under every schedule (`scatterTasks_eq`). No edge is lost without being counted, and an
edge is dropped at most once, so that the overflow word cannot wrap around: the host searches the
fully trimmed graph, or none.

Main result: `trim_kernels_agree`.
-/

namespace MoMiner.C30

open C29 (Edge trimOnce)
open Planes Scatter ProbeTable

/-! ## Layouts -/

/-- The widths of the bucket numbers. -/
def Width (bits : ℕ) : Prop :=
  bits = 12 ∨ bits = 13

/-- The endpoints of an edge have 30 bits. -/
structure Legal (e : Edge) : Prop where
  x_lt : e.x.toNat < 2 ^ 30
  y_lt : e.y.toNat < 2 ^ 30

theorem Legal.swap {e : Edge} (h : Legal e) : Legal e.swap :=
  ⟨h.y_lt, h.x_lt⟩

/-- Unpacking an edge in its bucket gives it back. -/
structure Layout.Exact {β : Type} (L : Layout β) (bits : ℕ) : Prop where
  unpackU : ∀ u v : UInt32, u.toNat < 2 ^ 30 → v.toNat < 2 ^ 30 →
    L.unpackU (L.pack u v) (bucketOf bits u) = u
  unpackV : ∀ u v : UInt32, u.toNat < 2 ^ 30 → v.toNat < 2 ^ 30 → L.unpackV (L.pack u v) = v

/-- A word put together from its low bits and the others. -/
theorem or_shiftLeft {low high shift : ℕ} (hlow : low < 2 ^ shift)
    (hhigh : 2 ^ shift * high < 2 ^ 32) :
    low ||| (high <<< shift % 2 ^ 32) = 2 ^ shift * high + low := by
  rw [Nat.shiftLeft_eq, Nat.mul_comm, Nat.mod_eq_of_lt hhigh, Nat.or_comm,
    ← Nat.two_pow_add_eq_or_of_lt hlow]

section

variable {bits : ℕ} (hbits : Width bits)
include hbits

theorem toNat_bucketOf (u : UInt32) : (bucketOf bits u).toNat = u.toNat % 2 ^ bits := by
  have hmask : ((1 <<< UInt32.ofNat bits) - 1 : UInt32).toNat = 2 ^ bits - 1 := by
    rcases hbits with rfl | rfl <;> rfl
  rw [bucketOf, UInt32.toNat_and, hmask, Nat.and_two_pow_sub_one_eq_mod]

theorem bucketOf_lt (u : UInt32) : (bucketOf bits u).toNat < 2 ^ bits := by
  rw [toNat_bucketOf hbits]
  exact Nat.mod_lt _ (Nat.two_pow_pos _)

theorem toNat_shiftRight (u : UInt32) :
    (u >>> UInt32.ofNat bits).toNat = u.toNat / 2 ^ bits := by
  have hshift : (UInt32.ofNat bits).toNat % 32 = bits := by
    rcases hbits with rfl | rfl <;> rfl
  rw [UInt32.toNat_shiftRight, hshift, Nat.shiftRight_eq_div_pow]

theorem div_lt {u : UInt32} (hu : u.toNat < 2 ^ 30) : u.toNat / 2 ^ bits < 2 ^ 18 := by
  rcases hbits with rfl | rfl <;> omega

theorem toNat_high {u v : UInt32} (hu : u.toNat < 2 ^ 30) (hv : v.toNat < 2 ^ 30) :
    (packEdge bits u v).high.toNat =
      2 ^ 14 * (u.toNat / 2 ^ bits / 2 ^ 16) + v.toNat / 2 ^ 16 := by
  have hhigh := div_lt hbits hu
  rw [packEdge, UInt32.toNat_toUInt16, UInt32.toNat_or, UInt32.toNat_shiftLeft,
    UInt32.toNat_shiftRight, UInt32.toNat_shiftRight, toNat_shiftRight hbits,
    show UInt32.toNat 16 % 32 = 16 from rfl, show UInt32.toNat 14 % 32 = 14 from rfl,
    Nat.shiftRight_eq_div_pow, Nat.shiftRight_eq_div_pow, or_shiftLeft (by omega) (by omega),
    Nat.mod_eq_of_lt (by omega)]

/-- Unpacking the first endpoint in its bucket. -/
theorem unpackU_packEdge {u v : UInt32} (hu : u.toNat < 2 ^ 30) (hv : v.toNat < 2 ^ 30) :
    unpackU bits (packEdge bits u v) (bucketOf bits u) = u := by
  have hhigh := div_lt hbits hu
  have hlow : (packEdge bits u v).uLow.toNat = u.toNat / 2 ^ bits % 2 ^ 16 := by
    rw [packEdge, UInt32.toNat_toUInt16, toNat_shiftRight hbits]
  have htop : ((packEdge bits u v).high >>> 14).toNat = u.toNat / 2 ^ bits / 2 ^ 16 := by
    rw [UInt16.toNat_shiftRight, toNat_high hbits hu hv, show UInt16.toNat 14 % 16 = 14 from rfl,
      Nat.shiftRight_eq_div_pow]
    omega
  have hshift : (UInt32.ofNat bits).toNat % 32 = bits := by
    rcases hbits with rfl | rfl <;> rfl
  have hword : 2 ^ bits * (u.toNat / 2 ^ bits) < 2 ^ 32 := by
    have := Nat.mul_div_le u.toNat (2 ^ bits)
    omega
  rw [← UInt32.toNat_inj, unpackU, UInt32.toNat_or, UInt32.toNat_shiftLeft, UInt32.toNat_or,
    UInt32.toNat_shiftLeft, UInt16.toNat_toUInt32, UInt16.toNat_toUInt32, hlow, htop, hshift,
    show UInt32.toNat 16 % 32 = 16 from rfl, toNat_bucketOf hbits,
    or_shiftLeft (Nat.mod_lt _ (by decide)) (by omega), Nat.div_add_mod, Nat.or_comm,
    or_shiftLeft (Nat.mod_lt _ (Nat.two_pow_pos _)) hword, Nat.div_add_mod]

/-- Unpacking the second endpoint. -/
theorem unpackV_packEdge {u v : UInt32} (hu : u.toNat < 2 ^ 30) (hv : v.toNat < 2 ^ 30) :
    unpackV (packEdge bits u v) = v := by
  have hlow : (packEdge bits u v).vLow.toNat = v.toNat % 2 ^ 16 := by
    rw [packEdge, UInt32.toNat_toUInt16]
  have htop : ((packEdge bits u v).high &&& 0x3fff).toNat = v.toNat / 2 ^ 16 := by
    rw [UInt16.toNat_and, toNat_high hbits hu hv, show UInt16.toNat 0x3fff = 2 ^ 14 - 1 from rfl,
      Nat.and_two_pow_sub_one_eq_mod]
    omega
  rw [← UInt32.toNat_inj, unpackV, UInt32.toNat_or, UInt32.toNat_shiftLeft,
    UInt16.toNat_toUInt32, UInt16.toNat_toUInt32, hlow, htop,
    show UInt32.toNat 16 % 32 = 16 from rfl, or_shiftLeft (Nat.mod_lt _ (by decide)) (by omega),
    Nat.div_add_mod]

theorem exact_layout (lowMemory : Bool) : (layout bits lowMemory).Exact bits := by
  cases lowMemory with
  | true => exact ⟨fun u v => unpackU_packEdge hbits, fun u v => unpackV_packEdge hbits⟩
  | false => exact ⟨fun _ _ _ _ => rfl, fun _ _ _ _ => rfl⟩

end

/-! ## The sparse table -/

theorem toNat_and_tableMask (w : UInt32) : (w &&& sparseTableMask).toNat = w.toNat % 1024 := by
  rw [UInt32.toNat_and, show sparseTableMask.toNat = 2 ^ 10 - 1 from rfl,
    Nat.and_two_pow_sub_one_eq_mod]

/-- The slots of a key follow each other around the table. -/
theorem slotOf_eq (key : UInt32) (probe : ℕ) :
    slotOf key probe = ((sparseSlot key).toNat + probe) % 1024 := by
  induction probe with
  | zero =>
    rw [slotOf, probeSlot, sparseSlot, toNat_and_tableMask]
    omega
  | succ probe ih =>
    rw [slotOf] at ih
    rw [slotOf, probeSlot, toNat_and_tableMask, UInt32.toNat_add, ih, UInt32.toNat_one]
    omega

theorem slotOf_injective (key : UInt32) : ∀ i < sparseTableSize, ∀ i' < sparseTableSize,
    slotOf key i = slotOf key i' → i = i' := by
  intro i hi i' hi' heq
  rw [slotOf_eq, slotOf_eq] at heq
  rw [sparseTableSize] at hi hi'
  omega

/-- The probes for a key reach its cell, and no empty cell before it. -/
def Found (table : ℕ → UInt32) (key : UInt32) : Prop :=
  ∃ i < sparseTableSize, table (slotOf key i) &&& sparseKeyMask = key ∧
    ∀ i' < i, table (slotOf key i') ≠ 0 ∧ table (slotOf key i') &&& sparseKeyMask ≠ key

/-- **The sparse table finds every inserted key**, and knows which were inserted twice. -/
theorem sparseDegreeTwo_iff {keys : Multiset UInt32} {table : ℕ → UInt32}
    (hcard : keys.card ≤ sparseEdgeCapacity) (hvalid : ∀ k ∈ keys, sparseCells.Valid k)
    (h : Completes (ProbeTable.step sparseCells sparseTableSize slotOf)
      (keys.map fun k => .look k 0) (fun _ => 0) table) {k : UInt32} (hk : k ∈ keys) :
    Found table k ∧ (sparseDegreeTwo table k = true ↔ 2 ≤ keys.count k) := by
  have hsize : 0 < sparseTableSize := by decide
  have hroom : keys.card ≤ sparseTableSize := hcard.trans (by decide)
  refine ⟨?_, find_iff hsize hroom hvalid (fun k _ => slotOf_injective k) h hk⟩
  have hinv := inv_of_completes hsize hroom hvalid (fun k _ => slotOf_injective k) h
  obtain ⟨i, hat⟩ := hinv.exists_at hk
  exact ⟨i, hat.lt, hat.key_eq, hat.passed⟩

/-! ## The degrees -/

/-- A legal edge in its bucket. -/
structure InBucket (bits group : ℕ) (e : Edge) : Prop extends Legal e where
  bucket : (bucketOf bits e.x).toNat = group

section

variable {bits : ℕ} (hbits : Width bits)
include hbits

theorem degreeId_eq (u : UInt32) : degreeId bits u = u.toNat / 2 ^ bits :=
  toNat_shiftRight hbits u

theorem toNat_sparseKey {u : UInt32} (hu : u.toNat < 2 ^ 30) :
    (sparseKey bits u).toNat = u.toNat / 2 ^ bits + 1 := by
  have hlt := div_lt hbits hu
  rw [sparseKey, UInt32.toNat_add, toNat_shiftRight hbits, UInt32.toNat_one,
    Nat.mod_eq_of_lt ((Nat.succ_lt_succ hlt).trans (by decide))]

theorem degreeId_lt {u : UInt32} (hu : u.toNat < 2 ^ 30) :
    degreeId bits u < 32 * counterWords bits := by
  rw [degreeId_eq hbits, counterWords]
  rcases hbits with rfl | rfl <;> omega

theorem valid_sparseKey {u : UInt32} (hu : u.toNat < 2 ^ 30) :
    sparseCells.Valid (sparseKey bits u) := by
  have hkey := toNat_sparseKey hbits hu
  have hlt := div_lt hbits hu
  constructor
  · rintro hzero
    rw [hzero, UInt32.toNat_zero] at hkey
    exact Nat.succ_ne_zero _ hkey.symm
  · rw [hkey]
    exact (Nat.succ_lt_succ hlt).trans (by decide)

/-- The high bits tell the endpoints of a bucket apart. -/
theorem div_eq_iff {group : ℕ} {e e' : Edge} (h : InBucket bits group e)
    (h' : InBucket bits group e') : e.x.toNat / 2 ^ bits = e'.x.toNat / 2 ^ bits ↔ e.x = e'.x := by
  constructor
  · intro hhigh
    have hlow := h.bucket.trans h'.bucket.symm
    rw [toNat_bucketOf hbits, toNat_bucketOf hbits] at hlow
    rw [← UInt32.toNat_inj, ← Nat.div_add_mod e.x.toNat (2 ^ bits),
      ← Nat.div_add_mod e'.x.toNat (2 ^ bits), hhigh, hlow]
  · intro heq
    rw [heq]

variable {β : Type} {L : Layout β} {threads stride : ℕ} {input : Buckets β} {group : ℕ}
  {kernel : Kernel} {degreeTwo : ℕ → Bool}

/-- **Every kernel finds the endpoints that occur twice**, under every schedule. -/
theorem Degrees.iff (hthreads : 0 < threads)
    (hcontent : ∀ i < edgeCount stride input group,
      InBucket bits group (readEdge L stride input group i))
    (h : Degrees L bits threads stride input group degreeTwo kernel) {i : ℕ}
    (hi : i < edgeCount stride input group) :
    degreeTwo i = true ↔ 2 ≤ degree (fun i => (readEdge L stride input group i).x)
      (Multiset.range (edgeCount stride input group)) (readEdge L stride input group i).x := by
  have hvisited : visited threads stride input group =
      List.range (edgeCount stride input group) := laneIndices_eq hthreads _
  have hmem : i ∈ Multiset.range (edgeCount stride input group) := Multiset.mem_range.mpr hi
  cases kernel with
  | dense =>
    obtain ⟨counters, hcount, rfl⟩ := h
    rw [denseTasks, hvisited, ← Multiset.map_coe, Multiset.coe_range] at hcount
    let ids := (Multiset.range (edgeCount stride input group)).map fun i =>
      degreeId bits (readEdge L stride input group i).x
    have hcount' : Completes (Planes.step (counterWords bits)) (ids.map .first) (fun _ => 0)
        counters := by
      rwa [Multiset.map_map]
    have hids : ∀ id ∈ ids, id < 32 * counterWords bits := by
      intro id hid
      obtain ⟨i, hi, rfl⟩ := Multiset.mem_map.mp hid
      exact degreeId_lt hbits (hcontent i (Multiset.mem_range.mp hi)).x_lt
    rw [degreeTwo_iff hcount' hids (hids _ (Multiset.mem_map_of_mem _ hmem)),
      count_map_eq_degree (fun i => degreeId bits (readEdge L stride input group i).x),
      degree_congr (f := fun i => (readEdge L stride input group i).x) _ hmem]
    intro i hi i' hi'
    rw [degreeId_eq hbits, degreeId_eq hbits]
    exact div_eq_iff hbits (hcontent i (Multiset.mem_range.mp hi))
      (hcontent i' (Multiset.mem_range.mp hi'))
  | sparse =>
    rw [Degrees] at h
    split_ifs at h with hsmall
    · obtain ⟨table, hinsert, rfl⟩ := h
      rw [sparseTasks, hvisited, ← Multiset.map_coe, Multiset.coe_range] at hinsert
      have hlegal : ∀ i ∈ Multiset.range (edgeCount stride input group),
          (readEdge L stride input group i).x.toNat < 2 ^ 30 :=
        fun i hi => (hcontent i (Multiset.mem_range.mp hi)).x_lt
      let keys := (Multiset.range (edgeCount stride input group)).map fun i =>
        sparseKey bits (readEdge L stride input group i).x
      have hinsert' : Completes (ProbeTable.step sparseCells sparseTableSize slotOf)
          (keys.map fun k => .look k 0) (fun _ => 0) table := by
        rwa [Multiset.map_map]
      have hcard : keys.card ≤ sparseEdgeCapacity := by
        rwa [Multiset.card_map, Multiset.card_range]
      have hvalid : ∀ k ∈ keys, sparseCells.Valid k := by
        intro k hk
        obtain ⟨i, hi, rfl⟩ := Multiset.mem_map.mp hk
        exact valid_sparseKey hbits (hlegal i hi)
      rw [(sparseDegreeTwo_iff hcard hvalid hinsert' (Multiset.mem_map_of_mem _ hmem)).2,
        count_map_eq_degree (fun i => sparseKey bits (readEdge L stride input group i).x),
        degree_congr (f := fun i => (readEdge L stride input group i).x) _ hmem]
      intro i hi i' hi'
      rw [← div_eq_iff hbits (hcontent i (Multiset.mem_range.mp hi))
        (hcontent i' (Multiset.mem_range.mp hi')), ← UInt32.toNat_inj,
        toNat_sparseKey hbits (hlegal i hi), toNat_sparseKey hbits (hlegal i' hi')]
      omega
    · subst h
      rw [two_le_degree_iff (f := fun i => (readEdge L stride input group i).x)
        (Multiset.nodup_range _) hmem, repeats, List.any_eq_true]
      simp only [List.mem_range, Bool.and_eq_true, decide_eq_true_eq, Multiset.mem_range]

/-- What a group puts out: the edges of its bucket whose first endpoint occurs twice there, each
once and with the sides exchanged. -/
theorem scatterTasks_eq (hthreads : 0 < threads)
    (hcontent : ∀ i < edgeCount stride input group,
      InBucket bits group (readEdge L stride input group i))
    (h : Degrees L bits threads stride input group degreeTwo kernel) :
    (scatterTasks L bits threads stride input group degreeTwo : Multiset (Task ℕ ℕ β)) =
      (survivors Edge.x (bucketEdges L stride input group : Multiset Edge)).map fun e =>
        .reserve (bucketOf bits e.y).toNat [L.pack e.y e.x] := by
  have hvisited : visited threads stride input group =
      List.range (edgeCount stride input group) := laneIndices_eq hthreads _
  have hfilter : (Multiset.range (edgeCount stride input group)).filter
      (fun i => degreeTwo i = true) =
      survivors (fun i => (readEdge L stride input group i).x)
        (Multiset.range (edgeCount stride input group)) := by
    apply Multiset.filter_congr
    intro i hi
    exact h.iff hbits hthreads hcontent (Multiset.mem_range.mp hi)
  have hkept : ((List.range (edgeCount stride input group)).filter degreeTwo : Multiset ℕ) =
      (Multiset.range (edgeCount stride input group)).filter fun i => degreeTwo i = true := by
    rw [← Multiset.coe_range, Multiset.filter_coe]
    simp
  rw [scatterTasks, hvisited, ← Multiset.map_coe, hkept, hfilter, bucketEdges, ← Multiset.map_coe,
    Multiset.coe_range, survivors_map, Multiset.map_map]
  rfl

end

/-! ## What the buckets hold -/

/-- The buckets hold the edges, by their first endpoint. -/
def Contents {β : Type} (L : Layout β) (bits stride : ℕ) (input : Buckets β)
    (edges : Multiset Edge) : Prop :=
  ∀ group, (bucketEdges L stride input group : Multiset Edge) =
    edges.filter fun e => (bucketOf bits e.x).toNat = group

section

variable {β : Type} {L : Layout β} {bits stride : ℕ} {tasks : Multiset (Task ℕ ℕ β)}
  {s s' : Scatter.State ℕ ℕ β} {edges : Multiset Edge}

theorem separate_place (total : ℕ → Multiset β) : Separate (place stride) total := by
  intro b i b' i' k _ _ hk hk'
  unfold place at hk hk'
  split_ifs at hk hk' with hi hi'
  have hplace := (Option.some.inj hk).trans (Option.some.inj hk').symm
  exact place_injective (by omega) (by omega) hplace

theorem place_eq_none_iff {b i : ℕ} : place stride b i = none ↔ stride ≤ i := by
  unfold place
  split_ifs with hi
  · simp [hi]
  · simp [Nat.lt_of_not_le hi]

/-- Edges are dropped exactly when a bucket gets more of them than it has places. -/
theorem dropped_iff (h : Completes (Scatter.step (place stride)) tasks s s')
    (hcounts : ∀ b, s.counts b = 0) (hreserve : ∀ t ∈ tasks, ∃ b vs, t = .reserve b vs) :
    s.dropped < s'.dropped ↔ ∃ b, stride < (values b tasks).card := by
  obtain ⟨log, -, hlog, -, hdropped⟩ := completes_log h hcounts hreserve
  rw [hdropped]
  constructor
  · rintro ⟨b, i, hi, hplace⟩
    refine ⟨b, ?_⟩
    rw [← hlog, Multiset.coe_card]
    exact (place_eq_none_iff.mp hplace).trans_lt hi
  · rintro ⟨b, hcard⟩
    rw [← hlog, Multiset.coe_card] at hcard
    exact ⟨b, stride, hcard, place_eq_none_iff.mpr le_rfl⟩

/-- **Scattered edges can be read back**, when none was dropped. -/
theorem contents_of_completes (hL : L.Exact bits) (hlegal : ∀ e ∈ edges, Legal e)
    (h : Completes (Scatter.step (place stride)) tasks s s') (hcounts : ∀ b, s.counts b = 0)
    (hreserve : ∀ t ∈ tasks, ∃ b vs, t = .reserve b vs)
    (hvalues : ∀ b, values b tasks =
      (edges.filter fun e => (bucketOf bits e.x).toNat = b).map fun e => L.pack e.x e.y)
    (hdropped : s'.dropped = s.dropped) :
    Contents L bits stride ⟨s'.mem, s'.counts⟩ edges := by
  obtain ⟨log, hlength, hlog, hmem, -⟩ := completes_log h hcounts hreserve
  intro group
  have hroom : (log group).length ≤ stride := by
    by_contra hfull
    have hmore := (dropped_iff h hcounts hreserve).mpr ⟨group, by
      rw [← hlog, Multiset.coe_card]
      omega⟩
    omega
  have hread : bucketEdges L stride ⟨s'.mem, s'.counts⟩ group =
      (log group).map fun v => ⟨L.unpackU v (UInt32.ofNat group), L.unpackV v⟩ := by
    rw [bucketEdges, edgeCount, show min (s'.counts group) stride = (log group).length by
      rw [hlength, Nat.min_eq_left hroom]]
    apply List.ext_getElem
    · simp
    · intro i hi hi'
      rw [List.length_map] at hi'
      have hplace : place stride group i = some (group * stride + i) := by
        unfold place
        rw [if_neg (by omega)]
      have hstored := hmem (separate_place _) group i _ _ (List.getElem?_eq_getElem hi') hplace
      rw [List.getElem_map, List.getElem_map, List.getElem_range, readEdge]
      simp only [hstored]
  rw [hread, ← Multiset.map_coe, hlog, hvalues, Multiset.map_map]
  conv_rhs => rw [← Multiset.map_id (edges.filter _)]
  apply Multiset.map_congr rfl
  intro e he
  obtain ⟨hmem, hbucket⟩ := Multiset.mem_filter.mp he
  have hlegal := hlegal e hmem
  rw [Function.comp_apply, ← hbucket, UInt32.ofNat_toNat, hL.unpackU _ _ hlegal.x_lt hlegal.y_lt,
    hL.unpackV _ _ hlegal.x_lt hlegal.y_lt, id]

theorem Contents.inBucket {input : Buckets β} (h : Contents L bits stride input edges)
    (hlegal : ∀ e ∈ edges, Legal e) {group i : ℕ} (hi : i < edgeCount stride input group) :
    InBucket bits group (readEdge L stride input group i) := by
  have hmem : readEdge L stride input group i ∈
      (bucketEdges L stride input group : Multiset Edge) :=
    List.mem_map_of_mem (List.mem_range.mpr hi)
  rw [h group] at hmem
  obtain ⟨hmem, hbucket⟩ := Multiset.mem_filter.mp hmem
  exact ⟨hlegal _ hmem, hbucket⟩

theorem Contents.bufferEdges_eq {input : Buckets β} (hbits : Width bits)
    (h : Contents L bits stride input edges) : bufferEdges L bits stride input = edges := by
  rw [bufferEdges, Finset.sum_congr rfl fun group _ => h group,
    sum_filter_eq edges (fun e => (bucketOf bits e.x).toNat), Multiset.filter_eq_self]
  exact fun e _ => bucketOf_lt hbits e.x

/-! ## A round -/

variable {threads outputStride : ℕ} {input : Buckets β} {kernel : Kernel}

theorem legal_trimOnce (hlegal : ∀ e ∈ edges, Legal e) : ∀ e ∈ trimOnce edges, Legal e := by
  intro e he
  obtain ⟨e', he', rfl⟩ := Multiset.mem_map.mp he
  exact (hlegal e' (Multiset.mem_of_le (survivors_le _ _) he')).swap

/-- The tasks of a round put the trimmed edges into their buckets. -/
theorem TrimRun.values_eq (hbits : Width bits) (hthreads : 0 < threads)
    (hlegal : ∀ e ∈ edges, Legal e) (h : Contents L bits stride input edges)
    (hrun : TrimRun L bits threads stride input kernel outputStride s s') :
    ∃ tasks : Multiset (Task ℕ ℕ β),
      Completes (Scatter.step (place outputStride)) tasks s s' ∧
      (∀ t ∈ tasks, ∃ b vs, t = .reserve b vs) ∧
      ∀ b, values b tasks = ((trimOnce edges).filter fun e => (bucketOf bits e.x).toNat = b).map
        fun e => L.pack e.x e.y := by
  obtain ⟨degreeTwo, hdegrees, hscatter⟩ := hrun
  refine ⟨_, hscatter, ?_, ?_⟩
  · intro t ht
    obtain ⟨group, -, ht⟩ := Multiset.mem_sum.mp ht
    obtain ⟨i, -, rfl⟩ := List.mem_map.mp (Multiset.mem_coe.mp ht)
    exact ⟨_, _, rfl⟩
  · intro b
    have hgroup : ∀ group ∈ Finset.range (2 ^ bits),
        values b (scatterTasks L bits threads stride input group (degreeTwo group) :
          Multiset (Task ℕ ℕ β)) =
        Multiset.mapAddMonoidHom (fun e : Edge => L.pack e.y e.x)
          (((survivors Edge.x edges).filter fun e => (bucketOf bits e.y).toNat = b).filter
            fun e => (bucketOf bits e.x).toNat = group) := by
      intro group hgroup
      rw [scatterTasks_eq hbits hthreads (fun i hi => h.inBucket hlegal hi)
        (hdegrees group (Finset.mem_range.mp hgroup)), values_map_reserve, h group,
        survivors_filter Edge.x edges (fun u => (bucketOf bits u).toNat),
        Multiset.filter_comm]
      rfl
    rw [values_sum, Finset.sum_congr rfl hgroup, ← map_sum,
      sum_filter_eq _ (fun e : Edge => (bucketOf bits e.x).toNat),
      Multiset.filter_eq_self.mpr fun e _ => bucketOf_lt hbits e.x, trimOnce, Multiset.filter_map,
      Multiset.map_map]
    rfl

/-- **A round trims the edges**, unless it drops some; it drops some when a bucket of its output is
too small. -/
theorem TrimRun.contents (hbits : Width bits) (hthreads : 0 < threads) (hL : L.Exact bits)
    (hlegal : ∀ e ∈ edges, Legal e) (h : Contents L bits stride input edges)
    (hrun : TrimRun L bits threads stride input kernel outputStride s s')
    (hcounts : ∀ b, s.counts b = 0) :
    (s.dropped < s'.dropped ↔ ∃ b,
      outputStride < ((trimOnce edges).filter fun e => (bucketOf bits e.x).toNat = b).card) ∧
    (s'.dropped = s.dropped →
      Contents L bits outputStride ⟨s'.mem, s'.counts⟩ (trimOnce edges)) := by
  obtain ⟨tasks, hscatter, hreserve, hvalues⟩ := hrun.values_eq hbits hthreads hlegal h
  constructor
  · rw [dropped_iff hscatter hcounts hreserve]
    simp only [hvalues, Multiset.card_map]
  · exact contents_of_completes hL (legal_trimOnce hlegal) hscatter hcounts hreserve hvalues

/-! ## No edge is lost -/

theorem used_place (stride b count : ℕ) : used (place stride) b count = min count stride := by
  induction count with
  | zero => simp [used]
  | succ count ih =>
    have hsome : (place stride b count).isSome = true ↔ count < stride := by
      rw [← not_iff_not, Bool.not_eq_true, Option.isSome_eq_false_iff, Option.isNone_iff_eq_none,
        place_eq_none_iff, not_lt]
    rw [used_succ, ih]
    split_ifs with hplace
    · have := hsome.mp hplace
      omega
    · have := hsome.not.mp hplace
      omega

/-- The edges that can be read and the dropped ones are all edges. -/
theorem sum_edgeCount (h : Completes (Scatter.step (place stride)) tasks s s')
    (hcounts : ∀ b, s.counts b = 0) (hwithin : Within (Finset.range (2 ^ bits)) tasks) :
    ∑ group ∈ Finset.range (2 ^ bits), edgeCount stride ⟨s'.mem, s'.counts⟩ group + s'.dropped =
      s.dropped + (tasks.map Task.size).sum := by
  have haccount := completes_account h hwithin
  simp only [account, used_place, hcounts, Nat.zero_min, Finset.sum_const_zero,
    Nat.zero_add] at haccount
  exact haccount

theorem within_of_map {α : Type} (hbits : Width bits) (l : List α) (f : α → UInt32) (g : α → β) :
    Within (Finset.range (2 ^ bits))
      ((l.map fun e => .reserve (bucketOf bits (f e)).toNat [g e] : List (Task ℕ ℕ β)) :
        Multiset (Task ℕ ℕ β)) := by
  intro b vs hmem
  obtain ⟨e, -, heq⟩ := List.mem_map.mp (Multiset.mem_coe.mp hmem)
  cases heq
  exact Finset.mem_range.mpr (bucketOf_lt hbits (f e))

theorem size_of_map {α : Type} (l : List α) (f : α → ℕ) (g : α → β) :
    (((l.map fun e => .reserve (f e) [g e] : List (Task ℕ ℕ β)) : Multiset (Task ℕ ℕ β)).map
      Task.size).sum = l.length := by
  rw [Multiset.map_coe, Multiset.sum_coe, List.map_map]
  induction l with
  | nil => rfl
  | cons e l ih =>
    rw [List.map_cons, List.sum_cons, ih, List.length_cons, Nat.add_comm]
    rfl

/-- A round reads no more edges than it was given. -/
theorem TrimRun.sum_edgeCount_le (hbits : Width bits) (hthreads : 0 < threads)
    (hrun : TrimRun L bits threads stride input kernel outputStride s s')
    (hcounts : ∀ b, s.counts b = 0) :
    ∑ group ∈ Finset.range (2 ^ bits), edgeCount outputStride ⟨s'.mem, s'.counts⟩ group +
      s'.dropped ≤
      ∑ group ∈ Finset.range (2 ^ bits), edgeCount stride input group + s.dropped := by
  obtain ⟨degreeTwo, -, hscatter⟩ := hrun
  have hwithin : Within (Finset.range (2 ^ bits)) (∑ group ∈ Finset.range (2 ^ bits),
      (scatterTasks L bits threads stride input group (degreeTwo group) :
        Multiset (Task ℕ ℕ β))) := by
    intro b vs hmem
    obtain ⟨group, -, hmem⟩ := Multiset.mem_sum.mp hmem
    exact within_of_map hbits _ (fun i => (readEdge L stride input group i).y) _ b vs hmem
  rw [sum_edgeCount hscatter hcounts hwithin, size_sum, Nat.add_comm]
  refine Nat.add_le_add_right (Finset.sum_le_sum fun group _ => ?_) _
  rw [scatterTasks, size_of_map, visited, laneIndices_eq hthreads]
  exact (List.length_filter_le _ _).trans_eq List.length_range

end

/-! ## The trim chain -/

section

variable {bits sparseTrimStart rounds dropped : ℕ} {lowMemory : Bool} {hash : ℕ → UInt64}
  {input : Buckets (StoredEdge lowMemory)}

theorem inputStride_succ (bits : ℕ) (lowMemory : Bool) (round : ℕ) :
    inputStride bits lowMemory (round + 1) = outputStride bits lowMemory round := by
  cases lowMemory with
  | true => rfl
  | false =>
    rcases Nat.mod_two_eq_zero_or_one round with hround | hround
    · simp [inputStride, outputStride, Nat.add_mod, hround]
    · simp [inputStride, outputStride, Nat.add_mod, hround]

theorem legal_of_mem_seeded {e : Edge} (h : e ∈ seeded hash) : Legal e := by
  obtain ⟨nonce, -, rfl⟩ := List.mem_map.mp h
  have hmask : ∀ a : ℕ, a &&& edgeMask.toNat < 2 ^ 30 := fun a =>
    Nat.and_lt_two_pow a (by decide)
  constructor
  · rw [seedEdge, UInt32.toNat_and]
    exact hmask _
  · rw [seedEdge, UInt32.toNat_and]
    exact hmask _

theorem seedTasks_reserve {β : Type} (L : Layout β) (bits : ℕ) (hash : ℕ → UInt64) :
    ∀ t ∈ (seedTasks L bits hash : Multiset (Task ℕ ℕ β)), ∃ b vs, t = .reserve b vs := by
  intro t ht
  obtain ⟨e, -, rfl⟩ := List.mem_map.mp (Multiset.mem_coe.mp ht)
  exact ⟨_, _, rfl⟩

theorem values_seedTasks {β : Type} (L : Layout β) (bits : ℕ) (hash : ℕ → UInt64) (b : ℕ) :
    values b (seedTasks L bits hash : Multiset (Task ℕ ℕ β)) =
      ((seeded hash : Multiset Edge).filter fun e => (bucketOf bits e.x).toNat = b).map
        fun e => L.pack e.x e.y := by
  rw [seedTasks, ← Multiset.map_coe, values_map_reserve]

/-- The chain drops an edge at most once, and trims the graph unless it drops one. -/
theorem TrimChain.contents (hbits : Width bits)
    (h : TrimChain bits lowMemory sparseTrimStart hash rounds input dropped) :
    ∑ group ∈ Finset.range (2 ^ bits),
      edgeCount (inputStride bits lowMemory rounds) input group + dropped ≤ 2 ^ 30 ∧
    (dropped = 0 → Contents (layout bits lowMemory) bits (inputStride bits lowMemory rounds) input
      (trimOnce^[rounds] (seeded hash)) ∧ ∀ e ∈ trimOnce^[rounds] (seeded hash), Legal e) := by
  have hL := exact_layout hbits lowMemory
  induction h with
  | @seed edges s hrun =>
    have hstride : inputStride bits lowMemory 0 = seedBucketStride bits := by
      cases lowMemory <;> rfl
    rw [hstride]
    have hlegal : ∀ e ∈ (seeded hash : Multiset Edge), Legal e :=
      fun e he => legal_of_mem_seeded (Multiset.mem_coe.mp he)
    refine ⟨?_, fun hdropped => ⟨contents_of_completes hL hlegal hrun (fun _ => rfl)
      (seedTasks_reserve _ _ _) (values_seedTasks _ _ _) hdropped, hlegal⟩⟩
    rw [sum_edgeCount hrun (fun _ => rfl) (within_of_map hbits _ Edge.x _), seedTasks, size_of_map,
      seeded, List.length_map, List.length_range, Nat.zero_add]
  | @round round threads dropped input edges s _ hthreads hrun ih =>
    obtain ⟨hsum, hcontents⟩ := ih
    rw [inputStride_succ, Function.iterate_succ_apply']
    refine ⟨(hrun.sum_edgeCount_le hbits hthreads fun _ => rfl).trans hsum, fun hdropped => ?_⟩
    have hbefore : dropped = 0 := by
      obtain ⟨_, -, hscatter⟩ := hrun
      have hle := dropped_le hscatter
      simp only [hdropped] at hle
      omega
    obtain ⟨hcontents, hlegal⟩ := hcontents hbefore
    refine ⟨?_, legal_trimOnce hlegal⟩
    exact (hrun.contents hbits hthreads hL hlegal hcontents fun _ => rfl).2
      (hdropped.trans hbefore.symm)

/-- The overflow word tells whether an edge was dropped. -/
theorem TrimChain.overflow_iff (hbits : Width bits)
    (h : TrimChain bits lowMemory sparseTrimStart hash rounds input dropped) :
    UInt32.ofNat dropped ≠ 0 ↔ 0 < dropped := by
  have hle := (h.contents hbits).1
  have hlt : dropped < 2 ^ 32 := by omega
  rw [Ne, ← UInt32.toNat_inj, UInt32.toNat_ofNat', Nat.mod_eq_of_lt hlt, UInt32.toNat_zero]
  omega

/-- **The trim kernels agree.** Packed edges are read back; the sparse table finds every key; every
kernel, in both layouts and under every schedule, puts out the edges of a bucket whose first
endpoint occurs twice in it, with the sides exchanged; a round drops an edge exactly when a bucket
of its output has too few places, and otherwise its output buckets hold the trimmed edges; the host
gives up when an edge was dropped, or else has the fully trimmed graph. -/
theorem trim_kernels_agree {bits : ℕ} (hbits : Width bits) :
    (∀ u v : UInt32, u.toNat < 2 ^ 30 → v.toNat < 2 ^ 30 →
      unpackU bits (packEdge bits u v) (bucketOf bits u) = u ∧
      unpackV (packEdge bits u v) = v) ∧
    (∀ (keys : Multiset UInt32) (table : ℕ → UInt32), keys.card ≤ 512 →
      (∀ k ∈ keys, ∃ u : UInt32, u.toNat < 2 ^ 30 ∧ k = sparseKey bits u) →
      Completes (ProbeTable.step sparseCells sparseTableSize slotOf)
        (keys.map fun k => .look k 0) (fun _ => 0) table →
      ∀ k ∈ keys, Found table k ∧ (sparseDegreeTwo table k = true ↔ 2 ≤ keys.count k)) ∧
    (∀ (lowMemory : Bool) (kernel : Kernel) (threads stride : ℕ)
      (input : Buckets (StoredEdge lowMemory)) (group : ℕ) (degreeTwo : ℕ → Bool), 0 < threads →
      (∀ i < edgeCount stride input group,
        InBucket bits group (readEdge (layout bits lowMemory) stride input group i)) →
      Degrees (layout bits lowMemory) bits threads stride input group degreeTwo kernel →
      (scatterTasks (layout bits lowMemory) bits threads stride input group degreeTwo :
        Multiset (Task ℕ ℕ (StoredEdge lowMemory))) =
      (survivors Edge.x
        (bucketEdges (layout bits lowMemory) stride input group : Multiset Edge)).map fun e =>
          .reserve (bucketOf bits e.y).toNat [(layout bits lowMemory).pack e.y e.x]) ∧
    (∀ (lowMemory : Bool) (kernel : Kernel) (threads stride outputStride : ℕ)
      (input : Buckets (StoredEdge lowMemory)) (edges : Multiset Edge)
      (s s' : Scatter.State ℕ ℕ (StoredEdge lowMemory)), 0 < threads →
      (∀ e ∈ edges, Legal e) → Contents (layout bits lowMemory) bits stride input edges →
      (∀ b, s.counts b = 0) →
      TrimRun (layout bits lowMemory) bits threads stride input kernel outputStride s s' →
      (s.dropped < s'.dropped ↔ ∃ b, outputStride <
        ((trimOnce edges).filter fun e => (bucketOf bits e.x).toNat = b).card) ∧
      (s'.dropped = s.dropped → Contents (layout bits lowMemory) bits outputStride
        ⟨s'.mem, s'.counts⟩ (trimOnce edges))) ∧
    (∀ (lowMemory : Bool) (sparseTrimStart rounds dropped : ℕ) (hash : ℕ → UInt64)
      (input : Buckets (StoredEdge lowMemory)),
      TrimChain bits lowMemory sparseTrimStart hash rounds input dropped →
      (0 < dropped → trimmedGraph bits lowMemory rounds input dropped =
        .error "c30 fixed bucket overflow") ∧
      (dropped = 0 → trimmedGraph bits lowMemory rounds input dropped =
        .ok (trimOnce^[rounds] (seeded hash)))) := by
  refine ⟨?_, ?_, ?_, ?_, ?_⟩
  · exact fun u v hu hv => ⟨unpackU_packEdge hbits hu hv, unpackV_packEdge hbits hu hv⟩
  · intro keys table hcard hkeys hrun k hk
    refine sparseDegreeTwo_iff hcard (fun k hk => ?_) hrun hk
    obtain ⟨u, hu, rfl⟩ := hkeys k hk
    exact valid_sparseKey hbits hu
  · intro lowMemory kernel threads stride input group degreeTwo hthreads hcontent hdegrees
    exact scatterTasks_eq hbits hthreads hcontent hdegrees
  · intro lowMemory kernel threads stride outputStride input edges s s' hthreads hlegal hcontents
      hcounts hrun
    exact hrun.contents hbits hthreads (exact_layout hbits lowMemory) hlegal hcontents hcounts
  · intro lowMemory sparseTrimStart rounds dropped hash input hchain
    constructor
    · intro hdropped
      rw [trimmedGraph, if_pos ((hchain.overflow_iff hbits).mpr hdropped)]
    · rintro rfl
      rw [trimmedGraph, if_neg (by simp), ((hchain.contents hbits).2 rfl).1.bufferEdges_eq hbits]

/-- A graph whose edges all fall into one bucket. -/
theorem exists_overflow : ∃ (input : Buckets (StoredEdge true)) (dropped : ℕ), 0 < dropped ∧
    TrimChain 12 true 64 (fun _ => 0) 0 input dropped := by
  obtain ⟨s, hrun⟩ := exists_completes_tasks (place (seedBucketStride 12))
    (seedTasks (layout 12 true) 12 (fun _ => 0) : Multiset (Task ℕ ℕ (StoredEdge true)))
    ⟨fun _ => 0, fun _ => (⟨0, 0, 0⟩ : PackedEdge), 0⟩
  refine ⟨_, s.dropped, ?_, .seed hrun⟩
  refine (dropped_iff hrun (fun _ => rfl) (seedTasks_reserve _ _ _)).mpr ⟨0, ?_⟩
  have hall : (seeded fun _ => 0 : Multiset Edge).filter
      (fun e => (bucketOf 12 e.x).toNat = 0) = (seeded fun _ => 0 : Multiset Edge) := by
    rw [Multiset.filter_eq_self]
    intro e he
    obtain ⟨nonce, -, rfl⟩ := List.mem_map.mp (Multiset.mem_coe.mp he)
    exact (by decide : (bucketOf 12 (seedEdge 0).x).toNat = 0)
  rw [values_seedTasks, Multiset.card_map, hall, Multiset.coe_card, seeded, List.length_map,
    List.length_range]
  decide

/-- Such a graph is given up. -/
theorem trim_kernels_agree_overflow : ∃ (input : Buckets (StoredEdge true)) (dropped : ℕ),
    TrimChain 12 true 64 (fun _ => 0) 0 input dropped ∧
    trimmedGraph 12 true 0 input dropped = .error "c30 fixed bucket overflow" := by
  obtain ⟨input, dropped, hdropped, hchain⟩ := exists_overflow
  refine ⟨input, dropped, hchain, ?_⟩
  exact ((trim_kernels_agree (.inl rfl)).2.2.2.2 true 64 0 dropped _ input hchain).1 hdropped

end

end MoMiner.C30
