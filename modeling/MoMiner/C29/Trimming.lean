import Mathlib.Combinatorics.SimpleGraph.Connectivity.Subgraph
import Mathlib.Data.Set.Card
import MoMiner.C29.Trim

/-!
# Trimming keeps every cycle

The contents of the buckets are a multiset of edges (`Stored`): every bucket holds, in its first
places, the edges whose first endpoint belongs to it. One argument serves the three kinds of rounds
(`TrimRun.stored`): whatever the schedule, a round turns the stored edges into the edges whose first
endpoint occurs at least twice, with the sides exchanged.

Main result: `trimming_keeps_cycles`.
-/

namespace MoMiner.C29

open Planes Scatter

/-! ## What the buckets hold -/

/-- The buckets hold the edges, by their first endpoint. -/
def Stored {κ : Type} (slots : Slots κ) (bucket : UInt32 → ℕ) (mem : κ → Edge) (counts : ℕ → ℕ)
    (edges : Multiset Edge) : Prop :=
  ∀ b, ∃ log : List Edge, counts b = log.length ∧ log.length ≤ slots.room b ∧
    (log : Multiset Edge) = edges.filter (fun e => bucket e.x = b) ∧
    ∀ i e, log[i]? = some e → mem (slots.address b i) = e

/-- No two places share an address. -/
def Slots.Apart {κ : Type} (slots : Slots κ) : Prop :=
  ∀ b i b' i', i < slots.room b → i' < slots.room b' → slots.address b i = slots.address b' i' →
    b = b' ∧ i = i'

section

variable {κ : Type} {slots : Slots κ} {bucket : UInt32 → ℕ} {mem : κ → Edge} {counts : ℕ → ℕ}
  {edges : Multiset Edge}

/-- A group reads the edges of its bucket. -/
theorem Stored.bucketEdges_eq (h : Stored slots bucket mem counts edges) {threads : ℕ}
    (hthreads : 0 < threads) (group : ℕ) :
    (bucketEdges threads slots mem counts group : Multiset Edge) =
      edges.filter fun e => bucket e.x = group := by
  obtain ⟨log, hcount, hroom, hlog, hmem⟩ := h group
  rw [bucketEdges, hcount, Nat.min_eq_left hroom, laneIndices_eq hthreads, ← hlog]
  congr 1
  apply List.ext_getElem
  · simp
  · intro i hi hi'
    rw [List.getElem_map, List.getElem_range]
    exact hmem i _ (List.getElem?_eq_getElem hi')

/-- Buckets that do not exist are empty. -/
theorem Stored.clear_eq (h : Stored slots bucket mem counts edges) {bits : ℕ}
    (hbucket : ∀ u, bucket u < 2 ^ bits) (b : ℕ) : clear bits counts b = 0 := by
  rw [clear]
  split_ifs with hb
  · rfl
  · obtain ⟨log, hcount, -, hlog, -⟩ := h b
    rw [Multiset.filter_eq_nil.mpr, Multiset.coe_eq_zero] at hlog
    · rw [hcount, hlog, List.length_nil]
    · rintro e - rfl
      exact hb (hbucket e.x)

/-- **Scattered edges are stored**, when no bucket has more of them than places. -/
theorem stored_of_completes [DecidableEq κ] {place : ℕ → ℕ → Option κ}
    {tasks : Multiset (Task ℕ κ Edge)} {s s' : Scatter.State ℕ κ Edge}
    (h : Completes (Scatter.step place) tasks s s') (hapart : slots.Apart)
    (hplace : ∀ b i, i < slots.room b → place b i = some (slots.address b i))
    (hcounts : ∀ b, s.counts b = 0)
    (hreserve : ∀ t ∈ tasks, ∃ b vs, t = .reserve b vs)
    (hfits : ∀ b, s'.counts b ≤ slots.room b)
    (hvalues : ∀ b, values b tasks = edges.filter fun e => bucket e.x = b) :
    Stored slots bucket s'.mem s'.counts edges := by
  obtain ⟨log, hlength, hlog, hmem, -⟩ := completes_log h hcounts hreserve
  have hcard : ∀ b, (values b tasks).card ≤ slots.room b := by
    intro b
    rw [← hlog b, Multiset.coe_card, ← hlength b]
    exact hfits b
  have hseparate : Separate place fun b => values b tasks := by
    intro b i b' i' k hi hi' hk hk'
    have hroom := hi.trans_le (hcard b)
    have hroom' := hi'.trans_le (hcard b')
    rw [hplace b i hroom] at hk
    rw [hplace b' i' hroom', ← hk] at hk'
    exact hapart b i b' i' hroom hroom' (Option.some.inj hk').symm
  intro b
  have hroom : (log b).length ≤ slots.room b := hlength b ▸ hfits b
  refine ⟨log b, hlength b, hroom, (hlog b).trans (hvalues b), ?_⟩
  intro i e he
  obtain ⟨hi, -⟩ := List.getElem?_eq_some_iff.mp he
  exact hmem hseparate b i e _ he (hplace b i (hi.trans_le hroom))

end

/-! ## Buckets and counters -/

/-- The widths of the bucket numbers. -/
def Width (bits : ℕ) : Prop :=
  bits = 12 ∨ bits = 14

/-- An edge that seeding can produce. -/
structure Legal (e : Edge) : Prop where
  present : present e = true
  x_lt : e.x.toNat < 2 ^ 29
  y_lt : e.y.toNat < 2 ^ 29

theorem Legal.swap {e : Edge} (h : Legal e) : Legal e.swap := by
  refine ⟨?_, h.y_lt, h.x_lt⟩
  have hpresent := h.present
  rw [C29.present, decide_eq_true_iff] at hpresent ⊢
  exact hpresent.symm

theorem swap_swap (e : Edge) : e.swap.swap = e := rfl

theorem legal_of_mem_seeded {lookups : List UInt64} {e : Edge} (h : e ∈ seeded lookups) :
    Legal e := by
  obtain ⟨hmem, hpresent⟩ := List.mem_filter.mp h
  obtain ⟨lookup, -, rfl⟩ := List.mem_map.mp hmem
  have hmask : ∀ a : ℕ, a &&& edgeMask.toNat < 2 ^ 29 := fun a =>
    Nat.and_lt_two_pow a (by decide)
  refine ⟨hpresent, ?_, ?_⟩
  · rw [seedEdge, UInt64.toNat_toUInt32, UInt64.toNat_and, UInt32.toNat_toUInt64]
    exact (Nat.mod_le _ _).trans_lt (hmask _)
  · rw [seedEdge, UInt64.toNat_toUInt32, UInt64.toNat_and, UInt32.toNat_toUInt64]
    exact (Nat.mod_le _ _).trans_lt (hmask _)

section

variable {bits : ℕ} (hbits : Width bits)
include hbits

theorem trimBucket_eq (v : UInt32) : trimBucket bits v = v.toNat % 2 ^ bits := by
  have hmask : ((1 <<< UInt32.ofNat bits) - 1 : UInt32).toNat = 2 ^ bits - 1 := by
    rcases hbits with rfl | rfl <;> rfl
  rw [trimBucket, UInt32.toNat_and, hmask, Nat.and_two_pow_sub_one_eq_mod]

theorem trimBucket_lt (v : UInt32) : trimBucket bits v < 2 ^ bits := by
  rw [trimBucket_eq hbits]
  exact Nat.mod_lt _ (Nat.two_pow_pos _)

/-- The bucket of a seeded edge: the two parts of its low bits, exchanged. -/
theorem seedBucket_eq (u : UInt32) :
    seedBucket bits u = u.toNat % 2 ^ (bits - 6) * 64 + u.toNat / 2 ^ (bits - 6) % 64 := by
  have hmask : ((1 <<< UInt32.ofNat (bits - 6)) - 1 : UInt32).toNat = 2 ^ (bits - 6) - 1 := by
    rcases hbits with rfl | rfl <;> rfl
  have hshift : (UInt32.ofNat (bits - 6)).toNat % 32 = bits - 6 := by
    rcases hbits with rfl | rfl <;> rfl
  have hlow : u.toNat % 2 ^ (bits - 6) * 2 ^ 6 < 2 ^ 32 := by
    have hlt := Nat.mod_lt u.toNat (Nat.two_pow_pos (bits - 6))
    rcases hbits with rfl | rfl <;> omega
  rw [seedBucket, UInt32.toNat_or, UInt32.toNat_shiftLeft, UInt32.toNat_and, hmask,
    UInt32.toNat_and, UInt32.toNat_shiftRight, hshift, Nat.and_two_pow_sub_one_eq_mod,
    show UInt32.toNat 63 = 2 ^ 6 - 1 from rfl, Nat.and_two_pow_sub_one_eq_mod,
    show UInt32.toNat 6 % 32 = 6 from rfl, Nat.shiftLeft_eq, Nat.mod_eq_of_lt hlow,
    Nat.shiftRight_eq_div_pow, Nat.mul_comm _ (2 ^ 6),
    ← Nat.two_pow_add_eq_or_of_lt (Nat.mod_lt _ (Nat.two_pow_pos 6)), Nat.mul_comm (2 ^ 6)]

theorem seedBucket_lt (u : UInt32) : seedBucket bits u < 2 ^ bits := by
  rw [seedBucket_eq hbits]
  rcases hbits with rfl | rfl <;> omega

theorem counterId_eq {e : Edge} (h : Legal e) : counterId bits e = e.x.toNat / 2 ^ bits := by
  have hshift : (UInt32.ofNat bits).toNat % 32 = bits := by
    rcases hbits with rfl | rfl <;> rfl
  rw [counterId, UInt32.toNat_shiftRight, hshift, UInt32.toNat_and,
    show edgeMask.toNat = 2 ^ 29 - 1 from rfl, Nat.and_two_pow_sub_one_eq_mod,
    Nat.mod_eq_of_lt h.x_lt, Nat.shiftRight_eq_div_pow]

theorem counterId_lt {e : Edge} (h : Legal e) : counterId bits e < 32 * counterWords bits := by
  have hlt := h.x_lt
  rw [counterId_eq hbits h, counterWords]
  rcases hbits with rfl | rfl <;> omega

end

/-- The bucket and the counter of an endpoint determine it. -/
structure Splits (bits : ℕ) (bucket : UInt32 → ℕ) : Prop where
  lt : ∀ u, bucket u < 2 ^ bits
  injective : ∀ u u' : UInt32, u.toNat / 2 ^ bits = u'.toNat / 2 ^ bits → bucket u = bucket u' →
    u = u'

theorem splits_trimBucket {bits : ℕ} (hbits : Width bits) : Splits bits (trimBucket bits) := by
  refine ⟨trimBucket_lt hbits, fun u u' hhigh hlow => UInt32.toNat_inj.mp ?_⟩
  rw [trimBucket_eq hbits, trimBucket_eq hbits] at hlow
  rw [← Nat.div_add_mod u.toNat (2 ^ bits), ← Nat.div_add_mod u'.toNat (2 ^ bits), hhigh, hlow]

theorem splits_seedBucket {bits : ℕ} (hbits : Width bits) : Splits bits (seedBucket bits) := by
  refine ⟨seedBucket_lt hbits, fun u u' hhigh hlow => UInt32.toNat_inj.mp ?_⟩
  rw [seedBucket_eq hbits, seedBucket_eq hbits] at hlow
  rcases hbits with rfl | rfl <;> omega

/-! ## A round -/

section

variable {κ : Type} {bits threads : ℕ} {source : Slots κ} {dest : Slots ℕ} {bucket : UInt32 → ℕ}
  {mem : κ → Edge} {counts : ℕ → ℕ} {s s' : Scatter.State ℕ ℕ Edge} {edges : Multiset Edge}

/-- The edges that a group keeps: those whose first endpoint occurs twice. -/
theorem kept_eq (hbits : Width bits) (hthreads : 0 < threads) (hsplits : Splits bits bucket)
    (hlegal : ∀ e ∈ edges, Legal e) (h : Stored source bucket mem counts edges) {group : ℕ}
    {counters : ℕ → UInt32}
    (hcount : Completes (Planes.step (counterWords bits))
      (countTasks bits (bucketEdges threads source mem counts group)) (fun _ => 0) counters) :
    ((bucketEdges threads source mem counts group : Multiset Edge).filter fun e =>
      (present e && degreeTwo (counterWords bits) counters (counterId bits e)) = true) =
      (survivors Edge.x edges).filter fun e => bucket e.x = group := by
  have hread := h.bucketEdges_eq hthreads group
  have hpresent : (bucketEdges threads source mem counts group).filter present =
      bucketEdges threads source mem counts group := by
    rw [List.filter_eq_self]
    intro e he
    rw [← Multiset.mem_coe, hread] at he
    exact (hlegal e (Multiset.mem_of_mem_filter he)).present
  rw [countTasks, hpresent, ← Multiset.map_coe, hread] at hcount
  rw [hread, ← survivors_filter]
  have hlegal' : ∀ e ∈ edges.filter (fun e => bucket e.x = group), Legal e := fun e he =>
    hlegal e (Multiset.mem_of_mem_filter he)
  have hkeys : survivors (counterId bits) (edges.filter fun e => bucket e.x = group) =
      survivors Edge.x (edges.filter fun e => bucket e.x = group) := by
    apply survivors_congr
    intro e he e' he'
    rw [counterId_eq hbits (hlegal' e he), counterId_eq hbits (hlegal' e' he')]
    constructor
    · intro hhigh
      refine hsplits.injective _ _ hhigh ?_
      rw [(Multiset.mem_filter.mp he).2, (Multiset.mem_filter.mp he').2]
    · intro heq
      rw [heq]
  rw [← hkeys, ← filter_degreeTwo hcount fun e he => counterId_lt hbits (hlegal' e he)]
  apply Multiset.filter_congr
  intro e he
  rw [(hlegal' e he).present, Bool.true_and]

/-- The edges that a round puts into a bucket. -/
theorem values_scatterTasks (hsplits : Splits bits bucket) {kept : ℕ → Multiset (Task ℕ ℕ Edge)}
    (hkept : ∀ group < 2 ^ bits, kept group =
      ((survivors Edge.x edges).filter fun e => bucket e.x = group).map fun e =>
        .reserve (trimBucket bits e.y) [e.swap]) (b : ℕ) :
    values b (∑ group ∈ Finset.range (2 ^ bits), kept group) =
      ((survivors Edge.x edges).map Edge.swap).filter fun e => trimBucket bits e.x = b := by
  have hgroup : ∀ group ∈ Finset.range (2 ^ bits), values b (kept group) =
      (((survivors Edge.x edges).map Edge.swap).filter fun e => trimBucket bits e.x = b).filter
        fun e => bucket e.y = group := by
    intro group hgroup
    rw [hkept group (Finset.mem_range.mp hgroup), values_map_reserve, Multiset.filter_map,
      Multiset.filter_map, Multiset.filter_filter, Multiset.filter_filter]
    congr 1
    apply Multiset.filter_congr
    intro e _
    exact and_comm
  rw [values_sum, Finset.sum_congr rfl hgroup, sum_filter_eq, Multiset.filter_eq_self]
  intro e _
  exact hsplits.lt e.y

/-- The tasks of a round put the edges whose first endpoint occurs at least twice, with the sides
exchanged, into their buckets. -/
theorem TrimRun.values_eq (hbits : Width bits) (hthreads : 0 < threads)
    (hsplits : Splits bits bucket) (hlegal : ∀ e ∈ edges, Legal e)
    (h : Stored source bucket mem counts edges)
    (hrun : TrimRun bits threads source dest mem counts s s') :
    ∃ tasks : Multiset (Task ℕ ℕ Edge), Completes (Scatter.step (trimPlace dest)) tasks s s' ∧
      (∀ t ∈ tasks, ∃ b vs, t = .reserve b vs) ∧
      ∀ b, values b tasks =
        ((survivors Edge.x edges).map Edge.swap).filter fun e => trimBucket bits e.x = b := by
  obtain ⟨counters, hcount, hscatter⟩ := hrun
  refine ⟨_, hscatter, ?_, ?_⟩
  · intro t ht
    obtain ⟨group, -, ht⟩ := Multiset.mem_sum.mp ht
    obtain ⟨e, -, rfl⟩ := List.mem_map.mp (Multiset.mem_coe.mp ht)
    exact ⟨_, _, rfl⟩
  · refine values_scatterTasks hsplits fun group hgroup => ?_
    rw [← kept_eq hbits hthreads hsplits hlegal h (hcount group hgroup), scatterTasks,
      Multiset.filter_coe, Multiset.map_coe]
    simp

/-- **A round keeps the edges whose first endpoint occurs at least twice**, each once, and exchanges
their sides. -/
theorem TrimRun.stored (hbits : Width bits) (hthreads : 0 < threads)
    (hsplits : Splits bits bucket) (hlegal : ∀ e ∈ edges, Legal e) (hapart : dest.Apart)
    (h : Stored source bucket mem counts edges)
    (hrun : TrimRun bits threads source dest mem counts s s') (hcounts : ∀ b, s.counts b = 0)
    (hfits : ∀ b, s'.counts b ≤ dest.room b) :
    Stored dest (trimBucket bits) s'.mem s'.counts ((survivors Edge.x edges).map Edge.swap) := by
  obtain ⟨tasks, hscatter, hreserve, hvalues⟩ := hrun.values_eq hbits hthreads hsplits hlegal h
  refine stored_of_completes hscatter hapart ?_ hcounts hreserve hfits hvalues
  intro b i hi
  rw [trimPlace, Nat.min_eq_left (by omega)]

/-- No bucket gets more edges than there are. -/
theorem TrimRun.counts_le (hbits : Width bits) (hthreads : 0 < threads)
    (hsplits : Splits bits bucket) (hlegal : ∀ e ∈ edges, Legal e)
    (h : Stored source bucket mem counts edges)
    (hrun : TrimRun bits threads source dest mem counts s s') (hcounts : ∀ b, s.counts b = 0)
    (b : ℕ) : s'.counts b ≤ edges.card := by
  obtain ⟨tasks, hscatter, hreserve, hvalues⟩ := hrun.values_eq hbits hthreads hsplits hlegal h
  rw [counts_eq_card hscatter hcounts hreserve, hvalues]
  calc _ ≤ ((survivors Edge.x edges).map Edge.swap).card :=
        Multiset.card_le_card (Multiset.filter_le _ _)
    _ ≤ edges.card := by
        rw [Multiset.card_map]
        exact Multiset.card_le_card (survivors_le _ _)

/-- A round has runs. -/
theorem exists_trimRun (bits threads : ℕ) (source : Slots κ) (dest : Slots ℕ) (mem : κ → Edge)
    (counts : ℕ → ℕ) (s : Scatter.State ℕ ℕ Edge) :
    ∃ s', TrimRun bits threads source dest mem counts s s' := by
  choose counters hcount using fun group => exists_completes_marks (counterWords bits)
    (countTasks bits (bucketEdges threads source mem counts group)) (fun _ => 0)
  obtain ⟨s', hscatter⟩ := exists_completes_tasks (trimPlace dest) _ s
  exact ⟨s', counters, fun group _ => hcount group, hscatter⟩

end

/-! ## The layouts -/

theorem apart_initialSlots (bits : ℕ) : (initialSlots bits).Apart := by
  intro b i b' i' hi hi' heq
  simp only [initialSlots] at hi hi' heq
  generalize initialBuckets bits = p at hi hi' heq
  obtain ⟨edges, a1Buckets⟩ := p
  simp only at hi hi' heq
  split_ifs at heq with hb hb' hb'
  · exact place_injective hi hi' (Prod.mk.inj heq).2
  · cases (Prod.mk.inj heq).1
  · cases (Prod.mk.inj heq).1
  · obtain ⟨hsub, hplace⟩ := place_injective hi hi' (Prod.mk.inj heq).2
    exact ⟨by omega, hplace⟩

theorem apart_plainSlots (bits : ℕ) : (plainSlots bits).Apart := by
  intro b i b' i' hi hi' heq
  exact place_injective hi hi' heq

theorem apart_offsetSlots (bits : ℕ) : (offsetSlots bits).Apart := by
  intro b i b' i' hi hi' heq
  simp only [offsetSlots, Nat.add_assoc] at hi hi' heq
  obtain ⟨rfl, hplace⟩ := place_injective (by omega) (by omega) heq
  exact ⟨rfl, by omega⟩

/-! ## Runs of the host -/

variable {bits : ℕ} {lookups : List UInt64} {p p' : TrimPhase} {d d' : Device}
  {edges : Multiset Edge}

/-- The buckets of a phase hold the edges, and the other counts are clear. -/
def Holds (bits : ℕ) (d : Device) (edges : Multiset Edge) : TrimPhase → Prop
  | .seed => Stored (initialSlots bits) (seedBucket bits) d.a d.i2 edges ∧ ∀ b, d.i1 b = 0
  | .first => Stored (plainSlots bits) (trimBucket bits) d.b d.i1 edges ∧ ∀ b, d.i2 b = 0
  | .a => Stored (offsetSlots bits) (trimBucket bits) (fun i => d.a (false, i)) d.i2 edges ∧
    ∀ b, d.i1 b = 0
  | .b => Stored (offsetSlots bits) (trimBucket bits) d.b d.i1 edges ∧ ∀ b, d.i2 b = 0

/-- The groups read the edges of all buckets. -/
theorem Stored.sum_bucketEdges {κ : Type} {slots : Slots κ} {bucket : UInt32 → ℕ}
    {mem : κ → Edge} {counts : ℕ → ℕ} (h : Stored slots bucket mem counts edges)
    (hsplits : Splits bits bucket) {threads : ℕ} (hthreads : 0 < threads) :
    ∑ group ∈ Finset.range (2 ^ bits),
      (bucketEdges threads slots mem counts group : Multiset Edge) = edges := by
  rw [Finset.sum_congr rfl fun b _ => h.bucketEdges_eq hthreads b,
    sum_filter_eq edges (fun e => bucket e.x), Multiset.filter_eq_self]
  intro e _
  exact hsplits.lt e.x

theorem Holds.edges_eq (hbits : Width bits) (h : Holds bits d edges p) :
    d.edges bits p = edges := by
  cases p with
  | seed => exact h.1.sum_bucketEdges (splits_seedBucket hbits) Nat.one_pos
  | first | a | b => exact h.1.sum_bucketEdges (splits_trimBucket hbits) Nat.one_pos

theorem legal_trimOnce (hlegal : ∀ e ∈ edges, Legal e) : ∀ e ∈ trimOnce edges, Legal e := by
  intro e he
  obtain ⟨e', he', rfl⟩ := Multiset.mem_map.mp he
  exact (hlegal e' (Multiset.mem_of_le (survivors_le _ _) he')).swap

/-- A round of the host trims the edges. -/
theorem Holds.round (hbits : Width bits) (hlegal : ∀ e ∈ edges, Legal e)
    (h : Holds bits d edges p) (hround : Round bits p d p' d') (hfits : d'.Fits bits p') :
    Holds bits d' (trimOnce edges) p' := by
  have htrim := splits_trimBucket hbits
  cases hround with
  | round1 hthreads hrun =>
    obtain ⟨s, hrun, rfl⟩ := hrun
    exact ⟨hrun.stored hbits hthreads (splits_seedBucket hbits) hlegal (apart_plainSlots bits) h.1
      h.2 hfits, h.1.clear_eq (seedBucket_lt hbits)⟩
  | roundNo1 hthreads hrun =>
    obtain ⟨s, hrun, rfl⟩ := hrun
    exact ⟨hrun.stored hbits hthreads htrim hlegal (apart_offsetSlots bits) h.1 h.2 hfits,
      h.1.clear_eq htrim.lt⟩
  | trimAToB hthreads hrun =>
    obtain ⟨s, hrun, rfl⟩ := hrun
    exact ⟨hrun.stored hbits hthreads htrim hlegal (apart_offsetSlots bits) h.1 h.2 hfits,
      h.1.clear_eq htrim.lt⟩
  | trimBToA hthreads hrun =>
    obtain ⟨s, hrun, rfl⟩ := hrun
    exact ⟨hrun.stored hbits hthreads htrim hlegal (apart_offsetSlots bits) h.1 h.2 hfits,
      h.1.clear_eq htrim.lt⟩

theorem seedTasks_reserve (bits : ℕ) (lookups : List UInt64) :
    ∀ t ∈ (seedTasks bits lookups : Multiset (Task ℕ (Bool × ℕ) Edge)),
      ∃ b vs, t = .reserve b vs := by
  intro t ht
  obtain ⟨e, -, rfl⟩ := List.mem_map.mp (Multiset.mem_coe.mp ht)
  exact ⟨_, _, rfl⟩

theorem values_seedTasks (bits : ℕ) (lookups : List UInt64) (b : ℕ) :
    values b (seedTasks bits lookups : Multiset (Task ℕ (Bool × ℕ) Edge)) =
      (seeded lookups : Multiset Edge).filter fun e => seedBucket bits e.x = b := by
  rw [seedTasks, ← Multiset.map_coe, values_map_reserve, Multiset.map_id']

/-- Seeding stores the edges of the graph. -/
theorem holds_seed (h1 : ∀ b, d.i1 b = 0) (h2 : ∀ b, d.i2 b = 0)
    (hseed : Seed bits d d' lookups) (hfits : d'.Fits bits .seed) :
    Holds bits d' (seeded lookups) .seed := by
  obtain ⟨s, hrun, rfl⟩ := hseed
  refine ⟨stored_of_completes hrun (apart_initialSlots bits) ?_ h2
    (seedTasks_reserve bits lookups) hfits (values_seedTasks bits lookups), h1⟩
  intro b i hi
  rw [seedPlace, if_pos hi]

/-- How the edges of a phase face: as seeded, or with the sides exchanged. -/
def TrimPhase.facing : TrimPhase → Edge → Edge
  | .seed | .a => id
  | .first | .b => Edge.swap

/-- Every endpoint of the edges, on both sides, has two of them. -/
def TwoEdges (m : Multiset Edge) : Prop :=
  ∀ e ∈ m, 2 ≤ degree Edge.x m e.x ∧ 2 ≤ degree Edge.y m e.y

theorem Round.facing_eq (h : Round bits p d p' d') : p'.facing = Edge.swap ∘ p.facing := by
  cases h <;> rfl

theorem degree_map_swap (m : Multiset Edge) (v : UInt32) :
    degree Edge.x (m.map Edge.swap) v = degree Edge.y m v := by
  rw [degree, Multiset.countP_map, degree, Multiset.countP_eq_card_filter]
  rfl

theorem TwoEdges.degree_facing {m : Multiset Edge} (h : TwoEdges m) (p : TrimPhase) :
    ∀ e ∈ m.map p.facing, 2 ≤ degree Edge.x (m.map p.facing) e.x := by
  have hid : ∀ e ∈ m.map id, 2 ≤ degree Edge.x (m.map id) e.x := by
    rw [Multiset.map_id]
    exact fun e he => (h e he).1
  have hswap : ∀ e ∈ m.map Edge.swap, 2 ≤ degree Edge.x (m.map Edge.swap) e.x := by
    intro e he
    obtain ⟨e', he', rfl⟩ := Multiset.mem_map.mp he
    rw [degree_map_swap]
    exact (h e' he').2
  cases p with
  | seed | a => exact hid
  | first | b => exact hswap

/-- **The rounds remove edges, but no part in which every endpoint has two of them.** -/
theorem Trimmed.holds (hbits : Width bits) (h : Trimmed bits lookups p d) :
    ∃ edges, Holds bits d edges p ∧ (∀ e ∈ edges, Legal e) ∧
      edges ≤ (seeded lookups : Multiset Edge).map p.facing ∧
      ∀ m ≤ (seeded lookups : Multiset Edge), TwoEdges m → m.map p.facing ≤ edges := by
  induction h with
  | seed h1 h2 hseed hfits =>
    refine ⟨seeded lookups, holds_seed h1 h2 hseed hfits, fun e he => legal_of_mem_seeded he, ?_,
      fun m hm _ => ?_⟩
    · rw [TrimPhase.facing, Multiset.map_id]
    · rwa [TrimPhase.facing, Multiset.map_id]
  | round _ hround hfits ih =>
    obtain ⟨edges, hholds, hlegal, hle, hkeep⟩ := ih
    refine ⟨trimOnce edges, hholds.round hbits hlegal hround hfits, legal_trimOnce hlegal, ?_, ?_⟩
    · rw [hround.facing_eq, ← Multiset.map_map]
      exact Multiset.map_le_map ((survivors_le _ _).trans hle)
    · intro m hm htwo
      rw [hround.facing_eq, ← Multiset.map_map]
      exact Multiset.map_le_map (le_survivors (hkeep m hm htwo) (htwo.degree_facing _))

/-! ## The handoff -/

/-- The final kernel hands off the edges of all buckets, when the list has a place for each. -/
theorem Tail.edges_eq {threads capacity : ℕ} {list : List Edge} (hbits : Width bits)
    (hthreads : 0 < threads) (h : Holds bits d edges .b) (htail : Tail bits threads capacity d list)
    (hfits : edges.card ≤ capacity) : (list : Multiset Edge) = edges := by
  obtain ⟨mem, s, hrun, rfl⟩ := htail
  have hreserve : ∀ t ∈ (tailTasks bits threads d : Multiset (Task Unit ℕ Edge)),
      ∃ b vs, t = .reserve b vs := by
    intro t ht
    obtain ⟨group, -, rfl⟩ := List.mem_map.mp (Multiset.mem_coe.mp ht)
    exact ⟨_, _, rfl⟩
  have hvalues : values () (tailTasks bits threads d : Multiset (Task Unit ℕ Edge)) = edges := by
    rw [← h.1.sum_bucketEdges (splits_trimBucket hbits) hthreads, Finset.sum_eq_multiset_sum,
      Finset.range_val, Multiset.range, values, tailTasks, Multiset.map_coe, List.map_map,
      Multiset.map_coe]
    congr 3
  obtain ⟨log, hlength, hlog, hmem, -⟩ := completes_log hrun (fun _ => rfl) hreserve
  have hcard : (log ()).length ≤ capacity := by
    rw [← Multiset.coe_card, hlog, hvalues]
    exact hfits
  have hseparate : Separate (tailPlace capacity)
      fun b => values b (tailTasks bits threads d : Multiset (Task Unit ℕ Edge)) := by
    intro b i b' i' k _ _ hk hk'
    rw [tailPlace, Option.ite_none_right_eq_some] at hk hk'
    exact ⟨rfl, Option.some.inj (hk.2.trans hk'.2.symm)⟩
  rw [hlength, Nat.min_eq_left hcard, ← hvalues, ← hlog]
  congr 1
  apply List.ext_getElem
  · simp
  · intro i hi hi'
    rw [List.getElem_map, List.getElem_range]
    exact hmem hseparate () i _ i (List.getElem?_eq_getElem hi')
      (by rw [tailPlace, if_pos (hi'.trans_le hcard)])

/-! ## Runs exist -/

/-- The phase after a round. -/
def TrimPhase.next : TrimPhase → TrimPhase
  | .seed => .first
  | .first => .a
  | .a => .b
  | .b => .a

/-- Every bucket of a trim round has this many places. -/
theorem le_room (hbits : Width bits) (b : ℕ) : 16384 ≤ (offsetSlots bits).room b := by
  have hand : b &&& 255 ≤ 255 := Nat.and_le_right
  rcases hbits with rfl | rfl
  · simp only [offsetSlots, trimBucketEdges, bucketOffset, Nat.reduceSub, Nat.shiftRight_zero,
      if_true]
    omega
  · exact (by decide : 16384 ≤ trimBucketEdges 14 - 0)

theorem le_room_plainSlots (hbits : Width bits) (b : ℕ) : 16384 ≤ (plainSlots bits).room b :=
  (le_room hbits b).trans (Nat.sub_le _ _)

/-- A few edges can be trimmed further. -/
theorem Holds.exists_round (hbits : Width bits) (hlegal : ∀ e ∈ edges, Legal e)
    (hcard : edges.card ≤ 16384) (h : Holds bits d edges p) :
    ∃ d', Round bits p d p.next d' ∧ d'.Fits bits p.next := by
  have htrim := splits_trimBucket hbits
  have hoffset : ∀ b, edges.card ≤ (offsetSlots bits).room b := fun b =>
    hcard.trans (le_room hbits b)
  cases p with
  | seed =>
    obtain ⟨s, hrun⟩ := exists_trimRun bits 1 (initialSlots bits) (plainSlots bits) d.a d.i2
      ⟨d.i1, d.b, 0⟩
    refine ⟨_, .round1 Nat.one_pos ⟨s, hrun, rfl⟩, fun b => ?_⟩
    exact (hrun.counts_le hbits Nat.one_pos (splits_seedBucket hbits) hlegal h.1 h.2 b).trans
      (hcard.trans (le_room_plainSlots hbits b))
  | first =>
    obtain ⟨s, hrun⟩ := exists_trimRun bits 1 (plainSlots bits) (offsetSlots bits) d.b d.i1
      ⟨d.i2, fun i => d.a (false, i), 0⟩
    refine ⟨_, .roundNo1 Nat.one_pos ⟨s, hrun, rfl⟩, fun b => ?_⟩
    exact (hrun.counts_le hbits Nat.one_pos htrim hlegal h.1 h.2 b).trans (hoffset b)
  | a =>
    obtain ⟨s, hrun⟩ := exists_trimRun bits 1 (offsetSlots bits) (offsetSlots bits)
      (fun i => d.a (false, i)) d.i2 ⟨d.i1, d.b, 0⟩
    refine ⟨_, .trimAToB Nat.one_pos ⟨s, hrun, rfl⟩, fun b => ?_⟩
    exact (hrun.counts_le hbits Nat.one_pos htrim hlegal h.1 h.2 b).trans (hoffset b)
  | b =>
    obtain ⟨s, hrun⟩ := exists_trimRun bits 1 (offsetSlots bits) (offsetSlots bits) d.b d.i1
      ⟨d.i2, fun i => d.a (false, i), 0⟩
    refine ⟨_, .trimBToA Nat.one_pos ⟨s, hrun, rfl⟩, fun b => ?_⟩
    exact (hrun.counts_le hbits Nat.one_pos htrim hlegal h.1 h.2 b).trans (hoffset b)

theorem le_room_initialSlots (hbits : Width bits) (b : ℕ) :
    16384 ≤ (initialSlots bits).room b := by
  have h12 : initialBuckets 12 = (136215, 3848) := by rfl
  have h14 : initialBuckets 14 = (34054, 15391) := by rfl
  rcases hbits with rfl | rfl
  · simp only [initialSlots, h12]
    decide
  · simp only [initialSlots, h14]
    decide

/-- A few edges can be seeded. -/
theorem exists_seed (hbits : Width bits) (hcard : (seeded lookups).length ≤ 16384) :
    ∃ d, Trimmed bits lookups .seed d := by
  let d : Device := ⟨fun _ => ⟨0, 0⟩, fun _ => ⟨0, 0⟩, fun _ => 0, fun _ => 0⟩
  obtain ⟨s, hrun⟩ := exists_completes_tasks (seedPlace bits)
    (seedTasks bits lookups : Multiset (Task ℕ (Bool × ℕ) Edge)) ⟨d.i2, d.a, 0⟩
  refine ⟨_, .seed (d := d) (fun _ => rfl) (fun _ => rfl) ⟨s, hrun, rfl⟩ fun b => ?_⟩
  have hcount := counts_eq_card hrun (fun _ => rfl) (seedTasks_reserve bits lookups) b
  rw [values_seedTasks] at hcount
  calc s.counts b ≤ (seeded lookups : Multiset Edge).card :=
        hcount ▸ Multiset.card_le_card (Multiset.filter_le _ _)
    _ ≤ (initialSlots bits).room b := hcard.trans (le_room_initialSlots hbits b)

/-- A few edges can be trimmed for any number of rounds. -/
theorem exists_trimmed (hbits : Width bits) (hcard : (seeded lookups).length ≤ 16384) (n : ℕ) :
    ∃ d, Trimmed bits lookups (TrimPhase.next^[n] .seed) d := by
  induction n with
  | zero => exact exists_seed hbits hcard
  | succ n ih =>
    obtain ⟨d, hd⟩ := ih
    obtain ⟨edges, hholds, hlegal, hle, -⟩ := hd.holds hbits
    have hfew : edges.card ≤ 16384 := by
      have hle := Multiset.card_le_card hle
      rw [Multiset.card_map, Multiset.coe_card] at hle
      exact hle.trans hcard
    obtain ⟨d', hround, hfits⟩ := hholds.exists_round hbits hlegal hfew
    rw [Function.iterate_succ_apply']
    exact ⟨d', hd.round hround hfits⟩

theorem exists_tail (bits threads capacity : ℕ) (d : Device) :
    ∃ list, Tail bits threads capacity d list := by
  obtain ⟨s, hrun⟩ := exists_completes_tasks (tailPlace capacity)
    (tailTasks bits threads d : Multiset (Task Unit ℕ Edge)) ⟨fun _ => 0, fun _ => ⟨0, 0⟩, 0⟩
  exact ⟨_, _, s, hrun, rfl⟩

/-! ## Cycles -/

/-- The edges of a list that lie on a walk. -/
def onWalk {edges : List Edge} {v : Vertex} (w : (graph edges).Walk v v) : Multiset Edge :=
  (edges : Multiset Edge).filter fun e => e.link ∈ w.edges

/-- An endpoint on a cycle has two edges of the cycle. -/
theorem exists_other_edge {edges : List Edge} {v a : Vertex} {w : (graph edges).Walk v v}
    (hw : w.IsCycle) {e : Edge} (he : e ∈ onWalk w) (ha : a ∈ e.link) :
    ∃ e' ∈ onWalk w, e' ≠ e ∧ a ∈ e'.link := by
  obtain ⟨-, hmem⟩ := Multiset.mem_filter.mp he
  obtain ⟨b, hb⟩ := Sym2.mem_iff_exists.mp ha
  have hsupport : a ∈ w.support := w.fst_mem_support_of_mem_edges (hb ▸ hmem)
  obtain ⟨b₁, b₂, hne, hpair⟩ :=
    Set.ncard_eq_two.mp (hw.ncard_neighborSet_toSubgraph_eq_two hsupport)
  obtain ⟨c, hc, hcb⟩ : ∃ c, c ∈ w.toSubgraph.neighborSet a ∧ c ≠ b := by
    by_cases hfirst : b₁ = b
    · exact ⟨b₂, by simp [hpair], fun heq => hne (hfirst.trans heq.symm)⟩
    · exact ⟨b₁, by simp [hpair], hfirst⟩
  have hedge : s(a, c) ∈ w.edges :=
    w.mem_edges_toSubgraph.mp (SimpleGraph.Subgraph.mem_edgeSet.mpr hc)
  obtain ⟨e', he', hlink⟩ := mem_edgeSet_graph.mp (w.edges_subset_edgeSet hedge)
  refine ⟨e', Multiset.mem_filter.mpr ⟨he', hlink ▸ hedge⟩, ?_, hlink ▸ Sym2.mem_mk_left a c⟩
  rintro rfl
  rw [hb] at hlink
  exact hcb (Sym2.congr_right.mp hlink).symm

/-- The endpoints of a cycle have two of its edges. -/
theorem twoEdges_onWalk {edges : List Edge} {v : Vertex} {w : (graph edges).Walk v v}
    (hw : w.IsCycle) : TwoEdges (onWalk w) := by
  intro e he
  constructor
  · obtain ⟨e', he', hne, hmem⟩ := exists_other_edge (a := .inl e.x) hw he (Sym2.mem_mk_left _ _)
    refine two_le_degree he he' hne ?_
    simpa [Edge.link, eq_comm] using hmem
  · obtain ⟨e', he', hne, hmem⟩ := exists_other_edge (a := .inr e.y) hw he (Sym2.mem_mk_right _ _)
    refine two_le_degree he he' hne ?_
    simpa [Edge.link, eq_comm] using hmem

theorem swap_injective : Function.Injective Edge.swap :=
  Function.LeftInverse.injective swap_swap

/-- **Trimming keeps every cycle.** Whatever the schedules, each round turns the edges of its input
into those whose current endpoint occurs at least twice, once each and with the sides exchanged. The
handed-off list is part of the seeded edges, each with its sides exchanged; it contains every part
of them in which each endpoint has two edges, and all copies of every edge of every cycle. -/
theorem trimming_keeps_cycles (hbits : Width bits) (h : Trimmed bits lookups p d) :
    (p = .seed → d.edges bits .seed = seeded lookups) ∧
    (∀ p' d', Round bits p d p' d' → d'.Fits bits p' →
      d'.edges bits p' = (survivors Edge.x (d.edges bits p)).map Edge.swap) ∧
    (p = .b → ∀ threads capacity list, 0 < threads → Tail bits threads capacity d list →
      (d.edges bits .b).card ≤ capacity →
      (list : Multiset Edge) ≤ (seeded lookups : Multiset Edge).map Edge.swap ∧
      (∀ m ≤ (seeded lookups : Multiset Edge), TwoEdges m →
        m.map Edge.swap ≤ (list : Multiset Edge)) ∧
      ∀ v (w : (graph (seeded lookups)).Walk v v), w.IsCycle → ∀ e, e.link ∈ w.edges →
        list.count e.swap = (seeded lookups).count e) := by
  obtain ⟨edges, hholds, hlegal, hle, hkeep⟩ := h.holds hbits
  refine ⟨?_, ?_, ?_⟩
  · rintro rfl
    cases h with
    | seed h1 h2 hseed hfits => exact (holds_seed h1 h2 hseed hfits).edges_eq hbits
    | round _ hround _ => cases hround
  · intro p' d' hround hfits
    rw [hholds.edges_eq hbits, (hholds.round hbits hlegal hround hfits).edges_eq hbits, trimOnce]
  · rintro rfl threads capacity list hthreads htail hcapacity
    rw [hholds.edges_eq hbits] at hcapacity
    rw [← htail.edges_eq hbits hthreads hholds hcapacity] at hle hkeep
    refine ⟨hle, hkeep, fun v w hw e he => ?_⟩
    apply Nat.le_antisymm
    · have hcount := Multiset.count_le_of_le e.swap hle
      rwa [TrimPhase.facing, Multiset.count_map_eq_count' _ _ swap_injective, Multiset.coe_count,
        Multiset.coe_count] at hcount
    · -- All copies of an edge on the cycle are among the edges on it.
      have hcount := Multiset.count_le_of_le e.swap
        (hkeep (onWalk w) (Multiset.filter_le _ _) (twoEdges_onWalk hw))
      rwa [TrimPhase.facing, Multiset.count_map_eq_count' _ _ swap_injective, onWalk,
        Multiset.count_filter_of_pos (p := fun e : Edge => e.link ∈ w.edges) he,
        Multiset.coe_count, Multiset.coe_count] at hcount

/-- Hashes whose edges are a cycle of length four. -/
def square : List UInt64 :=
  [0x100000001, 0x200000001, 0x100000002, 0x200000002]

theorem twoEdges_square : TwoEdges (seeded square) := by
  unfold TwoEdges
  decide

/-- The cycle of length four is handed off after seven rounds. -/
theorem trimming_keeps_square : ∃ d list, Trimmed 14 square .b d ∧
    Tail 14 128 (512 * 1024) d list ∧
    (list : Multiset Edge) = (seeded square : Multiset Edge).map Edge.swap := by
  have hfew : (seeded square).length ≤ 16384 := by decide
  obtain ⟨d, hd⟩ := exists_trimmed (.inr rfl) hfew 7
  obtain ⟨list, htail⟩ := exists_tail 14 128 (512 * 1024) d
  have hfits : (d.edges 14 .b).card ≤ 512 * 1024 := by
    obtain ⟨edges, hholds, -, hle, -⟩ := hd.holds (.inr rfl)
    have hle := Multiset.card_le_card hle
    rw [Multiset.card_map, Multiset.coe_card] at hle
    rw [show d.edges 14 .b = edges from hholds.edges_eq (.inr rfl)]
    exact hle.trans (by decide)
  obtain ⟨hle, hkeep, -⟩ :=
    (trimming_keeps_cycles (.inr rfl) hd).2.2 rfl 128 (512 * 1024) list (by decide) htail hfits
  exact ⟨d, list, hd, htail, le_antisymm hle (hkeep _ le_rfl twoEdges_square)⟩

end MoMiner.C29
