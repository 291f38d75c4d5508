import MoMiner.Equihash.Compression
import MoMiner.Equihash.Proof
import MoMiner.Lib.BlockTrees

/-!
# The canonical order of a proof

A proof recovered from a tree of collisions comes in the order of the tree. The verifier wants, at
each node, the half with the smaller first index on the left. The host orders a list of indices from
the leaves up (`orderIndices`), the recovery kernels do it in a buffer of leaves
(`canonicalizeLeaves`), and the host then drops proofs with the bytes of an earlier one.

Both loops are the passes of `Lib.BlockTrees`. Main result: `order_canonical`.
-/

namespace MoMiner

open MoMiner.Blocks MoMiner.BlockTrees

/-! ## The loops -/

namespace ZelHash

def k : ℕ := 4

/-- The right half leads with a smaller index, so it must come first. -/
def leads (left right : ℕ) : Bool := right < left

/-- The passes from span `2 ^ s` on; a pass goes over the blocks of two spans that fit. -/
def orderFrom (n s : ℕ) (idx : ℕ → ℕ) : ℕ → ℕ :=
  if 2 ^ s < n then orderFrom n (s + 1) (passBlocks leads s (n / (2 * 2 ^ s)) idx 0) else idx
termination_by n - s
decreasing_by
  have := Nat.lt_two_pow_self (n := s)
  omega

def orderIndices (idx : List ℕ) : List ℕ :=
  (List.range idx.length).map (orderFrom idx.length 0 fun i => idx.getD i 0)

/-- All indices are unique: no two neighbours are equal after sorting. -/
def distinctIndices (leaves : List ℕ) : Bool :=
  let sorted := leaves.mergeSort
  (List.range (sorted.length - 1)).all fun i => sorted.getD (i + 1) 0 ≠ sorted.getD i 0

/-- A candidate's solution, unless it has the wrong length or a repeated index. -/
def candidateSolution (leaves : List ℕ) : Option (List UInt8) :=
  if leaves.length ≠ 2 ^ k ∨ distinctIndices leaves = false then none
  else some (compressIndices ((orderIndices leaves).map UInt32.ofNat))

/-- The solutions of the candidates, each one once. -/
def seenSolutions (candidates : List (List ℕ)) : List (List UInt8) :=
  candidates.foldl (fun seen leaves =>
    match candidateSolution leaves with
    | none => seen
    | some solution => if solution ∈ seen then seen else seen ++ [solution]) []

end ZelHash

namespace Equihash

/-- The left half does not lead with the smaller index. -/
def trails (left right : ℕ) : Bool := ¬ left < right

/-- The reordering of the leaves of one candidate in the recovery kernels. -/
def canonicalizeLeaves (k base : ℕ) (leaves : ℕ → ℕ) : ℕ → ℕ :=
  (List.range k).foldl (fun leaves level =>
    passBlocks trails level (2 ^ k / (2 * 2 ^ level)) leaves base) leaves

end Equihash

/-! ## The loops are passes -/

namespace ZelHash

variable {k : ℕ} {idx idx' : List ℕ}

theorem blocks_eq {s k : ℕ} (hs : s < k) : 2 ^ k / (2 * 2 ^ s) = 2 ^ (k - 1 - s) := by
  rw [← pow_succ', Nat.pow_div (by omega) (by decide)]
  congr 1
  omega

theorem decides_leads : Decides leads := fun _ _ _ => decide_eq_true_iff

theorem decides_trails : Decides Equihash.trails := by
  intro x y hne
  rw [Equihash.trails, decide_eq_true_iff]
  omega

theorem orderFrom_eq (f : ℕ → ℕ) {s : ℕ} (hs : s ≤ k) :
    orderFrom (2 ^ k) s (passes leads k s f 0) = passes leads k k f 0 := by
  induction hn : k - s generalizing s with
  | zero =>
    obtain rfl : s = k := by omega
    rw [orderFrom, if_neg (lt_irrefl _)]
  | succ n ih =>
    have hlt : s < k := by omega
    rw [orderFrom, if_pos (Nat.pow_lt_pow_right (by decide) hlt), blocks_eq hlt,
      ← ih (s := s + 1) hlt (by omega), passes, passes, List.range_succ, List.foldl_append,
      List.foldl_cons, List.foldl_nil]

theorem canonicalizeLeaves_eq (k base : ℕ) (leaves : ℕ → ℕ) :
    Equihash.canonicalizeLeaves k base leaves = passes Equihash.trails k k leaves base := by
  rw [Equihash.canonicalizeLeaves, passes]
  refine List.foldl_ext _ _ _ fun f s hs => ?_
  rw [blocks_eq (List.mem_range.mp hs)]

/-- The tree of a list of indices. -/
def toTree (k : ℕ) (idx : List ℕ) : Tree ℕ k := ofBlock (fun i => idx.getD i 0) 0 k

theorem leaves_toTree (h : idx.length = 2 ^ k) : (toTree k idx).leaves = idx := by
  rw [toTree, leaves_ofBlock, ← h]
  refine List.ext_getElem (by simp) fun i hi hi' => ?_
  simp [List.getD_eq_getElem?_getD, hi']

/-- **The host orders the tree of its list.** -/
theorem orderIndices_eq (h : idx.length = 2 ^ k) :
    orderIndices idx = (canonBy leads (toTree k idx)).leaves := by
  have hpasses := orderFrom_eq (k := k) (fun i => idx.getD i 0) (Nat.zero_le k)
  rw [toTree, ← ofBlock_passes, leaves_ofBlock, ← hpasses, orderIndices, h]
  simp only [Nat.zero_add]
  rfl

theorem length_orderIndices (idx : List ℕ) : (orderIndices idx).length = idx.length := by
  simp [orderIndices]

theorem toTree_orderIndices (h : idx.length = 2 ^ k) :
    toTree k (orderIndices idx) = canonBy leads (toTree k idx) := by
  refine Tree.leaves_injective ?_
  rw [leaves_toTree (by rw [length_orderIndices, h]), orderIndices_eq h]

/-! ## The ordered list -/

/-- One list can be got from the other by exchanging halves of aligned blocks. -/
abbrev SameProof (idx idx' : List ℕ) : Prop := Relation.ReflTransGen Exchanged idx idx'

/-- The rows of the indices collide at every level, and those of all indices cancel out. -/
structure RowsCollide (k : ℕ) (row : ℕ → ℕ → ℕ) (idx : List ℕ) : Prop where
  levels : AllBlocks (fun b s => xorRange (fun t => row (idx.getD t 0) s) b (2 ^ (s + 1)) = 0) 0 k
  root : xorRange (fun t => row (idx.getD t 0) k) 0 (2 ^ k) = 0

/-- The conditions that a verifier checks. -/
structure FullProof (k : ℕ) (row : ℕ → ℕ → ℕ) (idx : List ℕ) : Prop where
  distinct : idx.Nodup
  joins : AllBlocks (Equihash.Joins fun t => ⟨idx.getD t 0, row (idx.getD t 0)⟩) 0 k
  root : xorRange (fun t => row (idx.getD t 0) k) 0 (2 ^ k) = 0

theorem FullProof.isProof {spec : Equihash.Spec} {row : ℕ → ℕ → ℕ}
    (h : FullProof spec.k row idx) : Equihash.IsProof spec row idx := by
  obtain ⟨hcollide, hordered, hzero⟩ :=
    (Equihash.allBlocks_joins_iff spec row fun t => idx.getD t 0).mp ⟨h.joins, h.root⟩
  exact ⟨h.distinct, hcollide, hordered, hzero⟩

theorem nodup_toTree (h : idx.length = 2 ^ k) (hnodup : idx.Nodup) :
    (toTree k idx).leaves.Nodup := by rwa [leaves_toTree h]

theorem sameProof_orderIndices (h : idx.length = 2 ^ k) : SameProof idx (orderIndices idx) := by
  have hexchanges := exchanged_leaves_of_exchanges (exchanges_canonBy leads (toTree k idx))
  rwa [leaves_toTree h, ← orderIndices_eq h] at hexchanges

theorem SameProof.symm (h : SameProof idx idx') : SameProof idx' idx := by
  induction h with
  | refl => exact .refl
  | tail _ hstep ih => exact (Relation.ReflTransGen.single hstep.symm).trans ih

theorem SameProof.perm (h : idx.length = 2 ^ k) (hsame : SameProof idx idx') : idx.Perm idx' := by
  rw [← leaves_toTree h] at hsame
  obtain ⟨t, hexchanges, rfl⟩ := exists_exchanges hsame
  rw [← leaves_toTree h]
  exact hexchanges.perm

theorem ordered_orderIndices (h : idx.length = 2 ^ k) (hnodup : idx.Nodup) :
    AllBlocks (fun b s => (orderIndices idx).getD b 0 < (orderIndices idx).getD (b + 2 ^ s) 0)
      0 k := by
  rw [← ordered_ofBlock fun i => (orderIndices idx).getD i 0]
  change (toTree k (orderIndices idx)).Ordered
  rw [toTree_orderIndices h]
  exact ordered_canonBy decides_leads (nodup_toTree h hnodup)

/-- **One order for a proof.** -/
theorem orderIndices_eq_of_sameProof (h : idx.length = 2 ^ k) (hnodup : idx.Nodup)
    (hsame : SameProof idx idx') : orderIndices idx' = orderIndices idx := by
  have hlength : idx'.length = 2 ^ k := (hsame.perm h).length_eq ▸ h
  rw [← leaves_toTree h] at hsame
  obtain ⟨t, hexchanges, ht⟩ := exists_exchanges hsame
  obtain rfl : t = toTree k idx' := Tree.leaves_injective (by rw [ht, leaves_toTree hlength])
  rw [orderIndices_eq h, orderIndices_eq hlength,
    canonBy_eq_of_exchanges decides_leads hexchanges (nodup_toTree h hnodup)]

theorem orderIndices_orderIndices (h : idx.length = 2 ^ k) (hnodup : idx.Nodup) :
    orderIndices (orderIndices idx) = orderIndices idx :=
  orderIndices_eq_of_sameProof h hnodup (sameProof_orderIndices h)

/-- **An ordered list of colliding rows is a proof.** -/
theorem fullProof_orderIndices (h : idx.length = 2 ^ k) (hnodup : idx.Nodup)
    {row : ℕ → ℕ → ℕ} (hrows : RowsCollide k row idx) : FullProof k row (orderIndices idx) := by
  have hexchanges := exchanges_canonBy leads (toTree k idx)
  have hcollides := hexchanges.collides
    ((collides_ofBlock (fun i => idx.getD i 0) 0 k).mpr hrows.levels)
  have hroot := hexchanges.xor_eq fun a => row a k
  rw [← toTree_orderIndices h] at hcollides hroot
  refine ⟨((sameProof_orderIndices h).perm h).nodup_iff.mp hnodup, fun l hl i hi => ⟨?_, ?_⟩, ?_⟩
  · exact (collides_ofBlock (fun i => (orderIndices idx).getD i 0) 0 k).mp hcollides
      l hl i hi
  · exact ordered_orderIndices h hnodup l hl i hi
  · rw [toTree, toTree, xor_ofBlock, xor_ofBlock] at hroot
    exact hroot.symm.trans hrows.root

/-- **The kernels compute the same list**, and write nothing else. -/
theorem canonicalizeLeaves_apply (h : idx.length = 2 ^ k) (hnodup : idx.Nodup) {base : ℕ}
    {leaves : ℕ → ℕ} (hleaves : ∀ i < 2 ^ k, leaves (base + i) = idx.getD i 0) :
    (∀ i < 2 ^ k, Equihash.canonicalizeLeaves k base leaves (base + i) =
      (orderIndices idx).getD i 0) ∧
    ∀ t, t < base ∨ base + 2 ^ k ≤ t → Equihash.canonicalizeLeaves k base leaves t = leaves t := by
  rw [canonicalizeLeaves_eq]
  refine ⟨fun i hi => ?_, fun t ht => passes_of_outside le_rfl ht⟩
  have hblock : ofBlock leaves base k = toTree k idx :=
    ofBlock_congr fun i hi => by rw [hleaves i hi, Nat.zero_add]
  have hlist := congrArg Tree.leaves (ofBlock_passes (c := Equihash.trails) leaves base k)
  rw [hblock, canonBy_congr decides_trails decides_leads (nodup_toTree h hnodup),
    ← orderIndices_eq h, leaves_ofBlock] at hlist
  rw [← hlist, List.getD_eq_getElem?_getD, List.getElem?_map, List.getElem?_range hi]
  rfl

/-! ## Repeated proofs -/

theorem distinctIndices_iff (leaves : List ℕ) : distinctIndices leaves = true ↔ leaves.Nodup := by
  have hperm := List.mergeSort_perm leaves fun a b => decide (a ≤ b)
  have hsorted : (leaves.mergeSort).Pairwise (· ≤ ·) := List.pairwise_mergeSort' _ _
  rw [distinctIndices, ← hperm.nodup_iff]
  generalize leaves.mergeSort = sorted at hsorted
  have hget : ∀ i (hi : i < sorted.length), sorted.getD i 0 = sorted[i] := by
    intro i hi
    simp [List.getD_eq_getElem?_getD, hi]
  rw [List.all_eq_true, List.Nodup, List.pairwise_iff_getElem]
  rw [List.pairwise_iff_getElem] at hsorted
  constructor
  · intro h i j hi hj hij
    have hnext := of_decide_eq_true (h i (List.mem_range.mpr (by omega)))
    rw [hget _ (by omega), hget _ hi] at hnext
    have hstep := hsorted i (i + 1) hi (by omega) (Nat.lt_succ_self i)
    rcases Nat.eq_or_lt_of_le (Nat.succ_le_of_lt hij) with rfl | hlt
    · exact hnext.symm
    · have hrest := hsorted (i + 1) j (by omega) hj hlt
      omega
  · intro h i hi
    have hi := List.mem_range.mp hi
    rw [decide_eq_true_iff, hget _ (by omega), hget _ (by omega)]
    exact (h i (i + 1) (by omega) (by omega) (Nat.lt_succ_self i)).symm

/-- A candidate that has a solution. -/
structure Candidate (leaves : List ℕ) : Prop where
  length : leaves.length = 2 ^ ZelHash.k
  distinct : leaves.Nodup

theorem candidateSolution_of_candidate {leaves : List ℕ} (h : Candidate leaves) :
    candidateSolution leaves = some (compressIndices ((orderIndices leaves).map UInt32.ofNat)) := by
  rw [candidateSolution, if_neg]
  simp [h.length, (distinctIndices_iff leaves).mpr h.distinct]

theorem candidateSolution_eq_none {leaves : List ℕ} (h : ¬ Candidate leaves) :
    candidateSolution leaves = none := by
  rw [candidateSolution, if_pos]
  by_contra hgood
  rw [not_or, not_not, Bool.not_eq_false, distinctIndices_iff] at hgood
  exact h ⟨hgood.1, hgood.2⟩

/-- **Equal bytes, equal proofs.** -/
theorem candidateSolution_eq_iff {leaves leaves' : List ℕ} (h : Candidate leaves)
    (h' : Candidate leaves') (hlt : ∀ x ∈ leaves, x < 2 ^ 26) (hlt' : ∀ x ∈ leaves', x < 2 ^ 26) :
    candidateSolution leaves = candidateSolution leaves' ↔ SameProof leaves leaves' := by
  have hwords : ∀ l : List ℕ, Candidate l → (∀ x ∈ l, x < 2 ^ 26) →
      ((orderIndices l).map UInt32.ofNat).map UInt32.toNat = orderIndices l ∧
        ∀ x ∈ (orderIndices l).map UInt32.ofNat, x.toNat < 2 ^ 26 := by
    intro l hl hsmall
    have hsmall' : ∀ x ∈ orderIndices l, x < 2 ^ 26 := fun x hx =>
      hsmall x (((sameProof_orderIndices hl.length).perm hl.length).mem_iff.mpr hx)
    have hnat : ∀ x ∈ orderIndices l, (UInt32.ofNat x).toNat = x := by
      intro x hx
      have := hsmall' x hx
      rw [UInt32.toNat_ofNat']
      omega
    constructor
    · rw [List.map_map]
      exact (List.map_congr_left fun x hx => hnat x hx).trans (List.map_id _)
    · intro w hw
      obtain ⟨x, hx, rfl⟩ := List.mem_map.mp hw
      rw [hnat x hx]
      exact hsmall' x hx
  rw [candidateSolution_of_candidate h, candidateSolution_of_candidate h', Option.some_inj]
  constructor
  · intro heq
    have hlength : ((orderIndices leaves).map UInt32.ofNat).length = 2 ^ ZelHash.k := by
      rw [List.length_map, length_orderIndices, h.length]
    have hlists := compressIndices_inj (by rw [hlength]; decide)
      (by rw [hlength, List.length_map, length_orderIndices, h'.length]) (hwords _ h hlt).2
      (hwords _ h' hlt').2 heq
    have horder : orderIndices leaves = orderIndices leaves' := by
      rw [← (hwords _ h hlt).1, ← (hwords _ h' hlt').1, hlists]
    exact (horder ▸ sameProof_orderIndices h.length).trans (sameProof_orderIndices h'.length).symm
  · intro hsame
    rw [orderIndices_eq_of_sameProof h.length h.distinct hsame]

theorem seenSolutions_snoc (candidates : List (List ℕ)) (leaves : List ℕ) :
    seenSolutions (candidates ++ [leaves]) =
      match candidateSolution leaves with
      | none => seenSolutions candidates
      | some solution =>
        if solution ∈ seenSolutions candidates then seenSolutions candidates
        else seenSolutions candidates ++ [solution] := by
  rw [seenSolutions, List.foldl_append]
  rfl

/-- What is seen are the solutions of the candidates. -/
theorem mem_seenSolutions {candidates : List (List ℕ)} {solution : List UInt8} :
    solution ∈ seenSolutions candidates ↔
      ∃ leaves ∈ candidates, candidateSolution leaves = some solution := by
  induction candidates using List.reverseRecOn with
  | nil => simp [seenSolutions]
  | append_singleton candidates leaves ih =>
    rw [seenSolutions_snoc]
    simp only [List.mem_append, List.mem_singleton, or_and_right, exists_or, exists_eq_left, ← ih]
    cases candidateSolution leaves with
    | none => simp
    | some found =>
      dsimp only
      split_ifs with hseen
      · rw [Option.some_inj]
        exact ⟨.inl, fun h => h.elim id fun heq => heq ▸ hseen⟩
      · rw [List.mem_append, List.mem_singleton, Option.some_inj, eq_comm]

/-- **Repeated proofs are dropped, and no others.** -/
theorem seenSolutions_exact {candidates : List (List ℕ)} {leaves : List ℕ}
    (hlt : ∀ l ∈ candidates ++ [leaves], ∀ x ∈ l, x < 2 ^ 26) (h : Candidate leaves) :
    ((∃ earlier ∈ candidates, Candidate earlier ∧ SameProof earlier leaves) →
      seenSolutions (candidates ++ [leaves]) = seenSolutions candidates) ∧
    ((¬ ∃ earlier ∈ candidates, Candidate earlier ∧ SameProof earlier leaves) →
      seenSolutions (candidates ++ [leaves]) = seenSolutions candidates ++
        [compressIndices ((orderIndices leaves).map UInt32.ofNat)]) := by
  have hsolution := candidateSolution_of_candidate h
  rw [seenSolutions_snoc, hsolution]
  dsimp only
  constructor
  · rintro ⟨earlier, hmem, hearlier, hsame⟩
    refine if_pos (mem_seenSolutions.mpr ⟨earlier, hmem, ?_⟩)
    rw [← hsolution]
    exact (candidateSolution_eq_iff hearlier h (hlt _ (List.mem_append_left _ hmem))
      (hlt _ (by simp))).mpr hsame
  · intro hnew
    refine if_neg fun hseen => hnew ?_
    obtain ⟨earlier, hmem, hfound⟩ := mem_seenSolutions.mp hseen
    have hearlier : Candidate earlier := by
      by_contra hbad
      rw [candidateSolution_eq_none hbad] at hfound
      cases hfound
    exact ⟨earlier, hmem, hearlier, (candidateSolution_eq_iff hearlier h
      (hlt _ (List.mem_append_left _ hmem)) (hlt _ (by simp))).mp (hfound.trans hsolution.symm)⟩

/-! ## Canonical proofs -/

/-- **Proofs have one canonical form.** For `2 ^ k` distinct indices the host's order is reached by
exchanges of halves of aligned blocks, has the smaller first index on the left in every block, is the
order of every list that such exchanges lead to, so of itself, and makes a full proof of colliding
rows; the kernels compute it in place. Of the candidates of a search, the host drops those without
distinct indices and those that are the same proof as an earlier one. -/
theorem order_canonical :
    (∀ (k : ℕ) (idx : List ℕ), idx.length = 2 ^ k → idx.Nodup →
      SameProof idx (orderIndices idx) ∧
      AllBlocks (fun b s => (orderIndices idx).getD b 0 < (orderIndices idx).getD (b + 2 ^ s) 0)
        0 k ∧
      orderIndices (orderIndices idx) = orderIndices idx ∧
      (∀ idx', SameProof idx idx' → orderIndices idx' = orderIndices idx) ∧
      (∀ row, RowsCollide k row idx → FullProof k row (orderIndices idx)) ∧
      (∀ spec row, k = Equihash.Spec.k spec → RowsCollide k row idx →
        Equihash.IsProof spec row (orderIndices idx)) ∧
      ∀ (base : ℕ) (leaves : ℕ → ℕ), (∀ i < 2 ^ k, leaves (base + i) = idx.getD i 0) →
        (∀ i < 2 ^ k, Equihash.canonicalizeLeaves k base leaves (base + i) =
          (orderIndices idx).getD i 0) ∧
        ∀ t, t < base ∨ base + 2 ^ k ≤ t →
          Equihash.canonicalizeLeaves k base leaves t = leaves t) ∧
    ∀ (candidates : List (List ℕ)) (leaves : List ℕ),
      (∀ l ∈ candidates ++ [leaves], ∀ x ∈ l, x < 2 ^ 26) →
      (¬ Candidate leaves → seenSolutions (candidates ++ [leaves]) = seenSolutions candidates) ∧
      (Candidate leaves →
        ((∃ earlier ∈ candidates, Candidate earlier ∧ SameProof earlier leaves) →
          seenSolutions (candidates ++ [leaves]) = seenSolutions candidates) ∧
        ((¬ ∃ earlier ∈ candidates, Candidate earlier ∧ SameProof earlier leaves) →
          seenSolutions (candidates ++ [leaves]) = seenSolutions candidates ++
            [compressIndices ((orderIndices leaves).map UInt32.ofNat)])) := by
  refine ⟨fun k idx h hnodup => ⟨sameProof_orderIndices h, ordered_orderIndices h hnodup,
    orderIndices_orderIndices h hnodup, fun idx' => orderIndices_eq_of_sameProof h hnodup,
    fun row => fullProof_orderIndices h hnodup, ?_, ?_⟩, fun candidates leaves hlt =>
    ⟨fun hbad => ?_, seenSolutions_exact hlt⟩⟩
  · rintro spec row rfl hrows
    exact (fullProof_orderIndices h hnodup hrows).isProof
  · intro base leaves hleaves
    exact canonicalizeLeaves_apply h hnodup hleaves
  · rw [seenSolutions_snoc, candidateSolution_eq_none hbad]

end ZelHash

end MoMiner
