import MoMiner.Pearl.MergeRoot
import MoMiner.Pearl.Stream

/-!
# Trees in layers

The host builds the layers of the tree below its root (`buildLayers`), and the device reduces a
power of two of chaining values level by level in one buffer (`reduceTreePow2`), where the work items
of a level run in any order.

Main result: `trees_agree`.
-/

namespace MoMiner.Pearl

open MoMiner.LeftTree

section Tree

variable (compress : Cv → Block → UInt64 → UInt32 → UInt32 → Block) (key32 : Option CvBytes)

/-- The layers from the leaves up to the two nodes below the root. -/
def buildLayers (leaves : List CvBytes) : List (List CvBytes) :=
  if _h : 2 < leaves.length then
    leaves :: buildLayers (pairUp (parentCv compress key32 false) leaves)
  else [leaves]
termination_by leaves.length
decreasing_by
  rw [length_pairUp]
  omega

/-- One work item: a parent of two chaining values of the buffer. -/
def reduceItem (isRoot : Bool) (rd wr : ℕ) (cvs : List CvBytes) (i : ℕ) :
    Except Fault (List CvBytes) :=
  match cvs[rd + 2 * i]?, cvs[rd + 2 * i + 1]? with
  | some l, some r =>
    if wr + i < cvs.length then .ok (cvs.set (wr + i) (parentCv compress key32 isRoot l r))
    else .error .outOfBounds
  | _, _ => .error .outOfBounds

/-- The levels; `order` is the order in which the work items of a level run. -/
def reduceLoop (order : ℕ → List ℕ) (rd wr cnt : ℕ) (cvs : List CvBytes) :
    Except Fault (ℕ × List CvBytes) :=
  if _h : 1 < cnt then do
    let cvs ← (order (cnt / 2)).foldlM (reduceItem compress key32 (cnt / 2 = 1) rd wr) cvs
    reduceLoop order wr (wr + cnt / 2) (cnt / 2) cvs
  else .ok (rd, cvs)
termination_by cnt

/-- The offset of the root and the buffer after the reduction. -/
def reduceTreePow2 (order : ℕ → List ℕ) (cvs : List CvBytes) (nc : ℕ) :
    Except Fault (ℕ × List CvBytes) :=
  reduceLoop compress key32 order 0 nc nc cvs

/-- The chaining value of a chunk of a message. -/
def messageCv (message : List UInt8) (i : ℕ) : CvBytes :=
  chunkCv compress key32 ((message.drop (b3ChunkLen * i)).take b3ChunkLen) i

/-- The number of chunks of a message. -/
def chunkCount (message : List UInt8) : ℕ := (message.length + (b3ChunkLen - 1)) / b3ChunkLen

variable {compress key32}

/-! ## The layers of the host -/

variable {cvs : ℕ → CvBytes} {n level k : ℕ}

/-- The layers up to the last one of two nodes. -/
theorem buildLayers_layer {d : ℕ} (hlt : 2 ^ (level + d) < n) (hle : n ≤ 2 ^ (level + d + 1)) :
    buildLayers compress key32 (layer (parentCv compress key32 false) cvs n level) =
      (List.range' level (d + 1)).map (layer (parentCv compress key32 false) cvs n) := by
  induction d generalizing level with
  | zero =>
    have hwidth : width n level = 2 := width_eq_two hlt hle
    rw [buildLayers, length_layer, dif_neg (by omega)]
    rfl
  | succ d ih =>
    have hwidth : 2 < width n level :=
      two_lt_width.mpr ((Nat.pow_le_pow_right (by decide) (by omega)).trans_lt hlt)
    rw [show level + (d + 1) = level + 1 + d by omega] at hlt hle
    rw [buildLayers, length_layer, dif_pos hwidth, pairUp_layer, ih hlt hle]
    rfl

theorem mergeRoot_eq_ok (hn : 2 ≤ n) (hle : n ≤ 2 ^ 26) : mergeRoot compress key32 cvs n =
    .ok (root (parentCv compress key32 false) cvs (parentCv compress key32 true) n) := by
  rcases mergeRoot_spec hn (hle.trans_lt (by decide)) with h | h
  · exact h
  · exact absurd h.1 (Nat.not_lt.mpr hle)

/-- **The last layer gives the root.** -/
theorem mergeRoot_getLast (hn : 2 ≤ n) : ∃ last,
    (buildLayers compress key32 ((List.range n).map cvs)).getLast? = some last ∧ last.length = 2 ∧
      mergeRoot compress key32 (fun i => last.getD i default) last.length =
        .ok (root (parentCv compress key32 false) cvs (parentCv compress key32 true) n) := by
  obtain ⟨k, hlt, hle⟩ := exists_pow hn
  have hwidth : width n k = 2 := width_eq_two hlt hle
  have hlast : layer (parentCv compress key32 false) cvs n k =
      [node (parentCv compress key32 false) cvs n k 0,
        node (parentCv compress key32 false) cvs n k 1] := by
    rw [layer, hwidth]
    rfl
  refine ⟨layer (parentCv compress key32 false) cvs n k, ?_, ?_, ?_⟩
  · rw [← layer_zero, buildLayers_layer (d := k) (by rwa [Nat.zero_add]) (by rwa [Nat.zero_add]),
      List.range'_1_concat, List.map_append, List.map_singleton, Nat.zero_add]
    exact List.getLast?_concat
  · rw [length_layer, hwidth]
  · rw [length_layer, hwidth, hlast, root_eq_nodes hlt hle]
    rw [mergeRoot_eq_ok le_rfl (by decide), root_two]
    rfl

/-! ## The reduction of the device -/

/-- The work items of a level write their parents; the region that is read stays as it is. -/
theorem foldlM_reduceItem (isRoot : Bool) {rd wr half : ℕ} {value : ℕ → CvBytes}
    {buf : List CvBytes} {items done : List ℕ} (hwr : rd + 2 * half ≤ wr)
    (hlen : wr + half ≤ buf.length) (hread : ∀ i < 2 * half, buf[rd + i]? = some (value i))
    (hdone : ∀ i ∈ done,
      buf[wr + i]? = some (parentCv compress key32 isRoot (value (2 * i)) (value (2 * i + 1))))
    (hitems : ∀ i ∈ items, i < half) : ∃ buf',
      items.foldlM (reduceItem compress key32 isRoot rd wr) buf = .ok buf' ∧
      buf'.length = buf.length ∧ ∀ i ∈ done ++ items,
        buf'[wr + i]? = some (parentCv compress key32 isRoot (value (2 * i)) (value (2 * i + 1))) := by
  induction items generalizing buf done with
  | nil => exact ⟨buf, rfl, rfl, by simpa using hdone⟩
  | cons i items ih =>
    obtain ⟨hi, hitems⟩ := List.forall_mem_cons.mp hitems
    have hitem : reduceItem compress key32 isRoot rd wr buf i = .ok (buf.set (wr + i)
        (parentCv compress key32 isRoot (value (2 * i)) (value (2 * i + 1)))) := by
      rw [reduceItem, hread _ (by omega), Nat.add_assoc, hread _ (by omega)]
      exact if_pos (by omega)
    generalize hbuf : buf.set (wr + i)
      (parentCv compress key32 isRoot (value (2 * i)) (value (2 * i + 1))) = buf₁ at hitem
    have hread₁ : ∀ j < 2 * half, buf₁[rd + j]? = some (value j) := by
      intro j hj
      rw [← hbuf, List.getElem?_set_ne (by omega)]
      exact hread j hj
    have hdone₁ : ∀ j ∈ done ++ [i], buf₁[wr + j]? =
        some (parentCv compress key32 isRoot (value (2 * j)) (value (2 * j + 1))) := by
      intro j hj
      by_cases hji : j = i
      · rw [hji, ← hbuf, List.getElem?_set_self (by omega)]
      · rw [← hbuf, List.getElem?_set_ne (by omega)]
        exact hdone j (by simpa [hji] using hj)
    have hlen₁ : buf₁.length = buf.length := by rw [← hbuf, List.length_set]
    obtain ⟨buf', hfold, hlength, hall⟩ := ih (hlen₁ ▸ hlen) hread₁ hdone₁ hitems
    refine ⟨buf', ?_, ?_, ?_⟩
    · rw [List.foldlM_cons, hitem]
      exact hfold
    · rw [hlength, hlen₁]
    · rwa [List.append_assoc] at hall

/-- **One level.** The parents of a level, whatever the order of the work items. -/
theorem reduceLevel (isRoot : Bool) {rd wr half : ℕ} {value : ℕ → CvBytes} {buf : List CvBytes}
    {items : List ℕ} (hwr : rd + 2 * half ≤ wr) (hlen : wr + half ≤ buf.length)
    (hread : ∀ i < 2 * half, buf[rd + i]? = some (value i)) (hitems : items.Perm (List.range half)) :
    ∃ buf', items.foldlM (reduceItem compress key32 isRoot rd wr) buf = .ok buf' ∧
      buf'.length = buf.length ∧ ∀ i < half,
        buf'[wr + i]? = some (parentCv compress key32 isRoot (value (2 * i)) (value (2 * i + 1))) := by
  have hmem : ∀ i, i ∈ items ↔ i < half := fun i => hitems.mem_iff.trans List.mem_range
  obtain ⟨buf', hfold, hlength, hall⟩ := foldlM_reduceItem isRoot hwr hlen hread
    (List.forall_mem_nil _) fun i => (hmem i).mp
  exact ⟨buf', hfold, hlength, fun i hi => hall i ((hmem i).mpr hi)⟩

/-- **A run of the reduction.** From any level on, the buffer ends with the root. -/
theorem reduceLoop_spec {order : ℕ → List ℕ} (horder : ∀ half, (order half).Perm (List.range half))
    {rd wr d : ℕ} {buf : List CvBytes} (hn : n = 2 ^ (level + (d + 1)))
    (hwr : rd + 2 ^ (d + 1) = wr) (hlen : wr + 2 ^ (d + 1) ≤ buf.length)
    (hread : ∀ i < 2 ^ (d + 1),
      buf[rd + i]? = some (node (parentCv compress key32 false) cvs n level i)) :
    ∃ off buf', reduceLoop compress key32 order rd wr (2 ^ (d + 1)) buf = .ok (off, buf') ∧
      buf'.length = buf.length ∧ buf'[off]? =
        some (root (parentCv compress key32 false) cvs (parentCv compress key32 true) n) := by
  induction d generalizing level rd wr buf with
  | zero =>
    obtain ⟨buf', hfold, hlength, hwrite⟩ : ∃ buf',
        (order 1).foldlM (reduceItem compress key32 true rd wr) buf = .ok buf' ∧ _ :=
      reduceLevel true hwr.le (by omega) hread (horder 1)
    have hlow : 2 ^ level < n := by
      rw [hn]
      exact Nat.pow_lt_pow_right (by decide) (by omega)
    refine ⟨wr, buf', ?_, hlength, ?_⟩
    · rw [reduceLoop, dif_pos (by decide)]
      refine Except.bind_eq_ok.mpr ⟨buf', hfold, ?_⟩
      rw [reduceLoop, dif_neg (by decide)]
    · rw [root_eq_nodes hlow hn.le]
      exact hwrite 0 Nat.zero_lt_one
  | succ d ih =>
    have hpow : 2 ^ (d + 1 + 1) = 2 * 2 ^ (d + 1) := pow_succ' 2 (d + 1)
    have hpos := Nat.two_pow_pos d
    have hhalf : 2 ^ (d + 1 + 1) / 2 = 2 ^ (d + 1) := by omega
    have hbelow : 2 ^ (d + 1) ≠ 1 := by
      rw [pow_succ]
      omega
    rw [hpow] at hread hwr hlen
    obtain ⟨buf₁, hfold, hlength, hwrite⟩ := reduceLevel false hwr.le (by omega) hread
      (horder (2 ^ (d + 1)))
    have hread₁ : ∀ i < 2 ^ (d + 1),
        buf₁[wr + i]? = some (node (parentCv compress key32 false) cvs n (level + 1) i) := by
      intro i hi
      have hnode : (2 * i + 1) * 2 ^ level < n := by
        rw [hn, Nat.add_comm level, pow_add, hpow]
        exact Nat.mul_lt_mul_of_pos_right (by omega) (Nat.two_pow_pos level)
      rw [hwrite i hi, node_succ hnode]
    have hn₁ : n = 2 ^ (level + 1 + (d + 1)) := by
      rw [hn]
      congr 1
      omega
    obtain ⟨off, buf', hloop, hlength', hroot⟩ := ih hn₁ rfl (by omega) hread₁
    refine ⟨off, buf', ?_, hlength'.trans hlength, hroot⟩
    rw [reduceLoop, dif_pos (by omega), hhalf, decide_eq_false hbelow]
    exact Except.bind_eq_ok.mpr ⟨buf₁, hfold, hloop⟩

/-- The reduction of a power of two of chaining values in a buffer of twice as many. -/
theorem reduceTreePow2_spec {order : ℕ → List ℕ}
    (horder : ∀ half, (order half).Perm (List.range half)) (hn : 2 ≤ n) {d : ℕ} (hd : n = 2 ^ d)
    {scratch : List CvBytes} (hscratch : scratch.length = n) : ∃ off buf,
      reduceTreePow2 compress key32 order ((List.range n).map cvs ++ scratch) n = .ok (off, buf) ∧
      buf[off]? = some (root (parentCv compress key32 false) cvs (parentCv compress key32 true) n) := by
  obtain ⟨d, rfl⟩ : ∃ j, d = j + 1 := Nat.exists_eq_succ_of_ne_zero fun hzero => by
    rw [hzero] at hd
    omega
  have hlen : n + 2 ^ (d + 1) ≤ ((List.range n).map cvs ++ scratch).length := by
    rw [List.length_append, List.length_map, List.length_range, hscratch, hd]
  have hread : ∀ i < 2 ^ (d + 1), ((List.range n).map cvs ++ scratch)[0 + i]? =
      some (node (parentCv compress key32 false) cvs n 0 i) := by
    intro i hi
    have hi' : i < (List.range n).length := by rwa [List.length_range, hd]
    rw [Nat.zero_add, List.getElem?_append_left (by rwa [List.length_map]), List.getElem?_map,
      List.getElem?_range (by rwa [hd]), node_zero]
    rfl
  have hwr : 0 + 2 ^ (d + 1) = n := by rw [Nat.zero_add, hd]
  obtain ⟨off, buf, hloop, -, hroot⟩ :=
    reduceLoop_spec horder (by rw [Nat.zero_add, hd]) hwr hlen hread
  rw [← hd] at hloop
  exact ⟨off, buf, hloop, hroot⟩

/-! ## The message -/

theorem parentCv_false (l r : Cv) : cvToBytes (parentWords compress (loadKey key32).1
    (loadKey key32).2 l r) = parentCv compress key32 false (cvToBytes l) (cvToBytes r) := by
  rw [parentCv, cvOfBytes_cvToBytes, cvOfBytes_cvToBytes, parentWords, outputCv, parentOutput,
    UInt32.or_comm b3Parent]
  simp

theorem parentCv_true (l r : Cv) : outputRoot compress (parentOutput l r (loadKey key32).1
    (loadKey key32).2) = parentCv compress key32 true (cvToBytes l) (cvToBytes r) := by
  rw [parentCv, cvOfBytes_cvToBytes, cvOfBytes_cvToBytes, outputRoot, parentOutput,
    UInt32.or_comm b3Parent]
  simp

/-- The streaming hash is the root over the chaining values of the chunks. -/
theorem b3_eq_root {message : List UInt8} (hmessage : b3ChunkLen < message.length)
    (hlength : message.length < 2 ^ 32) : b3 compress message key32 =
      .ok (root (parentCv compress key32 false) (messageCv compress key32 message)
        (parentCv compress key32 true) (chunkCount message)) := by
  have hleaf : (fun i => cvToBytes (leafWords compress (loadKey key32).1 (loadKey key32).2
      message i)) = messageCv compress key32 message := by
    funext i
    rw [messageCv, chunkCv_eq, leafWords]
  rw [b3_spec hmessage hlength, root_map parentCv_false parentCv_true, hleaf, chunkCount]

/-- **All tree evaluations agree.** For every key and every message of more than one chunk, the
streaming hash, the root merged from the chaining values of the chunks and the root merged from the
last layer are one; for a power of two of chunks the reduction ends with it too, inside a buffer of
twice as many chaining values and for every order of its work items. The stacks are large enough for
every number of chunks. -/
theorem trees_agree (compress : Cv → Block → UInt64 → UInt32 → UInt32 → Block)
    (key32 : Option CvBytes) :
    (∀ message : List UInt8, b3ChunkLen < message.length → message.length < 2 ^ 32 →
      let n := chunkCount message
      let cvs := messageCv compress key32 message
      ∃ out, b3 compress message key32 = .ok out ∧ mergeRoot compress key32 cvs n = .ok out ∧
        (∃ last, (buildLayers compress key32 ((List.range n).map cvs)).getLast? = some last ∧
          mergeRoot compress key32 (fun i => last.getD i default) last.length = .ok out) ∧
        ∀ d, n = 2 ^ d → ∀ order : ℕ → List ℕ, (∀ half, (order half).Perm (List.range half)) →
          ∀ scratch : List CvBytes, scratch.length = n → ∃ off buf,
            reduceTreePow2 compress key32 order ((List.range n).map cvs ++ scratch) n =
              .ok (off, buf) ∧ buf[off]? = some out) ∧
    ∀ (cvs : ℕ → CvBytes) (numChunks : ℕ), 0 < numChunks → numChunks < 2 ^ 31 →
      mergeRoot compress key32 cvs numChunks ≠ .error .stackOverflow := by
  constructor
  · intro message hmessage hlength n cvs
    have hn : 2 ≤ n ∧ n ≤ 2 ^ 26 := by
      rw [b3ChunkLen] at hmessage
      simp only [n, chunkCount, b3ChunkLen]
      omega
    obtain ⟨last, hlast, -, hroot⟩ := mergeRoot_getLast hn.1
    refine ⟨_, b3_eq_root hmessage hlength, mergeRoot_eq_ok hn.1 hn.2, ⟨last, hlast, hroot⟩, ?_⟩
    intro d hd order horder scratch hscratch
    exact reduceTreePow2_spec horder hn.1 hd hscratch
  · intro cvs numChunks hpos hint hfault
    by_cases hone : numChunks = 1
    · rw [mergeRoot, if_pos hone] at hfault
      cases hfault
    · rcases mergeRoot_spec (by omega) hint with h | h
      · rw [h] at hfault
        cases hfault
      · rw [h.2] at hfault
        cases hfault

theorem trees_agree_zeros : ∃ out,
    b3 (fun cv _ _ _ _ => cv ++ cv) (List.replicate 2048 0) none = .ok out ∧
      mergeRoot (fun cv _ _ _ _ => cv ++ cv) none
        (messageCv (fun cv _ _ _ _ => cv ++ cv) none (List.replicate 2048 0)) 2 = .ok out := by
  obtain ⟨out, hb3, hmerge, -⟩ := (trees_agree (fun cv _ _ _ _ => cv ++ cv) none).1
    (List.replicate 2048 0) (by rw [List.length_replicate]; decide)
    (by rw [List.length_replicate]; decide)
  have hcount : chunkCount (List.replicate 2048 0) = 2 := by
    rw [chunkCount, List.length_replicate]
    rfl
  rw [hcount] at hmerge
  exact ⟨out, hb3, hmerge⟩

end Tree

end MoMiner.Pearl
