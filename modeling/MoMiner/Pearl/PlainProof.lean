import MoMiner.Lib.Bytes
import MoMiner.Lib.Opening
import MoMiner.Pearl.Layers

/-!
# Openings of a matrix

A winning tile is submitted with the rows of both matrices that it uses. For each matrix the leaves
of these rows are revealed, and `serMatrixProof` adds the root and the siblings that lead from the
leaves to it.

Main result: `matrixProof_opens`, by which a check from the leaves upwards takes exactly these
siblings and ends with the root.
-/

namespace MoMiner.Pearl

open MoMiner.LeftTree MoMiner.Bytes

inductive Matrix
  | a
  | b
  deriving DecidableEq, Repr

/-- What a proof can stop with: a thrown message, or a fault of the machine. -/
inductive ProofError
  | message (text : String)
  | fault (fault : Fault)
  deriving DecidableEq, Repr

def sizeMax : ℕ := 2 ^ 64 - 1

def intMax : ℕ := 2 ^ 31 - 1

def checkedElements (rows columns : ℕ) (name : String) : Except ProofError ℕ := do
  throwIf (rows = 0 ∨ columns = 0) (.message ("Invalid pearlhash " ++ name ++ " dimensions"))
  throwIf (sizeMax / columns < rows) (.message ("Invalid pearlhash " ++ name ++ " dimensions"))
  pure (rows * columns)

def checkedChunkCount (bytes : ℕ) (name : String) : Except ProofError ℕ := do
  let chunks := bytes / 1024 + if bytes % 1024 ≠ 0 then 1 else 0
  throwIf (intMax < chunks) (.message ("Invalid pearlhash " ++ name ++ " chunk count"))
  pure chunks

/-- The counter RNG. -/
def gv (seed idx : UInt32) : UInt8 :=
  let x := seed + idx * 0x9e3779b9
  let x := (x ^^^ (x >>> 16)) * 0x7feb352d
  let x := (x ^^^ (x >>> 15)) * 0x846ca68b
  let x := x ^^^ (x >>> 16)
  ((x &&& 127) - 64).toUInt8

/-- The shape of a search and the seed of its matrices. -/
structure Search where
  seed : UInt32
  m : ℕ
  n : ℕ
  k : ℕ

def Search.rows (s : Search) : Matrix → ℕ
  | .a => s.m
  | .b => s.n

/-- A byte of a matrix; the second one is stored by columns. -/
def Search.byte (s : Search) (tot : ℕ) : Matrix → ℕ → UInt8
  | .a, byte => gv s.seed (UInt32.ofNat byte)
  | .b, byte =>
    gv s.seed (UInt32.ofNat tot + UInt32.ofNat (byte % s.k * s.n + byte / s.k))

/-- A leaf, zero-padded, and the length of its data. -/
def genLeaf (s : Search) (which : Matrix) (leaf : ℕ) : Except ProofError (List UInt8 × ℕ) := do
  let total ← checkedElements (s.rows which) s.k "PlainProof matrix"
  let numLeaves ← checkedChunkCount total "PlainProof matrix"
  throwIf (numLeaves ≤ leaf) (.message "Invalid pearlhash PlainProof leaf")
  let offset := leaf * 1024
  let len := min 1024 (total - offset)
  let tot ← checkedElements s.m s.k "M*K PlainProof"
  pure ((List.range len).map (fun t => s.byte tot which (offset + t)) ++
    List.replicate (1024 - len) 0, len)

/-- The revealed bytes of a leaf. -/
def leafBytes (s : Search) (which : Matrix) (leaf : ℕ) : Except ProofError (List UInt8) := do
  let (chunk, _) ← genLeaf s which leaf
  pure chunk

section Proof

variable (compress : Cv → Block → UInt64 → UInt32 → UInt32 → Block) (key32 : Option CvBytes)

/-- The chaining value of a leaf that is generated again. -/
def leafCv (s : Search) (which : Matrix) (leaf : ℕ) : Except ProofError CvBytes := do
  let (chunk, len) ← genLeaf s which leaf
  pure (chunkCv compress key32 (chunk.take len) leaf)

/-- The chaining values of the leaves, cached or generated again. -/
def leafLayer (s : Search) (which : Matrix) (numLeaves : ℕ) :
    Option (List CvBytes) → Except ProofError (List CvBytes)
  | some leaves => do
    throwIf (leaves.length ≠ numLeaves) (.message "Invalid pearlhash PlainProof cached leaf count")
    pure leaves
  | none => (List.range numLeaves).mapM (leafCv compress key32 s which)

/-- The leaves that a row lies in. -/
def rowLeaves (numLeaves cols row : ℕ) : Except ProofError (Finset ℕ) := do
  let first := row * cols / 1024
  let last := ((row + 1) * cols + sizeMax) % 2 ^ 64 / 1024
  throwIf (numLeaves ≤ last ∨ intMax < last)
    (.message "Invalid pearlhash PlainProof row leaf range")
  pure (Finset.Icc first last)

def leafSet (numLeaves cols : ℕ) (rows : List ℕ) : Except ProofError (Finset ℕ) :=
  rows.foldlM (fun leafset row => do
    let leaves ← rowLeaves numLeaves cols row
    pure (leafset ∪ leaves)) ∅

def nodeAt {α : Type} (nodes : List α) (i : ℕ) : Except ProofError α :=
  match nodes[i]? with
  | some node => .ok node
  | none => .error (.fault .outOfBounds)

/-- The walk up from the leaves: the siblings that are not themselves active. -/
def siblingLoop (layers : List (List CvBytes)) (levelLen level : ℕ) (cur : Finset ℕ) :
    Except ProofError (List CvBytes) :=
  if _h : 1 < levelLen ∧ cur.Nonempty then do
    let nodes ← nodeAt layers level
    let sib ← (cur.sort.filterMap (partner cur levelLen)).mapM (nodeAt nodes)
    let rest ← siblingLoop layers (levelLen / 2 + levelLen % 2) (level + 1) (cur.image (· / 2))
    pure (sib ++ rest)
  else pure []
termination_by levelLen
decreasing_by omega

/-- The parts of a `MatrixMerkleProof`. -/
structure MatrixProof where
  leafData : List (List UInt8)
  leafIndices : List ℕ
  totalLeaves : ℕ
  root : CvBytes
  siblings : List CvBytes
  rowIndices : List ℕ

def liftFault {α : Type} : Except Fault α → Except ProofError α
  | .ok a => .ok a
  | .error f => .error (.fault f)

def matrixProof (s : Search) (which : Matrix) (cols : ℕ) (rows : List ℕ)
    (cachedLeaves : Option (List CvBytes)) : Except ProofError MatrixProof := do
  let totalBytes ← checkedElements (s.rows which) s.k "PlainProof matrix"
  let numLeaves ← checkedChunkCount totalBytes "PlainProof matrix"
  let leaves ← leafLayer compress key32 s which numLeaves cachedLeaves
  let layers := buildLayers compress key32 leaves
  let tmp := layers.getLast?.getD []
  let root ← liftFault (mergeRoot compress key32 (fun i => tmp.getD i default) tmp.length)
  let leafset ← leafSet numLeaves cols rows
  let leafData ← leafset.sort.mapM (leafBytes s which)
  let siblings ← siblingLoop layers numLeaves 0 leafset
  pure ⟨leafData, leafset.sort, numLeaves, root, siblings, rows⟩

def putU64le (n : ℕ) : List UInt8 := leBytes 8 n

/-- A proof in the order of its fields, every list with its length first. -/
def MatrixProof.serialize (p : MatrixProof) : List UInt8 :=
  putU64le p.leafIndices.length ++ p.leafData.flatMap (fun chunk => putU64le 1024 ++ chunk) ++
    putU64le p.leafIndices.length ++ p.leafIndices.flatMap putU64le ++ putU64le p.totalLeaves ++
    p.root.toList ++ putU64le p.siblings.length ++ p.siblings.flatMap Vector.toList ++
    putU64le p.rowIndices.length ++ p.rowIndices.flatMap putU64le

def serMatrixProof (out : List UInt8) (s : Search) (which : Matrix) (cols : ℕ) (rows : List ℕ)
    (cachedLeaves : Option (List CvBytes)) : Except ProofError (List UInt8) := do
  let p ← matrixProof compress key32 s which cols rows cachedLeaves
  pure (out ++ p.serialize)

variable {compress key32}

/-! ## The walk -/

theorem nodeAt_eq_ok {α : Type} {nodes : List α} {i : ℕ} {node : α} (h : nodes[i]? = some node) :
    nodeAt nodes i = .ok node := by
  rw [nodeAt, h]

/-- The layers, read by level. -/
theorem nodeAt_buildLayers (cvs : ℕ → CvBytes) {n k level : ℕ} (hlt : 2 ^ k < n)
    (hle : n ≤ 2 ^ (k + 1)) (hlevel : level ≤ k) :
    nodeAt (buildLayers compress key32 ((List.range n).map cvs)) level =
      .ok (layer (parentCv compress key32 false) cvs n level) := by
  apply nodeAt_eq_ok
  rw [← layer_zero, buildLayers_layer (d := k) (by rwa [Nat.zero_add]) (by rwa [Nat.zero_add]),
    List.getElem?_map, List.getElem?_range' (by omega)]
  simp

/-- The siblings of a level are nodes of its layer. -/
theorem mapM_nodeAt_layer (f : CvBytes → CvBytes → CvBytes) (cvs : ℕ → CvBytes) {n level : ℕ}
    {cur : Finset ℕ} (hcur : ∀ i ∈ cur, i < width n level) :
    (cur.sort.filterMap (partner cur (width n level))).mapM (nodeAt (layer f cvs n level)) =
      .ok ((cur.sort.filterMap (partner cur (width n level))).map (node f cvs n level)) := by
  have hnode : ∀ i ∈ cur.sort.filterMap (partner cur (width n level)),
      nodeAt (layer f cvs n level) (id i) = .ok (node f cvs n level i) := by
    intro i hi
    obtain ⟨j, hj, hij⟩ := List.mem_filterMap.mp hi
    have hlt := partner_lt hij (hcur j ((Finset.mem_sort _).mp hj))
    apply nodeAt_eq_ok
    rw [id, getElem?_layer, if_pos hlt]
  have := mapM_map_eq_ok hnode
  rwa [List.map_id] at this

/-- **One turn of the walk.** -/
theorem siblingLoop_step (cvs : ℕ → CvBytes) {n k level : ℕ} {cur : Finset ℕ} (hlt : 2 ^ k < n)
    (hle : n ≤ 2 ^ (k + 1)) (hlevel : level ≤ k) (hne : cur.Nonempty)
    (hcur : ∀ i ∈ cur, i < width n level) :
    siblingLoop (buildLayers compress key32 ((List.range n).map cvs)) (width n level) level
        cur =
      (siblingLoop (buildLayers compress key32 ((List.range n).map cvs)) (width n (level + 1))
        (level + 1) (cur.image (· / 2))).map fun rest =>
          (cur.sort.filterMap (partner cur (width n level))).map
            (node (parentCv compress key32 false) cvs n level) ++ rest := by
  have hwidth : 1 < width n level := by
    rw [lt_width, Nat.one_mul]
    exact (Nat.pow_le_pow_right (by decide) hlevel).trans_lt hlt
  have hnext : width n level / 2 + width n level % 2 = width n (level + 1) := by
    rw [width_succ]
    omega
  rw [siblingLoop, dif_pos ⟨hwidth, hne⟩, nodeAt_buildLayers cvs hlt hle hlevel, hnext]
  simp only [bind, Except.bind, mapM_nodeAt_layer _ cvs hcur]
  cases siblingLoop (buildLayers compress key32 ((List.range n).map cvs)) (width n (level + 1))
    (level + 1) (cur.image (· / 2)) <;> rfl

/-- **A run of the walk.** From any level on, the siblings that it emits are those that the check
takes on its way to the root. -/
theorem siblingLoop_spec (cvs : ℕ → CvBytes) {n level d : ℕ} {cur : Finset ℕ}
    (hlt : 2 ^ (level + d) < n) (hle : n ≤ 2 ^ (level + d + 1)) (hne : cur.Nonempty)
    (hcur : ∀ i ∈ cur, i < width n level) : ∃ siblings,
      siblingLoop (buildLayers compress key32 ((List.range n).map cvs)) (width n level) level
          cur = .ok siblings ∧
        climb (parentCv compress key32 false) (parentCv compress key32 true)
            (width n level)
            (cur.sort.map fun i => (i, node (parentCv compress key32 false) cvs n level i))
            siblings =
          some (root (parentCv compress key32 false) cvs (parentCv compress key32 true)
            n) := by
  induction d generalizing level cur with
  | zero =>
    have hwidth : width n level = 2 := width_eq_two hlt hle
    have hone : width n (level + 1) = 1 := by
      rw [width_succ, hwidth]
    rw [siblingLoop_step cvs hlt hle (Nat.le_refl level) hne hcur, siblingLoop, dif_neg (by omega)]
    refine ⟨_, rfl, ?_⟩
    rw [root_eq_nodes hlt hle]
    simp only [List.append_nil]
    rw [hwidth] at hcur ⊢
    exact climb_top hcur hne
  | succ d ih =>
    have hwidth : 2 < width n level :=
      two_lt_width.mpr ((Nat.pow_le_pow_right (by decide) (by omega)).trans_lt hlt)
    have hcur' : ∀ i ∈ cur.image (· / 2), i < width n (level + 1) := by
      intro i hi
      obtain ⟨j, hj, rfl⟩ := Finset.mem_image.mp hi
      have := hcur j hj
      rw [width_succ]
      omega
    rw [siblingLoop_step cvs hlt hle (Nat.le_add_right level (d + 1)) hne hcur]
    rw [show level + (d + 1) = level + 1 + d by omega] at hlt hle
    obtain ⟨rest, hloop, hclimb⟩ := ih hlt hle (hne.image _) hcur'
    rw [hloop]
    refine ⟨_, rfl, ?_⟩
    rw [climb_step hwidth hcur, ← width_succ]
    simpa only [joined_node] using hclimb

/-! ## The parts -/

theorem checkedElements_eq_ok {rows columns : ℕ} (hrows : 0 < rows) (hrows' : rows ≤ intMax)
    (hcolumns : 0 < columns) (hcolumns' : columns ≤ intMax) (name : String) :
    checkedElements rows columns name = .ok (rows * columns) := by
  have hsize : ¬ sizeMax / columns < rows := by
    rw [Nat.not_lt, Nat.le_div_iff_mul_le hcolumns]
    exact (Nat.mul_le_mul hrows' hcolumns').trans (by decide)
  rw [checkedElements, throwIf, if_neg (by omega), throwIf, if_neg hsize]
  rfl

/-- The number of leaves of a matrix. -/
def leafCount (s : Search) (which : Matrix) : ℕ :=
  s.rows which * s.k / 1024 + if s.rows which * s.k % 1024 ≠ 0 then 1 else 0

/-- The dimensions are positive machine integers, and the leaves of the matrix can be counted. -/
structure Search.Opens (s : Search) (which : Matrix) : Prop where
  m_pos : 0 < s.m
  m_le : s.m ≤ intMax
  n_pos : 0 < s.n
  n_le : s.n ≤ intMax
  k_pos : 0 < s.k
  k_le : s.k ≤ intMax
  two_le : 2 ≤ leafCount s which
  le_intMax : leafCount s which ≤ intMax

variable {s : Search} {which : Matrix} {cols : ℕ} {rows : List ℕ}

theorem Search.Opens.elements (h : s.Opens which) (name : String) :
    checkedElements (s.rows which) s.k name = .ok (s.rows which * s.k) := by
  cases which with
  | a => exact checkedElements_eq_ok h.m_pos h.m_le h.k_pos h.k_le name
  | b => exact checkedElements_eq_ok h.n_pos h.n_le h.k_pos h.k_le name

theorem Search.Opens.chunks (h : s.Opens which) (name : String) :
    checkedChunkCount (s.rows which * s.k) name = .ok (leafCount s which) := by
  have hle : ¬ intMax < leafCount s which := Nat.not_lt.mpr h.le_intMax
  rw [leafCount] at hle
  simp only [checkedChunkCount]
  rw [throwIf, if_neg hle]
  rfl

theorem Search.Opens.genLeaf (h : s.Opens which) {leaf : ℕ} (hleaf : leaf < leafCount s which) :
    ∃ chunk, Pearl.genLeaf s which leaf = .ok chunk := by
  rw [Pearl.genLeaf, h.elements]
  simp only [bind, Except.bind, h.chunks]
  rw [throwIf, if_neg (Nat.not_le.mpr hleaf)]
  simp only [checkedElements_eq_ok h.m_pos h.m_le h.k_pos h.k_le]
  exact ⟨_, rfl⟩

/-- The leaves, cached or generated, are as many as the matrix has. -/
theorem Search.Opens.leafLayer (h : s.Opens which) {cached : Option (List CvBytes)}
    (hcached : ∀ leaves, cached = some leaves → leaves.length = leafCount s which) : ∃ leaves,
      Pearl.leafLayer compress key32 s which (leafCount s which) cached = .ok leaves ∧
        leaves.length = leafCount s which := by
  cases cached with
  | some leaves =>
    have hlength := hcached leaves rfl
    refine ⟨leaves, ?_, hlength⟩
    rw [Pearl.leafLayer, throwIf, if_neg fun hne => hne hlength]
    rfl
  | none =>
    have hleaf : ∀ i ∈ List.range (leafCount s which),
        ∃ cv, leafCv compress key32 s which i = .ok cv := by
      intro i hi
      obtain ⟨chunk, hchunk⟩ := h.genLeaf (List.mem_range.mp hi)
      exact ⟨_, Except.bind_eq_ok.mpr ⟨chunk, hchunk, rfl⟩⟩
    obtain ⟨leaves, hleaves⟩ := exists_mapM_eq_ok hleaf
    refine ⟨leaves, hleaves, ?_⟩
    rw [← (forall₂_of_mapM_eq_ok hleaves).length_eq, List.length_range]

/-- A leaf that a row lies in. -/
def InRow (cols row i : ℕ) : Prop := row * cols / 1024 ≤ i ∧ i ≤ ((row + 1) * cols - 1) / 1024

theorem rowLeaves_eq_ok {numLeaves row : ℕ} (hcols : 0 < cols) (hcols' : cols ≤ intMax)
    (hrow : row ≤ intMax) (hcount : numLeaves ≤ intMax)
    (hlast : ((row + 1) * cols - 1) / 1024 < numLeaves) :
    rowLeaves numLeaves cols row =
      .ok (Finset.Icc (row * cols / 1024) (((row + 1) * cols - 1) / 1024)) := by
  have hend : ((row + 1) * cols + sizeMax) % 2 ^ 64 = (row + 1) * cols - 1 := by
    have hle : (row + 1) * cols ≤ (intMax + 1) * intMax := Nat.mul_le_mul (by omega) hcols'
    have hpos : 0 < (row + 1) * cols := Nat.mul_pos (Nat.succ_pos row) hcols
    have hbound : (intMax + 1) * intMax < 2 ^ 64 := by decide
    rw [sizeMax]
    omega
  simp only [rowLeaves, hend]
  rw [throwIf, if_neg (by omega)]
  rfl

/-- The leaf set holds the leaves of the rows. -/
theorem leafSet_eq_ok {numLeaves : ℕ} (hcols : 0 < cols) (hcols' : cols ≤ intMax)
    (hcount : numLeaves ≤ intMax)
    (hrows : ∀ row ∈ rows, row ≤ intMax ∧ ((row + 1) * cols - 1) / 1024 < numLeaves) :
    ∃ leafset, leafSet numLeaves cols rows = .ok leafset ∧
      ∀ i, i ∈ leafset ↔ ∃ row ∈ rows, InRow cols row i := by
  suffices hfold : ∀ start, ∃ leafset, rows.foldlM (fun leafset row => do
      let leaves ← rowLeaves numLeaves cols row
      pure (leafset ∪ leaves)) start = .ok leafset ∧
        ∀ i, i ∈ leafset ↔ i ∈ start ∨ ∃ row ∈ rows, InRow cols row i by
    simpa [leafSet] using hfold ∅
  induction rows with
  | nil => exact fun start => ⟨start, rfl, by simp⟩
  | cons row rows ih =>
    intro start
    obtain ⟨hrow, hrows⟩ := List.forall_mem_cons.mp hrows
    obtain ⟨leafset, hfold, hmem⟩ := ih hrows
      (start ∪ Finset.Icc (row * cols / 1024) (((row + 1) * cols - 1) / 1024))
    refine ⟨leafset, ?_, fun i => ?_⟩
    · rw [List.foldlM_cons, rowLeaves_eq_ok hcols hcols' hrow.1 hcount hrow.2]
      exact hfold
    · rw [hmem, Finset.mem_union, Finset.mem_Icc, List.exists_mem_cons_iff, or_assoc, InRow]

/-- The leaves as a function of their index. -/
theorem range_map_getD {leaves : List CvBytes} {n : ℕ} (h : leaves.length = n) :
    (List.range n).map (fun i => leaves.getD i default) = leaves := by
  refine List.ext_getElem (by simp [h]) fun i hi hi' => ?_
  rw [List.getElem_map, List.getElem_range, List.getD_eq_getElem?_getD,
    List.getElem?_eq_getElem hi', Option.getD_some]

/-- **Openings verify.** For every matrix of two or more leaves, every nonempty list of rows inside
it and arbitrary chaining values of its leaves, the proof is made without a read outside a layer, it
reveals the leaves of the rows in ascending order, and a check that goes up from these leaves takes
its siblings one by one, all of them, and ends with its root. -/
theorem matrixProof_opens (compress : Cv → Block → UInt64 → UInt32 → UInt32 → Block)
    (key32 : Option CvBytes) (s : Search) (which : Matrix) (cols : ℕ) (rows : List ℕ)
    (cached : Option (List CvBytes)) (hs : s.Opens which) (hcols : 0 < cols)
    (hcols' : cols ≤ intMax)
    (hcached : ∀ leaves, cached = some leaves → leaves.length = leafCount s which)
    (hne : rows ≠ [])
    (hrows : ∀ row ∈ rows,
      row ≤ intMax ∧ ((row + 1) * cols - 1) / 1024 < leafCount s which) : ∃ leaves p,
    leafLayer compress key32 s which (leafCount s which) cached = .ok leaves ∧
      matrixProof compress key32 s which cols rows cached = .ok p ∧
      p.totalLeaves = leafCount s which ∧ p.leafIndices.Pairwise (· < ·) ∧
      (∀ i, i ∈ p.leafIndices ↔ ∃ row ∈ rows, InRow cols row i) ∧
      climb (parentCv compress key32 false) (parentCv compress key32 true) p.totalLeaves
        (p.leafIndices.map fun i => (i, leaves.getD i default)) p.siblings = some p.root ∧
      ∀ out, serMatrixProof compress key32 out s which cols rows cached =
        .ok (out ++ p.serialize) := by
  obtain ⟨leaves, hleaves, hlength⟩ : ∃ leaves,
      leafLayer compress key32 s which (leafCount s which) cached = .ok leaves ∧ _ :=
    hs.leafLayer hcached
  obtain ⟨leafset, hset, hmem⟩ := leafSet_eq_ok hcols hcols' hs.le_intMax hrows
  have hlt : ∀ i ∈ leafset, i < leafCount s which := by
    intro i hi
    obtain ⟨row, hrow, -, hlast⟩ := (hmem i).mp hi
    exact hlast.trans_lt (hrows row hrow).2
  have hnonempty : leafset.Nonempty := by
    obtain ⟨row, hrow⟩ := List.exists_mem_of_ne_nil rows hne
    refine ⟨row * cols / 1024, (hmem _).mpr ⟨row, hrow, le_rfl, Nat.div_le_div_right ?_⟩⟩
    rw [Nat.succ_mul]
    omega
  have hbytes : ∀ i ∈ leafset.sort, ∃ chunk, leafBytes s which i = .ok chunk := by
    intro i hi
    obtain ⟨chunk, hchunk⟩ := hs.genLeaf (hlt i ((Finset.mem_sort _).mp hi))
    exact ⟨_, Except.bind_eq_ok.mpr ⟨chunk, hchunk, rfl⟩⟩
  obtain ⟨leafData, hdata⟩ := exists_mapM_eq_ok hbytes
  obtain ⟨last, hlast, -, hroot⟩ : ∃ last,
      (buildLayers compress key32 ((List.range (leafCount s which)).map
        fun i => leaves.getD i default)).getLast? = some last ∧ _ := mergeRoot_getLast hs.two_le
  obtain ⟨k, hlow, hhigh⟩ := exists_pow hs.two_le
  rw [← Nat.zero_add k] at hlow hhigh
  obtain ⟨siblings, hwalk, hclimb⟩ : ∃ siblings,
      siblingLoop (buildLayers compress key32 ((List.range (leafCount s which)).map
        fun i => leaves.getD i default)) (width (leafCount s which) 0) 0 leafset = .ok siblings ∧ _ :=
    siblingLoop_spec _ hlow hhigh hnonempty (by rwa [width_zero])
  rw [range_map_getD hlength] at hlast hwalk
  rw [width_zero] at hwalk hclimb
  simp only [node_zero] at hclimb
  have hproof : matrixProof compress key32 s which cols rows cached = .ok ⟨leafData, leafset.sort,
      leafCount s which, root (parentCv compress key32 false) (fun i => leaves.getD i default)
        (parentCv compress key32 true) (leafCount s which), siblings, rows⟩ := by
    refine Except.bind_eq_ok.mpr ⟨_, hs.elements _, Except.bind_eq_ok.mpr ⟨_, hs.chunks _,
      Except.bind_eq_ok.mpr ⟨_, hleaves, ?_⟩⟩⟩
    simp only [hlast, Option.getD_some, hroot]
    exact Except.bind_eq_ok.mpr ⟨_, rfl, Except.bind_eq_ok.mpr ⟨_, hset,
      Except.bind_eq_ok.mpr ⟨_, hdata, Except.bind_eq_ok.mpr ⟨_, hwalk, rfl⟩⟩⟩⟩
  refine ⟨leaves, _, hleaves, hproof, rfl, leafset.sortedLT_sort.pairwise, fun i => ?_, hclimb,
    fun out => Except.bind_eq_ok.mpr ⟨_, hproof, rfl⟩⟩
  rw [Finset.mem_sort]
  exact hmem i

theorem matrixProof_opens_second_row : ∃ p,
    matrixProof (fun cv _ _ _ _ => cv ++ cv) none ⟨7, 2, 1, 1024⟩ .a 1024 [1]
        (some [Vector.replicate 32 0, Vector.replicate 32 1]) = .ok p ∧
      climb (parentCv (fun cv _ _ _ _ => cv ++ cv) none false)
        (parentCv (fun cv _ _ _ _ => cv ++ cv) none true) 2
        (p.leafIndices.map fun i =>
          (i, [Vector.replicate 32 0, Vector.replicate 32 1].getD i default)) p.siblings =
        some p.root := by
  obtain ⟨leaves, p, hleaves, hproof, htotal, -, -, hclimb, -⟩ := matrixProof_opens
    (fun cv _ _ _ _ => cv ++ cv) none ⟨7, 2, 1, 1024⟩ .a 1024 [1]
    (some [Vector.replicate 32 0, Vector.replicate 32 1])
    ⟨by decide, by decide, by decide, by decide, by decide, by decide, by decide, by decide⟩
    (by decide) (by decide) (by rintro leaves ⟨⟩; rfl) (by decide) (by decide)
  rw [htotal] at hclimb
  cases hleaves
  exact ⟨p, hproof, hclimb⟩

end Proof

end MoMiner.Pearl
