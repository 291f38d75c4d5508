import MoMiner.Pearl.Blake3

/-!
# The streaming hash

The state of `b3` is described by the data that it has taken: `stateOf` for the chunk in progress,
the stack of a binary counter for the chunks before it.

Main result: `b3_spec`.
-/

namespace MoMiner.Pearl

open MoMiner.LeftTree

section Chunk

variable (compress : Cv → Block → UInt64 → UInt32 → UInt32 → Block) (key : Cv) (base : UInt32)

/-- The chaining value after `n` full blocks of a chunk. -/
def cvAfter (counter : ℕ) (data : List UInt8) (n : ℕ) : Cv :=
  (List.range n).foldl (fun cv bi =>
    firstWords (compress cv (wordsFromLe ((data.drop (bi * 64)).take 64)) (UInt64.ofNat counter) 64
      (base ||| if bi = 0 then b3ChunkStart else 0))) key

/-- The state of a chunk with `n` of its blocks compressed. -/
def stateAfter (counter : ℕ) (data : List UInt8) (n : ℕ) : ChunkState where
  cv := cvAfter compress key base counter data n
  block := data.drop (n * 64)
  blocksCompressed := n
  chunkCounter := counter

/-- The state of a chunk: its last block is kept. -/
def stateOf (counter : ℕ) (data : List UInt8) : ChunkState :=
  stateAfter compress key base counter data ((data.length - 1) / 64)

variable {compress key base} {counter : ℕ} {data : List UInt8}

theorem cvAfter_succ (n : ℕ) : cvAfter compress key base counter data (n + 1) =
    firstWords (compress (cvAfter compress key base counter data n)
      (wordsFromLe ((data.drop (n * 64)).take 64)) (UInt64.ofNat counter) 64
      (base ||| if n = 0 then b3ChunkStart else 0)) := by
  simp [cvAfter, List.range_succ]

theorem cvAfter_append {n : ℕ} (hn : n * 64 ≤ data.length) (bytes : List UInt8) :
    cvAfter compress key base counter (data ++ bytes) n =
      cvAfter compress key base counter data n := by
  induction n with
  | zero => simp [cvAfter]
  | succ n ih =>
    have hblock : ((data ++ bytes).drop (n * 64)).take 64 = (data.drop (n * 64)).take 64 := by
      rw [List.drop_append_of_le_length (by omega), List.take_append_of_le_length]
      rw [List.length_drop]
      omega
    rw [cvAfter_succ, cvAfter_succ, hblock, ih (by omega)]

theorem stateAfter_append {n : ℕ} (hn : n * 64 ≤ data.length) (bytes : List UInt8) :
    stateAfter compress key base counter (data ++ bytes) n =
      { stateAfter compress key base counter data n with
        block := (stateAfter compress key base counter data n).block ++ bytes } := by
  rw [stateAfter, cvAfter_append hn, List.drop_append_of_le_length hn, stateAfter]

theorem length_stateOf : (stateOf compress key base counter data).length = data.length := by
  simp only [stateOf, stateAfter, ChunkState.length, List.length_drop]
  omega

/-- When more data follows, exactly the full blocks are compressed. -/
theorem compressFull_stateOf :
    (stateOf compress key base counter data).compressFull compress base =
      stateAfter compress key base counter data (data.length / 64) := by
  have hlength : (stateOf compress key base counter data).block.length =
      data.length - (data.length - 1) / 64 * 64 := by
    simp [stateOf, stateAfter]
  rw [ChunkState.compressFull]
  by_cases hfull : (stateOf compress key base counter data).block.length = 64
  · rw [if_pos hfull]
    rw [hlength] at hfull
    have hcount : data.length / 64 = (data.length - 1) / 64 + 1 := by omega
    have hblock : (data.drop ((data.length - 1) / 64 * 64)).take 64 =
        data.drop ((data.length - 1) / 64 * 64) := by
      rw [List.take_of_length_le]
      rw [List.length_drop]
      omega
    have hempty : data.drop (((data.length - 1) / 64 + 1) * 64) = [] := by
      rw [List.drop_eq_nil_iff]
      omega
    rw [hcount, stateAfter, cvAfter_succ, hblock, hempty]
    rfl
  · rw [if_neg hfull]
    rw [hlength] at hfull
    have hcount : data.length / 64 = (data.length - 1) / 64 := by omega
    rw [hcount, stateOf]

/-- **Bytes taken into a chunk.** -/
theorem absorb_stateOf {fuel : ℕ} {bytes : List UInt8} (hfuel : bytes.length ≤ fuel) :
    absorb compress base fuel (stateOf compress key base counter data) bytes =
      .ok (stateOf compress key base counter (data ++ bytes)) := by
  induction fuel generalizing data bytes with
  | zero =>
    rw [List.length_eq_zero_iff.mp (Nat.le_zero.mp hfuel), List.append_nil, absorb]
  | succ fuel ih =>
    cases bytes with
    | nil =>
      rw [List.append_nil, absorb]
    | cons byte bytes =>
      have hblock : (stateAfter compress key base counter data (data.length / 64)).block.length =
          data.length % 64 := by
        simp only [stateAfter, List.length_drop]
        omega
      rw [absorb, compressFull_stateOf, hblock]
      generalize hn : min (64 - data.length % 64) (byte :: bytes).length = n
      have hpos : 0 < n := by
        rw [← hn, List.length_cons]
        omega
      have hle : n ≤ (byte :: bytes).length := hn ▸ Nat.min_le_right _ _
      -- The new bytes go into the last block.
      have hstate : { stateAfter compress key base counter data (data.length / 64) with
            block := (stateAfter compress key base counter data (data.length / 64)).block ++
              (byte :: bytes).take n } =
          stateOf compress key base counter (data ++ (byte :: bytes).take n) := by
        rw [← stateAfter_append (by omega), stateOf, List.length_append, List.length_take]
        congr 1
        omega
      rw [hstate, ih]
      · rw [List.append_assoc, List.take_append_drop]
      · rw [List.length_drop]
        omega

/-- The chaining value of a chunk, in words. -/
def chunkWords (compress : Cv → Block → UInt64 → UInt32 → UInt32 → Block) (key : Cv)
    (base : UInt32) (counter : ℕ) (data : List UInt8) : Cv :=
  outputCv compress (chunkOutput base (stateOf compress key base counter data))

/-- The blocks before the last one are full and do not end the chunk. -/
theorem foldl_chunkBlock {n blocks : ℕ} (hn : n < blocks) (hdata : n * 64 ≤ data.length) :
    (List.range n).foldl (chunkBlock compress base data counter blocks) key =
      cvAfter compress key base counter data n := by
  induction n with
  | zero => rfl
  | succ n ih =>
    have hfull : ((data.drop (n * 64)).take 64).length = 64 := by
      rw [List.length_take, List.length_drop]
      omega
    rw [List.range_succ, List.foldl_append, ih (by omega) (by omega), cvAfter_succ, List.foldl_cons,
      List.foldl_nil, chunkBlock, if_neg (show ¬ n = blocks - 1 by omega), hfull]
    rfl

/-- The one-shot chaining value of a chunk is that of the stream. -/
theorem chunkCv_eq {key32 : Option CvBytes} :
    chunkCv compress key32 data counter =
      cvToBytes (chunkWords compress (loadKey key32).1 (loadKey key32).2 counter data) := by
  generalize hn : (data.length - 1) / 64 = n
  have hblocks : (if (data.length + 63) / 64 = 0 then 1 else (data.length + 63) / 64) = n + 1 := by
    split_ifs <;> omega
  have hlast : (data.drop (n * 64)).take 64 = data.drop (n * 64) := by
    rw [List.take_of_length_le]
    rw [List.length_drop]
    omega
  rw [chunkCv]
  simp only [hblocks]
  rw [List.range_succ, List.foldl_append, foldl_chunkBlock (Nat.lt_succ_self n) (by omega),
    List.foldl_cons, List.foldl_nil, chunkBlock, if_pos (show n = n + 1 - 1 by omega), hlast,
    chunkWords, outputCv, chunkOutput, stateOf, hn]
  rfl

end Chunk

/-! ## The stack -/

section Stack

variable {compress : Cv → Block → UInt64 → UInt32 → UInt32 → Block} {key : Cv} {base : UInt32}
  {leaf : ℕ → Cv}

/-- The chaining value of a parent, in words. -/
def parentWords (compress : Cv → Block → UInt64 → UInt32 → UInt32 → Block) (key : Cv)
    (base : UInt32) (left right : Cv) : Cv :=
  outputCv compress (parentOutput left right key base)

theorem addCv_odd {fuel total : ℕ} (h : total % 2 ≠ 0) (stack : List Cv) (cv : Cv) :
    addCv compress key base (fuel + 1) stack cv total =
      if stack.length < 54 then .ok (cv :: stack) else .error .stackOverflow := by
  cases stack with
  | nil => simp [addCv, h]
  | cons top rest => simp [addCv, h]

theorem addCv_even_nil {fuel total : ℕ} (h : total % 2 = 0) (cv : Cv) :
    addCv compress key base (fuel + 1) [] cv total = .error .stackUnderflow := by
  simp [addCv, h]

theorem addCv_even_cons {fuel total : ℕ} (h : total % 2 = 0) (top : Cv) (rest : List Cv) (cv : Cv) :
    addCv compress key base (fuel + 1) (top :: rest) cv total =
      addCv compress key base fuel rest (parentWords compress key base top cv) (total / 2) := by
  simp [addCv, h, parentWords]

/-- A tree at the bottom that is too large to be completed stays where it is. -/
theorem addCv_append {k t fuel : ℕ} {stack stack' : List Cv} {bottom cv : Cv} (ht : 0 < t)
    (hlt : t < 2 ^ k) (hlen : stack'.length < 54)
    (h : addCv compress key base fuel stack cv t = .ok stack') :
    addCv compress key base fuel (stack ++ [bottom]) cv (2 ^ k + t) = .ok (stack' ++ [bottom]) := by
  induction fuel generalizing k t stack cv with
  | zero => cases h
  | succ fuel ih =>
    obtain ⟨k, rfl⟩ : ∃ j, k = j + 1 := Nat.exists_eq_succ_of_ne_zero fun hk => by
      rw [hk] at hlt
      omega
    have hpow : 2 ^ (k + 1) = 2 * 2 ^ k := pow_succ' 2 k
    by_cases heven : t % 2 = 0
    · cases stack with
      | nil =>
        rw [addCv_even_nil heven] at h
        cases h
      | cons top rest =>
        rw [addCv_even_cons heven] at h
        rw [List.cons_append, addCv_even_cons (by omega),
          show (2 ^ (k + 1) + t) / 2 = 2 ^ k + t / 2 by omega]
        exact ih (by omega) (by omega) h
    · rw [addCv_odd heven] at h
      rw [addCv_odd (by omega)]
      split_ifs at h with hroom
      obtain rfl := Except.ok.inj h
      rw [List.length_cons] at hlen
      rw [if_pos (by rw [List.length_append, List.length_singleton]; omega)]
      rfl

/-- A tree at the bottom that is completed is merged last. -/
theorem addCv_complete {k fuel : ℕ} {stack : List Cv} {bottom cv value : Cv}
    (h : addCv compress key base fuel stack cv (2 ^ k) = .ok [value]) :
    addCv compress key base (fuel + 1) (stack ++ [bottom]) cv (2 ^ (k + 1)) =
      .ok [parentWords compress key base bottom value] := by
  induction k generalizing fuel stack cv with
  | zero =>
    cases fuel with
    | zero => cases h
    | succ fuel =>
      rw [addCv_odd (by decide)] at h
      split_ifs at h with hroom
      obtain ⟨rfl, rfl⟩ := List.cons_eq_cons.mp (Except.ok.inj h)
      rw [List.nil_append, addCv_even_cons (by decide), addCv_odd (by decide), if_pos (by decide)]
  | succ k ih =>
    have hhalf : ∀ j, 2 ^ (j + 1) % 2 = 0 ∧ 2 ^ (j + 1) / 2 = 2 ^ j := by
      intro j
      have := pow_succ' 2 j
      omega
    cases fuel with
    | zero => cases h
    | succ fuel =>
      cases stack with
      | nil =>
        rw [addCv_even_nil (hhalf k).1] at h
        cases h
      | cons top rest =>
        rw [addCv_even_cons (hhalf k).1, (hhalf k).2] at h
        rw [List.cons_append, addCv_even_cons (hhalf (k + 1)).1, (hhalf (k + 1)).2]
        exact ih h

/-- **One more leaf.** The stack of a counter after `n` leaves becomes that after `n + 1`. -/
theorem addCv_counterStack {lo n fuel : ℕ} (hfuel : n + 1 < 2 ^ fuel) (hn : n + 1 < 2 ^ 54) :
    addCv compress key base fuel (counterStack (parentWords compress key base) leaf lo n)
        (leaf (lo + n)) (n + 1) =
      .ok (counterStack (parentWords compress key base) leaf lo (n + 1)) := by
  induction n using Nat.strong_induction_on generalizing lo fuel with
  | _ n ih =>
    have hone : ∀ lo k, counterStack (parentWords compress key base) leaf lo (2 ^ k) =
        [subtree (parentWords compress key base) leaf lo (2 ^ k)] := by
      intro lo k
      rw [← Nat.add_zero (2 ^ k), counterStack_add (Nat.two_pow_pos k), counterStack_zero,
        List.nil_append, Nat.add_zero]
    by_cases hzero : n = 0
    · subst hzero
      obtain ⟨fuel, rfl⟩ : ∃ j, fuel = j + 1 := Nat.exists_eq_succ_of_ne_zero fun hk => by
        rw [hk] at hfuel
        omega
      have hstack := hone lo 0
      rw [pow_zero, subtree_one le_rfl] at hstack
      rw [counterStack_zero, Nat.zero_add, hstack, addCv_odd (by decide), Nat.add_zero,
        if_pos (by decide)]
    · obtain ⟨k, m, hm, rfl⟩ := exists_add hzero
      have hpos := Nat.two_pow_pos k
      have hpow : 2 ^ (k + 1) = 2 * 2 ^ k := pow_succ' 2 k
      rw [counterStack_add hm]
      rcases (Nat.succ_le_of_lt hm).lt_or_eq with hlt | heq
      · have hk : k < 54 := (Nat.pow_lt_pow_iff_right (show 1 < 2 by decide)).mp (by omega)
        have hlen : (counterStack (parentWords compress key base) leaf (lo + 2 ^ k)
            (m + 1)).length < 54 := (length_counterStack_le hlt).trans_lt hk
        rw [Nat.add_assoc, counterStack_add hlt, ← Nat.add_assoc lo]
        exact addCv_append (Nat.succ_pos m) hlt hlen (ih m (by omega) (by omega) (by omega))
      · have heq' : m + 1 = 2 ^ k := heq
        have hfuel' : k + 1 < fuel :=
          (Nat.pow_lt_pow_iff_right (show 1 < 2 by decide)).mp (by omega)
        obtain ⟨fuel, rfl⟩ : ∃ j, fuel = j + 1 := Nat.exists_eq_succ_of_ne_zero (by omega)
        have hpow' : 2 ^ k < 2 ^ fuel := Nat.pow_lt_pow_right (by decide) (by omega)
        have hrest : addCv compress key base fuel
            (counterStack (parentWords compress key base) leaf (lo + 2 ^ k) m)
            (leaf (lo + 2 ^ k + m)) (m + 1) = _ := ih m (by omega) (by omega) (by omega)
        rw [heq', hone, Nat.add_assoc] at hrest
        rw [show 2 ^ k + m + 1 = 2 ^ (k + 1) by omega, addCv_complete hrest, hone,
          subtree_split (n := 2 ^ (k + 1)) (by omega), half_eq (k := k) (by omega) (by omega),
          show 2 ^ (k + 1) - 2 ^ k = 2 ^ k by omega]

/-- The chaining value of an output that is folded with parents. -/
theorem outputCv_foldl (stack : List Cv) (o : Output) :
    outputCv compress (stack.foldl (fun o cv => parentOutput cv (outputCv compress o) key base) o) =
      stack.foldl (fun acc cv => parentWords compress key base cv acc) (outputCv compress o) := by
  induction stack generalizing o with
  | nil => rfl
  | cons cv stack ih => exact ih (parentOutput cv (outputCv compress o) key base)

end Stack

/-! ## The loop -/

section Loop

variable (compress : Cv → Block → UInt64 → UInt32 → UInt32 → Block) (key : Cv) (base : UInt32)
  (input : List UInt8)

/-- The chaining value of a chunk of the input, in words. -/
def leafWords (i : ℕ) : Cv :=
  chunkWords compress key base i ((input.drop (b3ChunkLen * i)).take b3ChunkLen)

/-- The state of the stream in chunk `c`, of which `data` has been taken. -/
def streamState (c : ℕ) (data : List UInt8) : List Cv × ChunkState :=
  (counterStack (parentWords compress key base) (leafWords compress key base input) 0 c,
    stateOf compress key base c data)

variable {compress key base input} {c : ℕ} {data rest : List UInt8}

theorem stateOf_nil : stateOf compress key base c [] = ChunkState.reset key c := by
  simp [stateOf, stateAfter, cvAfter, ChunkState.reset]

/-- A full chunk becomes a leaf; otherwise nothing happens. -/
theorem finishChunk_streamState (hlength : input.length < 2 ^ 32)
    (hinput : input.drop (b3ChunkLen * c) = data ++ rest)
    (hdata : data.length = b3ChunkLen ∨ data = []) : ∃ c', input.drop (b3ChunkLen * c') = rest ∧
      finishChunk compress key base (streamState compress key base input c data) =
        .ok (streamState compress key base input c' []) := by
  rcases hdata with hfull | rfl
  · have hbound : b3ChunkLen * c + b3ChunkLen ≤ input.length := by
      have h := congrArg List.length hinput
      rw [List.length_drop, List.length_append, hfull] at h
      rw [b3ChunkLen] at h ⊢
      omega
    have hleaf : leafWords compress key base input c =
        chunkWords compress key base c data := by
      rw [leafWords, hinput, ← hfull, List.take_left]
    have hadd : addCv compress key base 64 (counterStack (parentWords compress key base)
          (leafWords compress key base input) 0 c) (leafWords compress key base input (0 + c)) (c + 1) =
        .ok (counterStack (parentWords compress key base) (leafWords compress key base input) 0
          (c + 1)) := by
      rw [b3ChunkLen] at hbound
      exact addCv_counterStack (by omega) (by omega)
    rw [Nat.zero_add, hleaf] at hadd
    refine ⟨c + 1, ?_, ?_⟩
    · rw [Nat.mul_succ, ← List.drop_drop, hinput, ← hfull, List.drop_left]
    · rw [finishChunk, streamState, length_stateOf, if_pos hfull, streamState, stateOf_nil]
      exact Except.bind_eq_ok.mpr ⟨_, hadd, rfl⟩
  · refine ⟨c, hinput, ?_⟩
    rw [finishChunk, streamState, length_stateOf, if_neg (by decide)]
    rfl

/-- At the end of the input the chunk in progress is the last one. -/
theorem b3Loop_nil {fuel : ℕ} (hinput : input.drop (b3ChunkLen * c) = data ++ [])
    (hne : data ++ [] ≠ []) (hle : data.length ≤ b3ChunkLen) : ∃ last,
      b3ChunkLen * last < input.length ∧ input.length ≤ b3ChunkLen * (last + 1) ∧
      b3Loop compress key base fuel (streamState compress key base input c data) [] =
        .ok (streamState compress key base input last (input.drop (b3ChunkLen * last))) := by
  rw [List.append_nil] at hinput hne
  have hpos := List.length_pos_iff.mpr hne
  rw [← hinput] at hpos hle
  rw [List.length_drop] at hpos hle
  refine ⟨c, by omega, ?_, ?_⟩
  · rw [Nat.mul_succ]
    omega
  · rw [hinput]
    cases fuel <;> rfl

/-- **One turn of the loop.** The chunk in progress is finished and the next one is taken. -/
theorem b3Loop_cons {byte : UInt8} {bytes : List UInt8} (fuel : ℕ) (hlength : input.length < 2 ^ 32)
    (hinput : input.drop (b3ChunkLen * c) = data ++ byte :: bytes)
    (hdata : data.length = b3ChunkLen ∨ data = []) : ∃ c',
      input.drop (b3ChunkLen * c') = byte :: bytes ∧
      b3Loop compress key base (fuel + 1) (streamState compress key base input c data)
          (byte :: bytes) =
        b3Loop compress key base fuel
          (streamState compress key base input c' ((byte :: bytes).take b3ChunkLen))
          ((byte :: bytes).drop b3ChunkLen) := by
  obtain ⟨c', hrest, hfinish⟩ := finishChunk_streamState hlength hinput hdata
  have hzero : (streamState compress key base input c' []).2.length = 0 := length_stateOf
  refine ⟨c', hrest, ?_⟩
  rw [b3Loop, hfinish]
  change (absorb _ _ _ _ _ >>= _) = _
  rw [hzero, Nat.sub_zero]
  generalize byte :: bytes = rest
  have htake : rest.take (min b3ChunkLen rest.length) = rest.take b3ChunkLen := by
    rw [← List.take_take, List.take_length]
  have hdrop : rest.drop (min b3ChunkLen rest.length) = rest.drop b3ChunkLen := by
    rcases Nat.le_total b3ChunkLen rest.length with hle | hle
    · rw [Nat.min_eq_left hle]
    · rw [Nat.min_eq_right hle, List.drop_length, List.drop_eq_nil_of_le hle]
  have habsorb : absorb compress base (min b3ChunkLen rest.length)
      (stateOf compress key base c' []) (rest.take b3ChunkLen) =
        .ok (stateOf compress key base c' (rest.take b3ChunkLen)) := by
    rw [← htake]
    exact absorb_stateOf (List.length_take_le _ _)
  rw [htake, hdrop]
  simp only [streamState, habsorb]
  rfl

/-- **A run of the loop.** It ends in the last chunk, with all data taken. -/
theorem b3Loop_streamState {fuel : ℕ} (hlength : input.length < 2 ^ 32)
    (hinput : input.drop (b3ChunkLen * c) = data ++ rest) (hne : data ++ rest ≠ [])
    (hle : data.length ≤ b3ChunkLen) (hdata : rest ≠ [] → data.length = b3ChunkLen ∨ data = [])
    (hfuel : rest.length ≤ fuel) : ∃ last, b3ChunkLen * last < input.length ∧
      input.length ≤ b3ChunkLen * (last + 1) ∧
      b3Loop compress key base fuel (streamState compress key base input c data) rest =
        .ok (streamState compress key base input last (input.drop (b3ChunkLen * last))) := by
  induction fuel generalizing c data rest with
  | zero =>
    rw [List.length_eq_zero_iff.mp (Nat.le_zero.mp hfuel)] at hinput hne ⊢
    exact b3Loop_nil hinput hne hle
  | succ fuel ih =>
    cases rest with
    | nil => exact b3Loop_nil hinput hne hle
    | cons byte bytes =>
      obtain ⟨c', hrest, hstep⟩ :=
        b3Loop_cons fuel hlength hinput (hdata (List.cons_ne_nil byte bytes))
      have hpos : 0 < (byte :: bytes).length := Nat.succ_pos _
      rw [hstep]
      generalize byte :: bytes = rest at hrest hpos hfuel ⊢
      refine ih ?_ ?_ (List.length_take_le _ _) ?_ ?_
      · rw [hrest, List.take_append_drop]
      · rw [List.take_append_drop]
        exact List.length_pos_iff.mp hpos
      · intro hmore
        rw [Ne, List.drop_eq_nil_iff, Nat.not_le] at hmore
        exact .inl (List.length_take_of_le hmore.le)
      · rw [List.length_drop, b3ChunkLen]
        omega

/-- The first state of the stream. -/
theorem streamState_zero :
    streamState compress key base input 0 [] = ([], ChunkState.reset key 0) := by
  rw [streamState, counterStack_zero, stateOf_nil]

/-- The stack is folded over the last chunk, and its bottom gives the root. -/
theorem outputRoot_streamState {last : ℕ} (hlast : last ≠ 0)
    (hle : input.length ≤ b3ChunkLen * (last + 1)) :
    outputRoot compress ((streamState compress key base input last
        (input.drop (b3ChunkLen * last))).1.foldl
          (fun o cv => parentOutput cv (outputCv compress o) key base)
          (chunkOutput base (streamState compress key base input last
            (input.drop (b3ChunkLen * last))).2)) =
      root (parentWords compress key base) (leafWords compress key base input)
        (fun l r => outputRoot compress (parentOutput l r key base)) (last + 1) := by
  obtain ⟨rest, bottom, hstack, hroot⟩ := exists_counterStack (f := parentWords compress key base)
    (g := fun l r => outputRoot compress (parentOutput l r key base)) hlast
  have hleaf : leafWords compress key base input last =
      outputCv compress (chunkOutput base
        (stateOf compress key base last (input.drop (b3ChunkLen * last)))) := by
    rw [leafWords, chunkWords, List.take_of_length_le]
    rw [List.length_drop]
    rw [Nat.mul_succ] at hle
    omega
  simp only [streamState]
  rw [hstack, List.foldl_append, ← hroot, hleaf, ← outputCv_foldl]
  rfl

/-- **The streaming hash of more than one chunk.** It is the root over the chunks, and neither stack
faults. -/
theorem b3_spec {key32 : Option CvBytes} (hinput : b3ChunkLen < input.length)
    (hlength : input.length < 2 ^ 32) :
    b3 compress input key32 =
      .ok (root (parentWords compress (loadKey key32).1 (loadKey key32).2)
        (leafWords compress (loadKey key32).1 (loadKey key32).2 input)
        (fun l r => outputRoot compress (parentOutput l r (loadKey key32).1 (loadKey key32).2))
        ((input.length + (b3ChunkLen - 1)) / b3ChunkLen)) := by
  have hne : input ≠ [] := by
    rintro rfl
    exact absurd hinput (by decide)
  obtain ⟨last, hlt, hle, hloop⟩ : ∃ last, b3ChunkLen * last < input.length ∧
      input.length ≤ b3ChunkLen * (last + 1) ∧
      b3Loop compress (loadKey key32).1 (loadKey key32).2 input.length
          (streamState compress (loadKey key32).1 (loadKey key32).2 input 0 []) input =
        .ok (streamState compress (loadKey key32).1 (loadKey key32).2 input last
          (input.drop (b3ChunkLen * last))) :=
    b3Loop_streamState hlength rfl hne (Nat.zero_le _) (fun _ => .inr rfl) le_rfl
  have hcount : (input.length + (b3ChunkLen - 1)) / b3ChunkLen = last + 1 := by
    rw [b3ChunkLen] at hlt hle ⊢
    omega
  have hlast : last ≠ 0 := by
    rintro rfl
    omega
  rw [streamState_zero] at hloop
  rw [b3, hcount, ← outputRoot_streamState hlast hle]
  exact Except.bind_eq_ok.mpr ⟨_, hloop, rfl⟩

end Loop

end MoMiner.Pearl
