import MoMiner.Lib.BlockHash

/-!
# Streaming and one-shot SHA-256

The dataset file is hashed in pieces by a class that buffers less than a block. Two other programs
of the miner hash a message that they first pad in a vector of its own. The compression of a block
is a parameter, and a store outside a buffer fails.

The state of the class is described by the data that it has taken (`Buffers`): the full blocks are
in the state, the rest is at the front of the block.

Main result: `stream_eq_oneShot`.
-/

namespace MoMiner.Verthash

open MoMiner.Bytes MoMiner.BlockHash

abbrev HashState := Vector UInt32 8

def initialWords : Array UInt32 :=
  #[0x6a09e667, 0xbb67ae85, 0x3c6ef372, 0xa54ff53a,
    0x510e527f, 0x9b05688c, 0x1f83d9ab, 0x5be0cd19]

theorem initialWords_size : initialWords.size = 8 := rfl

def initialState : HashState := ⟨initialWords, initialWords_size⟩

/-- The words of a state as bytes, each most significant byte first. -/
def serialize (state : HashState) : List UInt8 :=
  state.toList.flatMap fun w : UInt32 =>
    [(w >>> 24).toUInt8, (w >>> 16).toUInt8, (w >>> 8).toUInt8, w.toUInt8]

/-! ## The class -/

structure Sha256 where
  state : HashState := initialState
  block : List UInt8 := List.replicate 64 0
  buffered : ℕ := 0
  totalBytes : UInt64 := 0

section Stream

variable (transform : HashState → List UInt8 → HashState)

/-- One pass of the loop: fill the block, and compress it when it is full. -/
def Sha256.take (s : Sha256) (input : List UInt8) : Option (Sha256 × List UInt8) := do
  let count := min input.length (s.block.length - s.buffered)
  let block ← store s.block s.buffered (input.take count)
  let buffered := s.buffered + count
  if buffered = block.length then
    return ({ s with state := transform s.state block, block, buffered := 0 }, input.drop count)
  return ({ s with block, buffered }, input.drop count)

/-- The loop of an update. It fails when it runs out of fuel with input left. -/
def Sha256.takeAll : ℕ → Sha256 → List UInt8 → Option Sha256
  | _, s, [] => some s
  | 0, _, _ :: _ => none
  | fuel + 1, s, b :: input => do
    let (s, rest) ← s.take transform (b :: input)
    takeAll fuel s rest

def Sha256.update (s : Sha256) (input : List UInt8) : Option Sha256 :=
  takeAll transform input.length
    { s with totalBytes := s.totalBytes + UInt64.ofNat input.length } input

/-- Compress a block that has no room for the length. -/
def Sha256.flush (s : Sha256) : Option Sha256 :=
  if 56 < s.buffered then do
    let block ← fillZero s.block s.buffered s.block.length
    return { s with state := transform s.state block, block, buffered := 0 }
  else some s

def Sha256.finish (s : Sha256) : Option (List UInt8) := do
  let bits := s.totalBytes * 8
  let block ← store s.block s.buffered [0x80]
  let s ← Sha256.flush transform { s with block, buffered := s.buffered + 1 }
  let block ← fillZero s.block s.buffered 56
  let block ← storeBE 63 bits 8 block
  return serialize (transform s.state block)

/-- Updates with the chunks in turn, then the digest. -/
def streamed (chunks : List (List UInt8)) : Option (List UInt8) := do
  let s ← chunks.foldlM (fun s chunk => Sha256.update transform s chunk) {}
  s.finish transform

/-- The hash of data in memory. -/
def sha256 (input : List UInt8) : Option (List UInt8) := do
  let s ← Sha256.update transform {} input
  s.finish transform

/-- The one-shot hash: the message is padded in a vector of its own. -/
def oneShot (message : List UInt8) : Option (List UInt8) := do
  let length := UInt64.ofNat message.length
  let padded := ((length + 8) / 64 + 1) * 64
  let bytes ← store (List.replicate padded.toNat 0) 0 message
  let bytes ← store bytes length.toNat [0x80]
  let bytes ← storeBE (padded.toNat - 1) (length * 8) 8 bytes
  return serialize (absorb transform 64 initialState (padded.toNat / 64) bytes)

/-- The hash of `mom_equihash::pow`. -/
def Pow.sha256 (message : List UInt8) : Option (List UInt8) := oneShot transform message

/-- The hash of the ZelHash proof check. -/
def Proof.sha256 (msg : List UInt8) : Option (List UInt8) := oneShot transform msg

/-- The digest of a message: its blocks after padding, compressed in turn. -/
def digest (message : List UInt8) : List UInt8 :=
  serialize (absorb transform 64 initialState ((message.length + 8) / 64 + 1)
    (message ++ ending message.length))

/-! ## What the class has taken -/

/-- The full blocks of `data` are in the state, the rest of it at the front of the block. -/
structure Buffers (s : Sha256) (data : List UInt8) : Prop where
  length_block : s.block.length = 64
  buffered : s.buffered = data.length % 64
  state : s.state = absorb transform 64 initialState (data.length / 64) data
  block : s.block.take s.buffered = data.drop (data.length / 64 * 64)

variable {transform} {s : Sha256} {data input : List UInt8}

theorem buffers_init : Buffers transform {} [] := ⟨rfl, rfl, rfl, rfl⟩

/-- The block as what was taken, the bytes that `count` more overwrite, and the rest. -/
theorem Buffers.split (h : Buffers transform s data) (count : ℕ) :
    s.block = data.drop (data.length / 64 * 64) ++ (s.block.drop s.buffered).take count ++
      s.block.drop (s.buffered + count) := by
  rw [← h.block, List.append_assoc, ← List.drop_drop, List.take_append_drop,
    List.take_append_drop]

theorem Buffers.length_rest (h : Buffers transform s data) :
    (data.drop (data.length / 64 * 64)).length = s.buffered := by
  rw [List.length_drop, h.buffered]
  omega

theorem Buffers.store_eq (h : Buffers transform s data) {bytes : List UInt8}
    (hfit : s.buffered + bytes.length ≤ 64) :
    store s.block s.buffered bytes =
      some (data.drop (data.length / 64 * 64) ++ bytes ++
        s.block.drop (s.buffered + bytes.length)) := by
  conv_lhs => rw [h.split bytes.length]
  apply store_append h.length_rest
  rw [List.length_take, List.length_drop, h.length_block]
  omega

theorem Buffers.take_eq (h : Buffers transform s data) (hinput : input ≠ []) :
    ∃ s' count, 0 < count ∧ count ≤ input.length ∧ s'.totalBytes = s.totalBytes ∧
      s.take transform input = some (s', input.drop count) ∧
      Buffers transform s' (data ++ input.take count) := by
  have hpos := List.length_pos_iff.mpr hinput
  have hbuffered := h.buffered
  have hblock := h.length_block
  obtain ⟨count, hcount⟩ : ∃ count, count = min input.length (s.block.length - s.buffered) :=
    ⟨_, rfl⟩
  have htaken : (input.take count).length = count := by
    rw [List.length_take]
    omega
  have hstore := @Buffers.store_eq _ _ _ h (input.take count) (by omega)
  have hlength : (data ++ input.take count).length = data.length + count := by
    rw [List.length_append, htaken]
  have hdrop : (data ++ input.take count).drop (data.length / 64 * 64) =
      data.drop (data.length / 64 * 64) ++ input.take count :=
    List.drop_append_of_le_length (by omega)
  have hblocks : absorb transform 64 initialState (data.length / 64) (data ++ input.take count) =
      s.state := by
    rw [h.state]
    exact absorb_append (by omega) _
  rw [htaken] at hstore
  have hstored : (data.drop (data.length / 64 * 64) ++ input.take count ++
      s.block.drop (s.buffered + count)).length = 64 := by
    rw [List.length_append, List.length_append, h.length_rest, htaken, List.length_drop]
    omega
  by_cases hfull : s.buffered + count = 64
  · -- The block is full: nothing of the old one is left.
    have hback : s.block.drop (s.buffered + count) = [] := by
      rw [hfull, ← hblock, List.drop_length]
    rw [hback, List.append_nil] at hstore hstored
    have hnext : (data ++ input.take count).length / 64 = data.length / 64 + 1 := by omega
    refine ⟨{ s with
      state := transform s.state (data.drop (data.length / 64 * 64) ++ input.take count)
      block := data.drop (data.length / 64 * 64) ++ input.take count
      buffered := 0 }, count, by omega, by omega, rfl, ?_, ?_⟩
    · rw [Sha256.take, ← hcount, hstore, Option.bind_eq_bind, Option.bind_some]
      exact if_pos (by rw [hfull, hstored])
    · refine ⟨hstored, by simp only; omega, ?_, ?_⟩
      · rw [hnext, absorb_succ, hblocks, hdrop, List.take_of_length_le hstored.le]
      · rw [hnext, List.take_zero, List.drop_eq_nil_of_le (by omega)]
  · have hnext : (data ++ input.take count).length / 64 = data.length / 64 := by omega
    refine ⟨{ s with
      block := data.drop (data.length / 64 * 64) ++ input.take count ++
        s.block.drop (s.buffered + count)
      buffered := s.buffered + count }, count, by omega, by omega, rfl, ?_, ?_⟩
    · rw [Sha256.take, ← hcount, hstore, Option.bind_eq_bind, Option.bind_some]
      exact if_neg (by rw [hstored]; exact hfull)
    · refine ⟨hstored, by simp only; omega, ?_, ?_⟩
      · rw [hnext, hblocks]
      · rw [hnext, hdrop]
        apply List.take_left'
        rw [List.length_append, h.length_rest, htaken]

theorem Buffers.takeAll_eq {fuel : ℕ} (h : Buffers transform s data)
    (hfuel : input.length ≤ fuel) :
    ∃ s', s.takeAll transform fuel input = some s' ∧ s'.totalBytes = s.totalBytes ∧
      Buffers transform s' (data ++ input) := by
  induction fuel generalizing s data input with
  | zero =>
    obtain rfl := List.eq_nil_of_length_eq_zero (Nat.le_zero.mp hfuel)
    exact ⟨s, by simp [Sha256.takeAll], rfl, by simpa using h⟩
  | succ fuel ih =>
    cases input with
    | nil => exact ⟨s, by simp [Sha256.takeAll], rfl, by simpa using h⟩
    | cons b input =>
      obtain ⟨s₁, count, hpos, hle, htotal, hstep, h₁⟩ := h.take_eq (List.cons_ne_nil b input)
      obtain ⟨s', hrest, htotal', h'⟩ := @ih s₁ _ ((b :: input).drop count) h₁ (by
        rw [List.length_drop]
        omega)
      refine ⟨s', ?_, htotal'.trans htotal, ?_⟩
      · simp only [Sha256.takeAll, hstep, hrest, Option.bind_eq_bind, Option.bind_some]
      · rwa [List.append_assoc, List.take_append_drop] at h'

theorem Buffers.update_eq (h : Buffers transform s data)
    (htotal : s.totalBytes = UInt64.ofNat data.length) :
    ∃ s', s.update transform input = some s' ∧
      s'.totalBytes = UInt64.ofNat (data ++ input).length ∧
      Buffers transform s' (data ++ input) := by
  have h' : Buffers transform { s with totalBytes := s.totalBytes + UInt64.ofNat input.length }
      data := ⟨h.length_block, h.buffered, h.state, h.block⟩
  obtain ⟨s', hs', htotal', hdata⟩ := h'.takeAll_eq (le_refl input.length)
  refine ⟨s', hs', htotal'.trans ?_, hdata⟩
  rw [List.length_append, UInt64.ofNat_add, htotal]

theorem Buffers.foldlM_update {chunks : List (List UInt8)} (h : Buffers transform s data)
    (htotal : s.totalBytes = UInt64.ofNat data.length) :
    ∃ s', chunks.foldlM (fun s chunk => Sha256.update transform s chunk) s = some s' ∧
      s'.totalBytes = UInt64.ofNat (data ++ chunks.flatten).length ∧
      Buffers transform s' (data ++ chunks.flatten) := by
  induction chunks generalizing s data with
  | nil => exact ⟨s, rfl, by simpa using htotal, by simpa using h⟩
  | cons chunk chunks ih =>
    obtain ⟨s₁, hs₁, htotal₁, h₁⟩ := @Buffers.update_eq _ _ _ chunk h htotal
    obtain ⟨s', hs', htotal', h'⟩ := ih h₁ htotal₁
    rw [List.append_assoc, ← List.flatten_cons] at htotal' h'
    refine ⟨s', ?_, htotal', h'⟩
    rw [List.foldlM_cons, hs₁]
    exact hs'

/-! ## The end of the message -/

/-- The blocks of a message end after the length: the full ones, then one or two more. -/
theorem absorb_ending {rest : List UInt8} (hrest : rest = data.drop (data.length / 64 * 64))
    (n : ℕ) : absorb transform 64 initialState (data.length / 64 + n) (data ++ ending data.length) =
      absorb transform 64 (absorb transform 64 initialState (data.length / 64) data) n
        (rest ++ ending data.length) := by
  rw [absorb_add, absorb_append (by omega), List.drop_append_of_le_length (by omega), hrest]

theorem Buffers.finish_eq (h : Buffers transform s data)
    (htotal : s.totalBytes = UInt64.ofNat data.length) :
    s.finish transform = some (digest transform data) := by
  have hbuffered := h.buffered
  have hstate := h.state
  obtain ⟨rest, hrest⟩ : ∃ rest, rest = data.drop (data.length / 64 * 64) := ⟨_, rfl⟩
  obtain ⟨back, hback⟩ : ∃ back, back = s.block.drop (s.buffered + 1) := ⟨_, rfl⟩
  obtain ⟨bits, hbits⟩ : ∃ bits, bits = UInt64.ofNat data.length * 8 := ⟨_, rfl⟩
  have hmarker := @Buffers.store_eq _ _ _ h ([0x80]) (by rw [List.length_singleton]; omega)
  have hlength := h.length_rest
  rw [List.length_singleton, ← hback, ← hrest] at hmarker
  rw [← hrest] at hlength
  have hbackLength : s.buffered + 1 + back.length = 64 := by
    rw [hback, List.length_drop, h.length_block]
    omega
  have hfront : (rest ++ [0x80]).length = s.buffered + 1 := by
    rw [List.length_append, hlength, List.length_singleton]
  rw [Sha256.finish, hmarker, htotal, ← hbits, digest]
  simp only [Option.bind_eq_bind, Option.bind_some, Sha256.flush]
  by_cases hroom : s.buffered < 56
  · -- One more block: the length still fits after the marker.
    have hblocks : (data.length + 8) / 64 + 1 = data.length / 64 + 1 := by omega
    have hend : rest ++ ending data.length =
        rest ++ [0x80] ++ List.replicate (56 - (s.buffered + 1)) 0 ++ beBytes 8 bits.toNat := by
      rw [ending, ← hbits, List.append_assoc, List.append_assoc, List.append_assoc]
      congr 4
      omega
    have hclose := close_eq hfront (by omega) hbackLength bits
    have hfull : (rest ++ ending data.length).length = 64 := by
      rw [hend]
      simp only [List.length_append, List.length_replicate, length_beBytes, hlength,
        List.length_singleton]
      omega
    rw [if_neg (by omega), Option.bind_some, ← Option.bind_assoc, hclose, Option.bind_some,
      hblocks, absorb_ending hrest, absorb, absorb, ← hstate, List.take_of_length_le hfull.le, hend]
    rfl
  · -- Two more blocks: the marker and zeros, then zeros and the length.
    have hblocks : (data.length + 8) / 64 + 1 = data.length / 64 + 2 := by omega
    obtain ⟨first, hfirst⟩ : ∃ first,
      first = rest ++ [0x80] ++ List.replicate (64 - (s.buffered + 1)) 0 := ⟨_, rfl⟩
    have hfirstLength : first.length = 64 := by
      rw [hfirst, List.length_append, hfront, List.length_replicate]
      omega
    have hend : rest ++ ending data.length =
        first ++ (List.replicate 56 0 ++ beBytes 8 bits.toNat) := by
      rw [ending, ← hbits, hfirst]
      simp only [List.append_assoc]
      congr 2
      rw [← List.append_assoc, List.replicate_append_replicate]
      congr 2
      omega
    have hfill := @fillZero_append _ _ [] _ 64 hfront (by omega)
    have hclose := @close_eq [] _ 0 rfl (by omega) (show 0 + first.length = 64 by omega) bits
    rw [List.append_nil, List.append_nil, ← hfirst] at hfill
    rw [List.nil_append, List.nil_append] at hclose
    have hlast : (List.replicate 56 0 ++ beBytes 8 bits.toNat).length = 64 := by simp
    have hsize : (rest ++ [0x80] ++ back).length = 64 := by
      rw [List.length_append, hfront, hbackLength]
    rw [if_pos (by omega), hsize, hfill]
    simp only [Option.pure_def, Option.bind_some]
    rw [← Option.bind_assoc, hclose, Option.bind_some, hblocks, absorb_ending hrest, absorb, absorb,
      absorb, hend, List.take_left' hfirstLength, List.drop_left' hfirstLength,
      List.take_of_length_le hlast.le, hstate]

/-! ## The one-shot hash -/

theorem oneShot_eq {message : List UInt8} (hlength : message.length < 2 ^ 61) :
    oneShot transform message = some (digest transform message) := by
  have hnat : (UInt64.ofNat message.length).toNat = message.length := by
    rw [UInt64.toNat_ofNat']
    omega
  have hpadded : (((UInt64.ofNat message.length + 8) / 64 + 1) * 64).toNat =
      ((message.length + 8) / 64 + 1) * 64 := by
    rw [UInt64.toNat_mul, UInt64.toNat_add, UInt64.toNat_div, UInt64.toNat_add, hnat]
    simp only [UInt64.reduceToNat]
    omega
  obtain ⟨blocks, hblocks⟩ : ∃ blocks, blocks = (message.length + 8) / 64 + 1 := ⟨_, rfl⟩
  obtain ⟨zeros, hzeros⟩ : ∃ zeros, zeros = blocks * 64 - message.length - 9 := ⟨_, rfl⟩
  have htotal : blocks * 64 = message.length + (1 + (zeros + 8)) := by omega
  have hend : message ++ ending message.length = message ++ [0x80] ++ List.replicate zeros 0 ++
      beBytes 8 (UInt64.ofNat message.length * 8).toNat := by
    rw [ending, hzeros, hblocks]
    simp only [List.append_assoc]
  have hmessage : store (List.replicate (blocks * 64) 0) 0 message =
      some (message ++ List.replicate (1 + (zeros + 8)) 0) := by
    rw [htotal, List.replicate_add]
    exact @store_append [] _ _ _ _ rfl (List.length_replicate ..)
  have hmarker : store (message ++ List.replicate (1 + (zeros + 8)) 0) message.length [0x80] =
      some (message ++ [0x80] ++ List.replicate (zeros + 8) 0) := by
    rw [List.replicate_add, ← List.append_assoc]
    exact store_append rfl (List.length_replicate ..)
  have hbits := @storeBE_eq (message ++ [0x80] ++ List.replicate zeros 0) (List.replicate 8 0) []
    (blocks * 64 - 1) 8 (UInt64.ofNat message.length * 8)
    (by simp only [List.length_append, List.length_replicate, List.length_singleton]; omega)
    (List.length_replicate ..) le_rfl
  rw [List.append_nil, List.append_nil, List.append_assoc _ (List.replicate zeros 0),
    List.replicate_append_replicate, ← hend] at hbits
  rw [oneShot, hpadded, hnat, ← hblocks]
  simp only [Option.bind_eq_bind, Option.bind_some, hmessage, hmarker, hbits]
  rw [Nat.mul_div_cancel _ (by omega), digest, hblocks]
  rfl

/-- **Streaming and one-shot hashing agree.** However a message is split into updates, no store
leaves a buffer, every loop ends, and all programs return the digest of the padded message. -/
theorem stream_eq_oneShot (transform : HashState → List UInt8 → HashState)
    (chunks : List (List UInt8)) (hlength : chunks.flatten.length < 2 ^ 61) :
    streamed transform chunks = some (digest transform chunks.flatten) ∧
      sha256 transform chunks.flatten = some (digest transform chunks.flatten) ∧
      Pow.sha256 transform chunks.flatten = some (digest transform chunks.flatten) ∧
      Proof.sha256 transform chunks.flatten = some (digest transform chunks.flatten) := by
  refine ⟨?_, ?_, oneShot_eq hlength, oneShot_eq hlength⟩
  · obtain ⟨s, hs, htotal, h⟩ := @Buffers.foldlM_update _ _ _ chunks (@buffers_init transform)
      rfl
    rw [streamed, hs]
    exact h.finish_eq htotal
  · obtain ⟨s, hs, htotal, h⟩ := @Buffers.update_eq _ _ _ chunks.flatten (@buffers_init transform)
      rfl
    rw [sha256, hs]
    exact h.finish_eq htotal

/-- The law at a message of two bytes in three chunks, with a transform that keeps the state. -/
theorem stream_eq_oneShot_chunks :
    streamed (fun s _ => s) [[1], [], [2]] = some (digest (fun s _ => s) [1, 2]) ∧
      sha256 (fun s _ => s) [1, 2] = some (digest (fun s _ => s) [1, 2]) ∧
      Pow.sha256 (fun s _ => s) [1, 2] = some (digest (fun s _ => s) [1, 2]) ∧
      Proof.sha256 (fun s _ => s) [1, 2] = some (digest (fun s _ => s) [1, 2]) :=
  stream_eq_oneShot (fun s _ => s) [[1], [], [2]] (by decide)

end Stream

end MoMiner.Verthash
