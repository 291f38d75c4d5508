import MoMiner.Equihash.Provenance

/-!
# Checked joins of later rounds

The host's reference joins two records of a round only if the nodes at their references recover, have
the same first field and share no leaf. It looks these nodes up by a round number that it computes
from the number of fields, and arrives at the round before the one that holds the records.

`Exact` is what the join is for, `Resolves` when the nodes one round too low stand for the right ones.

Main results: `joins_exact_iff` and, for references as a record can hold them, `places_iff_of_lt`.
-/

namespace MoMiner.Equihash

open MoMiner.PackedWords

/-! ## The join -/

/-- Join two records with `fieldCount` fields; the stored record, if the checks pass. -/
def makeCollisionChecked (view : ProvenanceView) (fieldCount : ℕ) (a b : Words) (aRef bRef : ℕ) :
    Option Words := do
  let parentRound := Spec.zhash144_5.rounds - 1 - fieldCount
  let leftField ← loadNodeField view parentRound aRef 0
  let rightField ← loadNodeField view parentRound bRef 0
  if leftField ≠ rightField then none else
  let left ← recoverNode view parentRound aRef
  let right ← recoverNode view parentRound bRef
  if leafSetsDisjoint left right = false ∨ left.getD 0 0 = right.getD 0 0 then none else
  let fields := fun i => loadCollisionField .zhash144_5 fieldCount a (i + 1) ^^^
    loadCollisionField .zhash144_5 fieldCount b (i + 1)
  if left.getD 0 0 < right.getD 0 0 then
    some (storeCollision .zhash144_5 (fieldCount - 1) fields aRef bRef)
  else some (storeCollision .zhash144_5 (fieldCount - 1) fields bRef aRef)

/-! ## What it is for -/

/-- Two nodes of a round make a valid join. -/
structure Joinable (view : ProvenanceView) (round aRef bRef : ℕ) (left right : List ℕ) : Prop where
  left_eq : recoverNode view round aRef = some left
  right_eq : recoverNode view round bRef = some right
  collide : ∃ field, loadNodeField view round aRef 0 = some field ∧
    loadNodeField view round bRef 0 = some field
  disjoint : List.Disjoint left right

/-- The leaves of a join, the subtree with the smaller first leaf first. -/
def joinLeaves (left right : List ℕ) : List ℕ :=
  if left.getD 0 0 < right.getD 0 0 then left ++ right else right ++ left

/-- A view with the same arenas up to a round; the arena of the next round may hold a new record. -/
def SameUpTo (round : ℕ) (view view' : ProvenanceView) : Prop :=
  ∀ n ≤ round, view'.arena n = view.arena n

/-- The join accepts exactly the valid joins, and the record that it stores is recovered with the
leaves of both nodes. -/
structure Exact (view : ProvenanceView) (round : ℕ) (a b : Words) (aRef bRef : ℕ) : Prop where
  accepts : (makeCollisionChecked view (fieldsAfter round) a b aRef bRef).isSome ↔
    ∃ left right, Joinable view round aRef bRef left right
  recovers : ∀ out, makeCollisionChecked view (fieldsAfter round) a b aRef bRef = some out →
    ∃ left right, Joinable view round aRef bRef left right ∧
      ∀ view', SameUpTo round view view' →
        recoverCollisionRecord view' (recoverNode view' round) (fieldsAfter (round + 1)) out round =
          some (joinLeaves left right)

/-! ## The nodes one round too low -/

/-- At two references as a record keeps them, the nodes of a round are the halves of a join, with the
fields that the join stores. -/
structure Places (view : ProvenanceView) (round : ℕ) (a b : Words) (left right : List ℕ)
    (leftRef rightRef : ℕ) : Prop where
  leaves : ∃ first second, recoverNode view round (leftRef % 2 ^ 26) = some first ∧
    recoverNode view round (rightRef % 2 ^ 26) = some second ∧
    first ++ second = joinLeaves left right
  collide : ∃ field, loadNodeField view round (leftRef % 2 ^ 26) 0 = some field ∧
    loadNodeField view round (rightRef % 2 ^ 26) 0 = some field
  fields : ∀ i < fieldsAfter (round + 1), ∃ leftField rightField,
    loadNodeField view round (leftRef % 2 ^ 26) (i + 1) = some leftField ∧
    loadNodeField view round (rightRef % 2 ^ 26) (i + 1) = some rightField ∧
    loadCollisionField .zhash144_5 (fieldsAfter round) a (i + 1) ^^^
      loadCollisionField .zhash144_5 (fieldsAfter round) b (i + 1) = leftField ^^^ rightField

/-- The nodes of the round before, at the same references, have the verdict of the nodes of the
round; and where they join, the order of their first leaves puts the right node first. -/
structure Resolves (view : ProvenanceView) (round : ℕ) (a b : Words) (aRef bRef : ℕ) : Prop where
  verdict : (∃ left right, Joinable view (round - 1) aRef bRef left right) ↔
    ∃ left right, Joinable view round aRef bRef left right
  places : ∀ low low' left right, Joinable view (round - 1) aRef bRef low low' →
    Joinable view round aRef bRef left right →
    if low.getD 0 0 < low'.getD 0 0 then Places view round a b left right aRef bRef
    else Places view round a b left right bRef aRef

section Joins

variable {view view' : ProvenanceView} {round aRef bRef : ℕ} {a b : Words} {left right : List ℕ}

theorem leafSetsDisjoint_iff (left right : List ℕ) :
    leafSetsDisjoint left right = true ↔ List.Disjoint left right := by
  simp only [leafSetsDisjoint, List.all_eq_true, decide_eq_true_eq]
  exact ⟨fun h leaf hl hr => h leaf hl leaf hr rfl, fun h l hl r hr heq => h hl (heq ▸ hr)⟩

theorem loadNodeField_congr (h : SameUpTo round view view') {n : ℕ} (hn : n ≤ round) (ref i : ℕ) :
    loadNodeField view' n ref i = loadNodeField view n ref i := by
  rw [loadNodeField, loadNodeField, h n hn]

theorem recoverCollisionRecord_congr {node node' : ℕ → Option (List ℕ)} {fieldCount : ℕ}
    {record : Words} (h : SameUpTo round view view') (hnode : ∀ ref, node' ref = node ref) :
    recoverCollisionRecord view' node' fieldCount record round =
      recoverCollisionRecord view node fieldCount record round := by
  simp only [recoverCollisionRecord, hnode, loadNodeField_congr h le_rfl]

theorem recoverNode_congr (h : SameUpTo round view view') {n : ℕ} (hn : n ≤ round) (ref : ℕ) :
    recoverNode view' n ref = recoverNode view n ref := by
  induction n generalizing ref with
  | zero =>
    have hlevel0 : view'.level0 = view.level0 := Option.some.inj (h 0 hn)
    rw [recoverNode, recoverNode, hlevel0]
  | succ n ih =>
    have hn' : n ≤ round := by omega
    have hrecord : ∀ record, recoverCollisionRecord view' (recoverNode view' n)
        (fieldsAfter (n + 1)) record n =
        recoverCollisionRecord view (recoverNode view n) (fieldsAfter (n + 1)) record n :=
      fun record => recoverCollisionRecord_congr (fun m hm => h m (hm.trans hn')) (ih hn')
    rw [recoverNode, recoverNode, h (n + 1) hn]
    simp only [hrecord]

theorem length_of_recoverNode {ref : ℕ} (h : recoverNode view round ref = some left) :
    left.length = 2 ^ round := by
  induction round generalizing ref left with
  | zero =>
    simp only [recoverNode, Option.bind_eq_bind, Option.bind_eq_some_iff] at h
    obtain ⟨record, -, h⟩ := h
    rw [← Option.some.inj h]
    rfl
  | succ round ih =>
    simp only [recoverNode, Option.bind_eq_bind, Option.bind_eq_some_iff] at h
    obtain ⟨arena, -, record, -, h⟩ := h
    obtain ⟨first, second, hchecked⟩ := recoverCollisionRecord_eq_some h
    rw [hchecked.append, List.length_append, ih hchecked.left_eq, ih hchecked.right_eq, pow_succ,
      Nat.mul_two]

/-- A record that passes the checks is recovered. -/
theorem Checked.recovers {fieldCount : ℕ} {record : Words} {leaves : List ℕ} (hround : round ≤ 4)
    (h : Checked view (recoverNode view round) fieldCount record round leaves left right) :
    recoverCollisionRecord view (recoverNode view round) fieldCount record round = some leaves := by
  have hleft := length_of_recoverNode h.left_eq
  have hright := length_of_recoverNode h.right_eq
  have hpos := Nat.two_pow_pos round
  have hpow : 2 ^ round ≤ 2 ^ 4 := Nat.pow_le_pow_right (by decide) hround
  obtain ⟨field, hfield, hfield'⟩ := h.collide
  have hordered : ¬ (left.length = 0 ∨ right.length = 0 ∨ right.getD 0 0 ≤ left.getD 0 0) := by
    have := h.ordered
    omega
  have happend : ¬ (Spec.zhash144_5.proofIndices < left.length + right.length ∨
      leafSetsDisjoint left right = false) := by
    have hproof : Spec.zhash144_5.proofIndices = 32 := rfl
    rw [(leafSetsDisjoint_iff left right).mpr h.disjoint]
    simp only [Bool.true_eq_false, or_false]
    omega
  simp only [recoverCollisionRecord, if_neg h.parents_ne, h.left_eq, h.right_eq, hfield, hfield',
    Option.bind_eq_bind, Option.bind_some, ne_eq, not_true_eq_false, if_false, if_neg hordered,
    leafSetAppend, if_neg happend, h.append]
  refine if_neg ?_
  rw [Bool.not_eq_false, List.all_eq_true]
  intro i hi
  obtain ⟨x, y, hx, hy, heq⟩ := h.fields i (List.mem_range.mp hi)
  simp only [hx, hy]
  exact decide_eq_true heq

/-! ## What the join does -/

theorem fieldsAfter_succ (round : ℕ) : fieldsAfter (round + 1) = fieldsAfter round - 1 := by
  unfold fieldsAfter
  omega

/-- The round that the join looks its nodes up in. -/
theorem parentRound_eq (hpos : 1 ≤ round) (hround : round ≤ 5) :
    Spec.zhash144_5.rounds - 1 - fieldsAfter round = round - 1 := by
  have hrounds : Spec.zhash144_5.rounds = 6 := rfl
  unfold fieldsAfter
  omega

/-- The fields of a joined record. -/
def joinFields (round : ℕ) (a b : Words) : ℕ → ℕ := fun i =>
  loadCollisionField .zhash144_5 (fieldsAfter round) a (i + 1) ^^^
    loadCollisionField .zhash144_5 (fieldsAfter round) b (i + 1)

theorem first_ne_of_joinable (h : Joinable view round aRef bRef left right) :
    left.getD 0 0 ≠ right.getD 0 0 := by
  have hmem : ∀ {ref : ℕ} {leaves : List ℕ}, recoverNode view round ref = some leaves →
      leaves.getD 0 0 ∈ leaves := by
    intro ref leaves hleaves
    have hlength := length_of_recoverNode hleaves
    have hpos := Nat.two_pow_pos round
    rw [List.getD_eq_getElem?_getD, List.getElem?_eq_getElem (by omega), Option.getD_some]
    exact List.getElem_mem _
  intro heq
  exact h.disjoint (hmem h.left_eq) (heq ▸ hmem h.right_eq)

/-- **The nodes one round too low.** The join accepts when these are joinable, and stores the
references in the order of their first leaves. -/
theorem makeCollisionChecked_eq_some (hpos : 1 ≤ round) (hround : round ≤ 5) (out : Words) :
    makeCollisionChecked view (fieldsAfter round) a b aRef bRef = some out ↔
      ∃ low low', Joinable view (round - 1) aRef bRef low low' ∧
        out = if low.getD 0 0 < low'.getD 0 0 then
            storeCollision .zhash144_5 (fieldsAfter (round + 1)) (joinFields round a b) aRef bRef
          else
            storeCollision .zhash144_5 (fieldsAfter (round + 1)) (joinFields round a b) bRef aRef := by
  simp only [makeCollisionChecked, parentRound_eq hpos hround, ← fieldsAfter_succ,
    Option.bind_eq_bind, Option.bind_eq_some_iff, Option.ite_none_left_eq_some]
  constructor
  · rintro ⟨x, hx, y, hy, hcollide, low, hlow, low', hlow', hdisjoint, hout⟩
    obtain rfl : x = y := not_not.mp hcollide
    rw [not_or, Bool.not_eq_false, leafSetsDisjoint_iff] at hdisjoint
    refine ⟨low, low', ⟨hlow, hlow', ⟨x, hx, hy⟩, hdisjoint.1⟩, ?_⟩
    rw [← Option.some_inj, ← hout]
    split_ifs <;> rfl
  · rintro ⟨low, low', h, rfl⟩
    obtain ⟨x, hx, hy⟩ := h.collide
    refine ⟨x, hx, x, hy, not_not.mpr rfl, low, h.left_eq, low', h.right_eq, ?_, ?_⟩
    · rw [not_or, Bool.not_eq_false, leafSetsDisjoint_iff]
      exact ⟨h.disjoint, first_ne_of_joinable h⟩
    · split_ifs <;> rfl

theorem joinFields_lt (i : ℕ) : joinFields round a b i < 2 ^ 24 := by
  rw [← Spec.collisionBits_eq .zhash144_5]
  exact Nat.xor_lt_two_pow packedLoad_lt packedLoad_lt

/-- The halves of the leaves of a join. -/
theorem halves_of_joinLeaves (h : Joinable view round aRef bRef left right) {first second : List ℕ}
    (hfirst : first.length = 2 ^ round) (heq : first ++ second = joinLeaves left right) :
    first.getD 0 0 < second.getD 0 0 ∧ List.Disjoint first second := by
  have hleft := length_of_recoverNode h.left_eq
  have hright := length_of_recoverNode h.right_eq
  have hne := first_ne_of_joinable h
  rw [joinLeaves] at heq
  split_ifs at heq with hlt
  · obtain ⟨rfl, rfl⟩ := List.append_inj heq (by rw [hfirst, hleft])
    exact ⟨hlt, h.disjoint⟩
  · obtain ⟨rfl, rfl⟩ := List.append_inj heq (by rw [hfirst, hright])
    exact ⟨by omega, List.disjoint_comm.mp h.disjoint⟩

/-- **A stored join.** It is recovered with the leaves of the join exactly if its references lead to
the halves of the join. -/
theorem recovers_stored_iff (hround : round ≤ 4) (h : Joinable view round aRef bRef left right)
    {leftRef rightRef : ℕ} :
    recoverCollisionRecord view (recoverNode view round) (fieldsAfter (round + 1))
        (storeCollision .zhash144_5 (fieldsAfter (round + 1)) (joinFields round a b) leftRef
          rightRef) round = some (joinLeaves left right) ↔
      Places view round a b left right leftRef rightRef := by
  have hleftRef := @loadCollisionLeft_store .zhash144_5 (fieldsAfter (round + 1))
    (joinFields round a b) leftRef rightRef
  have hrightRef := @loadCollisionRight_store .zhash144_5 (fieldsAfter (round + 1))
    (joinFields round a b) leftRef rightRef
  have hfield : ∀ i < fieldsAfter (round + 1), loadCollisionField .zhash144_5
      (fieldsAfter (round + 1)) (storeCollision .zhash144_5 (fieldsAfter (round + 1))
        (joinFields round a b) leftRef rightRef) i = joinFields round a b i := by
    intro i hi
    rw [loadCollisionField_store hi, Spec.collisionBits_eq, Nat.mod_eq_of_lt (joinFields_lt i)]
  generalize storeCollision .zhash144_5 (fieldsAfter (round + 1)) (joinFields round a b) leftRef
    rightRef = record at hleftRef hrightRef hfield
  have hbits : Spec.zhash144_5.parentRefBits = 26 := rfl
  rw [hbits] at hleftRef hrightRef
  constructor
  · intro hrecover
    obtain ⟨first, second, hchecked⟩ := recoverCollisionRecord_eq_some hrecover
    obtain ⟨-, hfirst, hsecond, hcollide, hfields, -, happend, -⟩ := hchecked
    rw [hleftRef, hrightRef] at hcollide
    rw [hleftRef] at hfirst
    rw [hrightRef] at hsecond
    refine ⟨⟨first, second, hfirst, hsecond, happend.symm⟩, hcollide, fun i hi => ?_⟩
    obtain ⟨x, y, hx, hy, heq⟩ := hfields i hi
    rw [hleftRef] at hx
    rw [hrightRef] at hy
    exact ⟨x, y, hx, hy, (hfield i hi).symm.trans heq⟩
  · rintro ⟨⟨first, second, hfirst, hsecond, happend⟩, hcollide, hfields⟩
    obtain ⟨hordered, hdisjoint⟩ := halves_of_joinLeaves h (length_of_recoverNode hfirst) happend
    refine Checked.recovers hround (?_ : Checked view _ _ _ _ _ first second)
    rw [← hleftRef] at hfirst
    rw [← hrightRef] at hsecond
    rw [← hleftRef, ← hrightRef] at hcollide
    refine ⟨fun heq => ?_, hfirst, hsecond, hcollide, fun i hi => ?_, hordered, happend.symm,
      hdisjoint⟩
    · rw [heq, hsecond] at hfirst
      rw [Option.some.inj hfirst] at hordered
      exact lt_irrefl _ hordered
    · obtain ⟨x, y, hx, hy, heq⟩ := hfields i hi
      rw [← hleftRef] at hx
      rw [← hrightRef] at hy
      exact ⟨x, y, hx, hy, (hfield i hi).trans heq⟩

theorem Joinable.unique {left' right' : List ℕ} (h : Joinable view round aRef bRef left right)
    (h' : Joinable view round aRef bRef left' right') : left' = left ∧ right' = right :=
  ⟨Option.some.inj (h'.left_eq.symm.trans h.left_eq),
    Option.some.inj (h'.right_eq.symm.trans h.right_eq)⟩

/-- **When the joins are exact.** For any view and records, the join of a round does what it is for
exactly if the nodes of the round before, at the same references, stand for those of the round. -/
theorem joins_exact_iff (hpos : 1 ≤ round) (hround : round ≤ 4) :
    Exact view round a b aRef bRef ↔ Resolves view round a b aRef bRef := by
  have haccepts : (makeCollisionChecked view (fieldsAfter round) a b aRef bRef).isSome ↔
      ∃ low low', Joinable view (round - 1) aRef bRef low low' := by
    rw [Option.isSome_iff_exists]
    simp only [makeCollisionChecked_eq_some hpos (show round ≤ 5 by omega)]
    exact ⟨fun ⟨_, low, low', h, _⟩ => ⟨low, low', h⟩, fun ⟨low, low', h⟩ => ⟨_, low, low', h, rfl⟩⟩
  constructor
  · intro hexact
    refine ⟨haccepts.symm.trans hexact.accepts, fun low low' left right hlow h => ?_⟩
    obtain ⟨left', right', h', hrecovers⟩ := hexact.recovers _
      ((makeCollisionChecked_eq_some hpos (by omega) _).mpr ⟨low, low', hlow, rfl⟩)
    obtain ⟨rfl, rfl⟩ := h.unique h'
    have hrecover := hrecovers view fun _ _ => rfl
    split_ifs at hrecover ⊢
    · exact (recovers_stored_iff hround h).mp hrecover
    · exact (recovers_stored_iff hround h).mp hrecover
  · intro hresolves
    refine ⟨haccepts.trans hresolves.verdict, fun out hout => ?_⟩
    obtain ⟨low, low', hlow, rfl⟩ := (makeCollisionChecked_eq_some hpos (by omega) out).mp hout
    obtain ⟨left, right, h⟩ := hresolves.verdict.mp ⟨low, low', hlow⟩
    have hplaces := hresolves.places low low' left right hlow h
    refine ⟨left, right, h, fun view' hview' => ?_⟩
    rw [recoverCollisionRecord_congr hview' (recoverNode_congr hview' le_rfl)]
    split_ifs at hplaces ⊢
    · exact (recovers_stored_iff hround h).mpr hplaces
    · exact (recovers_stored_iff hround h).mpr hplaces

/-! ## References that a record can hold -/

/-- The arena of a round holds a record at a reference. -/
def Holds (view : ProvenanceView) (round ref : ℕ) (record : Words) : Prop :=
  ∃ arena, view.arena round = some arena ∧ arena.get ref = some record

theorem loadNodeField_of_holds (hpos : 1 ≤ round) {ref : ℕ} {record : Words}
    (h : Holds view round ref record) {i : ℕ} (hi : i < fieldsAfter round) :
    loadNodeField view round ref i =
      some (loadCollisionField .zhash144_5 (fieldsAfter round) record i) := by
  obtain ⟨arena, harena, hget⟩ := h
  simp [loadNodeField, harena, hget, Nat.not_le.mpr hi, loadField, show round ≠ 0 by omega]

/-- **The condition in ordinary arenas.** Where the references fit a record and the records are
those of the arena, only the order of the first leaves matters. -/
theorem places_iff_of_lt (hpos : 1 ≤ round) (hround : round ≤ 4) (ha : Holds view round aRef a)
    (hb : Holds view round bRef b) (haRef : aRef < 2 ^ 26) (hbRef : bRef < 2 ^ 26)
    (h : Joinable view round aRef bRef left right) :
    (Places view round a b left right aRef bRef ↔ left.getD 0 0 < right.getD 0 0) ∧
      (Places view round a b left right bRef aRef ↔ right.getD 0 0 < left.getD 0 0) := by
  have hafter : fieldsAfter (round + 1) + 1 = fieldsAfter round := by
    have hrounds : Spec.zhash144_5.rounds = 6 := rfl
    unfold fieldsAfter
    omega
  have hmod : aRef % 2 ^ 26 = aRef ∧ bRef % 2 ^ 26 = bRef :=
    ⟨Nat.mod_eq_of_lt haRef, Nat.mod_eq_of_lt hbRef⟩
  have hne := first_ne_of_joinable h
  have hfields : ∀ i < fieldsAfter (round + 1),
      loadNodeField view round aRef (i + 1) =
        some (loadCollisionField .zhash144_5 (fieldsAfter round) a (i + 1)) ∧
      loadNodeField view round bRef (i + 1) =
        some (loadCollisionField .zhash144_5 (fieldsAfter round) b (i + 1)) := fun i hi =>
    ⟨loadNodeField_of_holds hpos ha (by omega), loadNodeField_of_holds hpos hb (by omega)⟩
  obtain ⟨field, hfield, hfield'⟩ := h.collide
  constructor
  · constructor
    · rintro ⟨⟨first, second, hfirst, hsecond, heq⟩, -, -⟩
      rw [hmod.1, h.left_eq] at hfirst
      rw [hmod.2, h.right_eq] at hsecond
      cases hfirst
      cases hsecond
      exact (halves_of_joinLeaves h (length_of_recoverNode h.left_eq) heq).1
    · intro hlt
      refine ⟨⟨left, right, hmod.1.symm ▸ h.left_eq, hmod.2.symm ▸ h.right_eq, ?_⟩,
        ⟨field, hmod.1.symm ▸ hfield, hmod.2.symm ▸ hfield'⟩, fun i hi => ?_⟩
      · rw [joinLeaves, if_pos hlt]
      · rw [hmod.1, hmod.2]
        exact ⟨_, _, (hfields i hi).1, (hfields i hi).2, rfl⟩
  · constructor
    · rintro ⟨⟨first, second, hfirst, hsecond, heq⟩, -, -⟩
      rw [hmod.2, h.right_eq] at hfirst
      rw [hmod.1, h.left_eq] at hsecond
      cases hfirst
      cases hsecond
      exact (halves_of_joinLeaves h (length_of_recoverNode h.right_eq) heq).1
    · intro hlt
      refine ⟨⟨right, left, hmod.2.symm ▸ h.right_eq, hmod.1.symm ▸ h.left_eq, ?_⟩,
        ⟨field, hmod.2.symm ▸ hfield', hmod.1.symm ▸ hfield⟩, fun i hi => ?_⟩
      · rw [joinLeaves, if_neg (by omega)]
      · rw [hmod.1, hmod.2]
        exact ⟨_, _, (hfields i hi).2, (hfields i hi).1, Nat.xor_comm _ _⟩

end Joins

/-- In a symmetric tree the nodes of the two rounds agree. -/
theorem joins_exact_zeroTree :
    Exact zeroTree 1 (storeCollision .zhash144_5 5 (fun _ => 0) 0 1)
      (storeCollision .zhash144_5 5 (fun _ => 0) 2 3) 0 1 := by
  have hlow : Joinable zeroTree 0 0 1 [0] [1] :=
    ⟨by decide, by decide, ⟨0, by decide, by decide⟩, by simp [List.Disjoint]⟩
  have hround : Joinable zeroTree 1 0 1 [0, 1] [2, 3] :=
    ⟨by decide, by decide, ⟨0, by decide, by decide⟩, by simp [List.Disjoint]⟩
  refine (joins_exact_iff (by decide) (by decide)).mpr
    ⟨iff_of_true ⟨_, _, hlow⟩ ⟨_, _, hround⟩, fun low low' left right hlow' hround' => ?_⟩
  obtain ⟨rfl, rfl⟩ := hlow.unique hlow'
  obtain ⟨rfl, rfl⟩ := hround.unique hround'
  rw [if_pos (by decide)]
  exact (places_iff_of_lt (by decide) (by decide) ⟨_, rfl, rfl⟩ ⟨_, rfl, rfl⟩ (by decide)
    (by decide) hround).1.mpr (by decide)

/-! ## A tree that is not symmetric -/

/-- Four leaves whose first fields make two pairs, the even and the odd ones, and the two records of
these pairs. -/
def pairedTree : ProvenanceView where
  level0 := ⟨some fun ref => packedStore (packedStore (fun _ => 0) 6 144 25 ref) 6 0 24 (ref % 2), 4⟩
  round1 := ⟨some fun ref => storeCollision .zhash144_5 5 (fun _ => 0) ref (ref + 2), 2⟩
  round2 := ⟨none, 0⟩
  round3 := ⟨none, 0⟩
  round4 := ⟨none, 0⟩

/-- The two records make a valid join, but the level-zero records at their references do not. -/
theorem joins_not_exact :
    Holds pairedTree 1 0 (storeCollision .zhash144_5 5 (fun _ => 0) 0 2) ∧
    Holds pairedTree 1 1 (storeCollision .zhash144_5 5 (fun _ => 0) 1 3) ∧
    ¬ Exact pairedTree 1 (storeCollision .zhash144_5 5 (fun _ => 0) 0 2)
      (storeCollision .zhash144_5 5 (fun _ => 0) 1 3) 0 1 := by
  refine ⟨⟨_, rfl, rfl⟩, ⟨_, rfl, rfl⟩, fun hexact => ?_⟩
  have hjoinable : Joinable pairedTree 1 0 1 [0, 2] [1, 3] :=
    ⟨by decide, by decide, ⟨0, by decide, by decide⟩, by simp [List.Disjoint]⟩
  have hnone : makeCollisionChecked pairedTree (fieldsAfter 1)
      (storeCollision .zhash144_5 5 (fun _ => 0) 0 2)
      (storeCollision .zhash144_5 5 (fun _ => 0) 1 3) 0 1 = none := by rfl
  have hsome := hexact.accepts.mpr ⟨_, _, hjoinable⟩
  rw [hnone] at hsome
  cases hsome

end MoMiner.Equihash
