import Mathlib.Data.List.ProdSigma
import Mathlib.Data.List.Nodup
import Mathlib.Tactic.Ring
import MoMiner.Lib.Stores

/-!
# Layouts of a matrix

A layout stores every entry of a matrix in a cell of its own, without gaps. The cells are known in
both directions, so that a kernel can count through the entries or through the cells.

**Blocks.** `blocked` cuts a matrix into blocks, and each of them has a layout again.

**Filling.** Stores fill a matrix when every cell gets one store, with the value of its entry
(`Fills`). The order of the stores does not matter.

Main results: `blocked` and `Fills.get`.
-/

namespace MoMiner

/-- A bijection from the entries of a matrix to the cells below their number. -/
structure Layout (rows cols : ℕ) where
  pos : ℕ → ℕ → ℕ
  rowOf : ℕ → ℕ
  colOf : ℕ → ℕ
  pos_lt : ∀ r < rows, ∀ c < cols, pos r c < rows * cols
  rowOf_pos : ∀ r < rows, ∀ c < cols, rowOf (pos r c) = r
  colOf_pos : ∀ r < rows, ∀ c < cols, colOf (pos r c) = c
  rowOf_lt : ∀ p < rows * cols, rowOf p < rows
  colOf_lt : ∀ p < rows * cols, colOf p < cols
  pos_of : ∀ p < rows * cols, pos (rowOf p) (colOf p) = p

namespace Layout

variable {rows cols : ℕ}

/-! ## Rows one after the other -/

theorem cell_lt {r c : ℕ} (hr : r < rows) (hc : c < cols) : r * cols + c < rows * cols := by
  have hle : (r + 1) * cols ≤ rows * cols := Nat.mul_le_mul_right _ hr
  rw [Nat.succ_mul] at hle
  omega

def rowMajor (rows cols : ℕ) : Layout rows cols where
  pos r c := r * cols + c
  rowOf p := p / cols
  colOf p := p % cols
  pos_lt := fun _ hr _ hc => cell_lt hr hc
  rowOf_pos := fun r _ c hc => by
    rw [Nat.mul_comm, Nat.mul_add_div (Nat.zero_lt_of_lt hc), Nat.div_eq_of_lt hc, Nat.add_zero]
  colOf_pos := fun r _ c hc => by
    rw [Nat.mul_comm, Nat.mul_add_mod, Nat.mod_eq_of_lt hc]
  rowOf_lt := fun p hp => Nat.div_lt_of_lt_mul (by rwa [Nat.mul_comm])
  colOf_lt := fun p hp => Nat.mod_lt _ (Nat.pos_of_ne_zero fun h => by simp [h] at hp)
  pos_of := fun p _ => Nat.div_add_mod' p cols

/-! ## Blocks -/

/-- The place of a block and the place in the block, of a row or a column. -/
theorem block_lt {x h d : ℕ} (hd : h ∣ d) (hx : x < d) : x / h < d / h :=
  Nat.div_lt_div_of_lt_of_dvd hd hx

theorem in_block {q y h : ℕ} (hy : y < h) : (q * h + y) / h = q ∧ (q * h + y) % h = y := by
  rw [Nat.mul_comm]
  exact ⟨by rw [Nat.mul_add_div (Nat.zero_lt_of_lt hy), Nat.div_eq_of_lt hy, Nat.add_zero],
    by rw [Nat.mul_add_mod, Nat.mod_eq_of_lt hy]⟩

theorem block_add_lt {q y h d : ℕ} (hd : h ∣ d) (hq : q < d / h) (hy : y < h) : q * h + y < d := by
  have hmul := cell_lt hq hy
  rwa [Nat.div_mul_cancel hd] at hmul

/-- **A matrix in blocks** of `h` rows and `w` columns, the blocks row by row. -/
def blocked {h w : ℕ} (inner : Layout h w) (hh : h ∣ rows) (hw : w ∣ cols) (hpos : 0 < h)
    (wpos : 0 < w) : Layout rows cols where
  pos r c := (r / h * (cols / w) + c / w) * (h * w) + inner.pos (r % h) (c % w)
  rowOf p := p / (h * w) / (cols / w) * h + inner.rowOf (p % (h * w))
  colOf p := p / (h * w) % (cols / w) * w + inner.colOf (p % (h * w))
  pos_lt := fun r hr c hc => by
    have hblock := cell_lt (block_lt hh hr) (block_lt hw hc)
    have hin := inner.pos_lt _ (Nat.mod_lt r hpos) _ (Nat.mod_lt c wpos)
    have hcell := cell_lt hblock hin
    rwa [Nat.mul_mul_mul_comm, Nat.div_mul_cancel hh, Nat.div_mul_cancel hw] at hcell
  rowOf_pos := fun r _ c hc => by
    have hin := inner.pos_lt _ (Nat.mod_lt r hpos) _ (Nat.mod_lt c wpos)
    obtain ⟨hdiv, hmod⟩ := in_block (q := r / h * (cols / w) + c / w) hin
    rw [hdiv, hmod, (in_block (block_lt hw hc)).1,
      inner.rowOf_pos _ (Nat.mod_lt r hpos) _ (Nat.mod_lt c wpos), Nat.div_add_mod']
  colOf_pos := fun r _ c hc => by
    have hin := inner.pos_lt _ (Nat.mod_lt r hpos) _ (Nat.mod_lt c wpos)
    obtain ⟨hdiv, hmod⟩ := in_block (q := r / h * (cols / w) + c / w) hin
    rw [hdiv, hmod, (in_block (block_lt hw hc)).2,
      inner.colOf_pos _ (Nat.mod_lt r hpos) _ (Nat.mod_lt c wpos), Nat.div_add_mod']
  rowOf_lt := fun p hp => by
    refine block_add_lt hh ?_ (inner.rowOf_lt _ (Nat.mod_lt p (Nat.mul_pos hpos wpos)))
    rw [Nat.div_div_eq_div_mul]
    refine Nat.div_lt_of_lt_mul (lt_of_lt_of_eq hp ?_)
    calc rows * cols = h * (rows / h) * (w * (cols / w)) := by
          rw [Nat.mul_div_cancel' hh, Nat.mul_div_cancel' hw]
      _ = h * w * (cols / w) * (rows / h) := by ring
  colOf_lt := fun p hp => by
    have hcols : 0 < cols / w :=
      Nat.div_pos (Nat.le_of_dvd (Nat.pos_of_ne_zero fun h => by simp [h] at hp) hw) wpos
    exact block_add_lt hw (Nat.mod_lt _ hcols)
      (inner.colOf_lt _ (Nat.mod_lt p (Nat.mul_pos hpos wpos)))
  pos_of := fun p _ => by
    have hlt := Nat.mod_lt p (Nat.mul_pos hpos wpos)
    obtain ⟨hr, hr'⟩ := in_block (q := p / (h * w) / (cols / w)) (inner.rowOf_lt _ hlt)
    obtain ⟨hc, hc'⟩ := in_block (q := p / (h * w) % (cols / w)) (inner.colOf_lt _ hlt)
    rw [hr, hr', hc, hc', inner.pos_of _ hlt, Nat.div_add_mod', Nat.div_add_mod']

/-! ## Counting through a matrix -/

/-- The entries of a matrix. -/
def entries (rows cols : ℕ) : List (ℕ × ℕ) := List.range rows ×ˢ List.range cols

theorem mem_entries {p : ℕ × ℕ} : p ∈ entries rows cols ↔ p.1 < rows ∧ p.2 < cols := by
  obtain ⟨r, c⟩ := p
  rw [entries, List.mem_product, List.mem_range, List.mem_range]

theorem nodup_entries (rows cols : ℕ) : (entries rows cols).Nodup :=
  List.nodup_range.product List.nodup_range

/-- A list that counts through the entries of a matrix. -/
theorem perm_entries {ι : Type*} {items : List ι} {entry : ι → ℕ × ℕ} (hnodup : items.Nodup)
    (hinj : ∀ a ∈ items, ∀ b ∈ items, entry a = entry b → a = b)
    (hmem : ∀ a ∈ items, (entry a).1 < rows ∧ (entry a).2 < cols)
    (hall : ∀ r < rows, ∀ c < cols, ∃ a ∈ items, entry a = (r, c)) :
    (items.map entry).Perm (entries rows cols) := by
  refine (List.perm_ext_iff_of_nodup (List.Nodup.map_on (fun a ha b hb => hinj a ha b hb) hnodup)
    (nodup_entries rows cols)).mpr fun p => ?_
  rw [mem_entries, List.mem_map]
  constructor
  · rintro ⟨a, ha, rfl⟩
    exact hmem a ha
  · rintro ⟨hr, hc⟩
    exact hall p.1 hr p.2 hc

/-- **Counting through the cells.** -/
theorem perm_cells (L : Layout rows cols) :
    ((List.range (rows * cols)).map fun p => (L.rowOf p, L.colOf p)).Perm (entries rows cols) := by
  refine perm_entries List.nodup_range (fun a ha b hb hab => ?_) (fun p hp => ?_)
    fun r hr c hc => ⟨L.pos r c, List.mem_range.mpr (L.pos_lt r hr c hc), ?_⟩
  · have hpos := congrArg (fun e : ℕ × ℕ => L.pos e.1 e.2) hab
    simp only [L.pos_of a (List.mem_range.mp ha), L.pos_of b (List.mem_range.mp hb)] at hpos
    exact hpos
  · exact ⟨L.rowOf_lt p (List.mem_range.mp hp), L.colOf_lt p (List.mem_range.mp hp)⟩
  · rw [L.rowOf_pos r hr c hc, L.colOf_pos r hr c hc]

/-- The same entries, columns first. -/
theorem perm_swap {items : List (ℕ × ℕ)} (h : items.Perm (entries cols rows)) :
    (items.map Prod.swap).Perm (entries rows cols) := by
  refine (h.map Prod.swap).trans (perm_entries (nodup_entries cols rows)
    (fun a _ b _ hab => Prod.swap_injective hab) (fun a ha => (mem_entries.mp ha).symm)
    fun r hr c hc => ⟨(c, r), mem_entries.mpr ⟨hc, hr⟩, rfl⟩)

/-- The cells of a matrix, each once. -/
theorem perm_pos (L : Layout rows cols) :
    ((entries rows cols).map fun e => L.pos e.1 e.2).Perm (List.range (rows * cols)) := by
  refine ((L.perm_cells.map fun e => L.pos e.1 e.2).symm).trans (.of_eq ?_)
  rw [List.map_map]
  exact (List.map_congr_left fun p hp => L.pos_of p (List.mem_range.mp hp)).trans (List.map_id _)

/-! ## Filling a matrix -/

/-- Stores that fill a matrix: a store for each cell, with the value of its entry. -/
structure Fills {β : Type*} (L : Layout rows cols) (value : ℕ → ℕ → β) (stores : List (ℕ × β)) :
    Prop where
  once : (stores.map Prod.fst).Perm (List.range (rows * cols))
  value : ∀ r < rows, ∀ c < cols, (L.pos r c, value r c) ∈ stores

variable {β : Type*} {L : Layout rows cols} {value : ℕ → ℕ → β}

/-- Stores of the entries in any order. -/
theorem Fills.of_entries {items : List (ℕ × ℕ)} (h : items.Perm (entries rows cols)) :
    Fills L value (items.map fun e => (L.pos e.1 e.2, value e.1 e.2)) where
  once := by
    rw [List.map_map]
    exact (h.map fun e => L.pos e.1 e.2).trans L.perm_pos
  value := fun r hr c hc =>
    List.mem_map.mpr ⟨(r, c), h.mem_iff.mpr (mem_entries.mpr ⟨hr, hc⟩), rfl⟩

/-- **Every entry after the stores**, in whatever order they are made. -/
theorem Fills.get {stores : List (ℕ × β)} (h : Fills L value stores) {mem mem' : ℕ → β}
    (hphase : Stores.Phase stores mem mem') {r c : ℕ} (hr : r < rows) (hc : c < cols) :
    mem' (L.pos r c) = value r c := by
  have hnodup : (stores.map Prod.fst).Nodup := h.once.nodup_iff.mpr List.nodup_range
  refine hphase.get (h.value r hr c hc) fun v' hv' => ?_
  have heq := List.inj_on_of_nodup_map hnodup hv' (h.value r hr c hc) rfl
  exact (Prod.mk.inj heq).2

end Layout

end MoMiner
