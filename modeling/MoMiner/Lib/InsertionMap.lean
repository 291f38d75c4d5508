import Mathlib.Data.List.Nodup

/-!
# Maps in insertion order

A map as a list of entries: setting a key that is present replaces its value and keeps its place,
setting a new key appends. A list of values collected by their keys has each key once, and begins
with the first value if no other one has its key.
-/

namespace MoMiner.InsertionMap

variable {κ α : Type} [DecidableEq κ]

def set (m : List (κ × α)) (k : κ) (v : α) : List (κ × α) :=
  if k ∈ m.map Prod.fst then m.map fun p => if p.1 = k then (k, v) else p else m ++ [(k, v)]

/-- The values of a list, set under their keys. -/
def collect (key : α → κ) (l : List α) : List (κ × α) := l.foldl (fun m a => set m (key a) a) []

theorem keys_set (m : List (κ × α)) (k : κ) (v : α) :
    (set m k v).map Prod.fst =
      if k ∈ m.map Prod.fst then m.map Prod.fst else m.map Prod.fst ++ [k] := by
  rw [set]
  split_ifs with h
  · rw [List.map_map]
    refine List.map_congr_left fun p _ => ?_
    by_cases hp : p.1 = k <;> simp [hp]
  · simp

theorem nodup_keys_set {m : List (κ × α)} (h : (m.map Prod.fst).Nodup) (k : κ) (v : α) :
    ((set m k v).map Prod.fst).Nodup := by
  rw [keys_set]
  split_ifs with hk
  · exact h
  · exact List.nodup_append.mpr ⟨h, List.nodup_singleton k, fun a ha b hb hab =>
      hk (List.mem_singleton.mp hb ▸ hab ▸ ha)⟩

theorem mem_set {m : List (κ × α)} {k : κ} {v : α} {p : κ × α} (h : p ∈ set m k v) :
    p = (k, v) ∨ p ∈ m := by
  rw [set] at h
  split_ifs at h
  · obtain ⟨q, hq, rfl⟩ := List.mem_map.mp h
    by_cases hqk : q.1 = k
    · exact .inl (if_pos hqk)
    · exact .inr (by rwa [if_neg hqk])
  · exact (List.mem_append.mp h).symm.imp List.mem_singleton.mp id

theorem head_set {m : List (κ × α)} {p : κ × α} (h : m.head? = some p) (k : κ) (v : α)
    (hv : k = p.1 → v = p.2) : (set m k v).head? = some p := by
  rw [set]
  split_ifs
  · rw [List.head?_map, h, Option.map_some]
    by_cases hk : p.1 = k
    · rw [if_pos hk, hv hk.symm, ← hk]
    · rw [if_neg hk]
  · rw [List.head?_append, h]
    rfl

variable {key : α → κ}

theorem nodup_keys_collect (l : List α) : ((collect key l).map Prod.fst).Nodup := by
  have hrun : ∀ m : List (κ × α), (m.map Prod.fst).Nodup →
      ((l.foldl (fun m a => set m (key a) a) m).map Prod.fst).Nodup := by
    induction l with
    | nil => exact fun _ hm => hm
    | cons a l ih => exact fun m hm => ih _ (nodup_keys_set hm _ _)
  exact hrun [] List.nodup_nil

theorem mem_collect {l : List α} {p : κ × α} (h : p ∈ collect key l) : p.1 = key p.2 ∧ p.2 ∈ l := by
  have hrun : ∀ m : List (κ × α), p ∈ l.foldl (fun m a => set m (key a) a) m →
      p ∈ m ∨ (p.1 = key p.2 ∧ p.2 ∈ l) := by
    clear h
    induction l with
    | nil => exact fun _ h => .inl h
    | cons a l ih =>
      intro m h
      rcases ih _ h with h | ⟨hkey, hmem⟩
      · rcases mem_set h with rfl | h
        · exact .inr ⟨rfl, List.mem_cons_self⟩
        · exact .inl h
      · exact .inr ⟨hkey, List.mem_cons_of_mem a hmem⟩
  exact (hrun [] h).resolve_left (by simp)

/-- The first value stays first if it is the only one with its key. -/
theorem head_collect {a : α} {l : List α} (h : ∀ b ∈ l, key b = key a → b = a) :
    (collect key (a :: l)).head? = some (key a, a) := by
  have hrun : ∀ m : List (κ × α), m.head? = some (key a, a) →
      (l.foldl (fun m a => set m (key a) a) m).head? = some (key a, a) := by
    induction l with
    | nil => exact fun _ hm => hm
    | cons b l ih =>
      obtain ⟨hb, hl⟩ := List.forall_mem_cons.mp h
      exact fun m hm => ih hl _ (head_set hm _ _ hb)
  exact hrun [(key a, a)] rfl

/-- The collected values have different keys. -/
theorem nodup_values (l : List α) : (((collect key l).map Prod.snd).map key).Nodup := by
  have hkeys : ((collect key l).map Prod.snd).map key = (collect key l).map Prod.fst := by
    rw [List.map_map]
    exact List.map_congr_left fun p hp => (mem_collect hp).1.symm
  rw [hkeys]
  exact nodup_keys_collect l

end MoMiner.InsertionMap
