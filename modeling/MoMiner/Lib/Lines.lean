import Mathlib.Data.List.Basic

/-!
# Terminated segments of a stream

A stream over any alphabet is cut at a separator: `terminated` has the segments that a separator
ends, `remainder` what follows the last one. Both can be computed piece by piece, keeping only the
remainder between the pieces (`terminated_append`, `remainder_append`). Facts about texts are proved
with `lines_induction`.
-/

namespace MoMiner.Lines

/-- Induction over the lines of a text. -/
theorem lines_induction {α : Type*} [DecidableEq α] {s : α} {motive : List α → Prop}
    (unfinished : ∀ text, s ∉ text → motive text)
    (line : ∀ first rest, s ∉ first → motive rest → motive (first ++ s :: rest))
    (text : List α) : motive text := by
  -- The text is `first ++ rest` with `first` the part of its line that was read already.
  suffices h : ∀ first, s ∉ first → motive (first ++ text) from h [] (by simp)
  induction text with
  | nil =>
    intro first hf
    exact unfinished _ (by simpa using hf)
  | cons c cs ih =>
    intro first hf
    by_cases hc : c = s
    · subst hc
      exact line first cs hf (ih [] (by simp))
    · rw [show first ++ c :: cs = (first ++ [c]) ++ cs by simp]
      exact ih _ (by simp [hf, Ne.symm hc])

variable {α : Type*} [DecidableEq α] {sep : α}

/-- The segments that a separator ends. -/
def terminated (sep : α) (text : List α) : List (List α) := (text.splitOn sep).dropLast

/-- What follows the last separator. -/
def remainder (sep : α) (text : List α) : List α :=
  (text.splitOn sep).getLast (List.splitOn_ne_nil sep text)

theorem splitOn_eq (text : List α) :
    text.splitOn sep = terminated sep text ++ [remainder sep text] :=
  (List.dropLast_concat_getLast _).symm

/-- No segment has a separator in it. -/
theorem notMem_of_mem_splitOn {text part : List α} (h : part ∈ text.splitOn sep) : sep ∉ part := by
  induction text using lines_induction (s := sep) with
  | unfinished text htext =>
    rw [List.splitOn_eq_singleton htext, List.mem_singleton] at h
    rwa [h]
  | line first rest hfirst ih =>
    rw [List.splitOn_append_cons_self_of_not_mem hfirst] at h
    rcases List.mem_cons.mp h with rfl | h
    · exact hfirst
    · exact ih h

theorem terminated_of_notMem {text : List α} (h : sep ∉ text) : terminated sep text = [] := by
  rw [terminated, List.splitOn_eq_singleton h]
  rfl

theorem remainder_of_notMem {text : List α} (h : sep ∉ text) : remainder sep text = text := by
  have hsplit : text.splitOn sep = _ := splitOn_eq text
  rw [List.splitOn_eq_singleton h, terminated_of_notMem h] at hsplit
  exact (List.singleton_inj.mp hsplit).symm

theorem terminated_line {first : List α} (h : sep ∉ first) (rest : List α) :
    terminated sep (first ++ sep :: rest) = first :: terminated sep rest := by
  have hsplit := List.splitOn_append_cons_self_of_not_mem h rest
  rw [terminated, hsplit, splitOn_eq rest, ← List.cons_append, List.dropLast_concat]

theorem remainder_line {first : List α} (h : sep ∉ first) (rest : List α) :
    remainder sep (first ++ sep :: rest) = remainder sep rest := by
  have hsplit : (first ++ sep :: rest).splitOn sep = _ := splitOn_eq _
  rw [List.splitOn_append_cons_self_of_not_mem h, splitOn_eq rest, ← List.cons_append] at hsplit
  exact (List.singleton_inj.mp (List.append_inj' hsplit rfl).2).symm

/-- The remainder of the first piece is completed by the second. -/
theorem terminated_append (a b : List α) :
    terminated sep (a ++ b) = terminated sep a ++ terminated sep (remainder sep a ++ b) := by
  induction a using lines_induction (s := sep) with
  | unfinished text h => rw [terminated_of_notMem h, remainder_of_notMem h, List.nil_append]
  | line first rest h ih =>
    rw [List.append_assoc, List.cons_append, terminated_line h, terminated_line h,
      remainder_line h, ih, List.cons_append]

theorem remainder_append (a b : List α) :
    remainder sep (a ++ b) = remainder sep (remainder sep a ++ b) := by
  induction a using lines_induction (s := sep) with
  | unfinished text h => rw [remainder_of_notMem h]
  | line first rest h ih =>
    rw [List.append_assoc, List.cons_append, remainder_line h, remainder_line h, ih]

theorem notMem_remainder (text : List α) : sep ∉ remainder sep text := by
  induction text using lines_induction (s := sep) with
  | unfinished text h => rwa [remainder_of_notMem h]
  | line first rest h ih => rwa [remainder_line h]

theorem remainder_of_getLast {text : List α} (h : text.getLast? = some sep) :
    remainder sep text = [] := by
  induction text using lines_induction (s := sep) with
  | unfinished text hnot => exact absurd (List.mem_of_getLast? h) hnot
  | line first rest hnot ih =>
    rw [remainder_line hnot]
    rcases eq_or_ne rest [] with rfl | hne
    · exact remainder_of_notMem (by simp)
    · refine ih ?_
      rw [List.getLast?_append_of_ne_nil _ (by simp), List.getLast?_cons,
        List.getLast?_eq_some_getLast hne, Option.getD_some] at h
      rw [List.getLast?_eq_some_getLast hne, h]

end MoMiner.Lines
