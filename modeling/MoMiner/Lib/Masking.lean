import Mathlib.Data.List.Basic
import Mathlib.Data.List.Infix

/-!
# Replacing parts of a text by a mark

A rewriting pass goes through a text from left to right and replaces what it finds by a mark. The
mark is written between two letters that the needles of interest do not have, so no needle can
reach from the text around a mark into it.

**Main results.** A needle that occurs after any pass occurred before it (`Masked.isInfix`), and a
pass that replaces the needle itself leaves none (`not_isInfix_replaceAll`).
-/

namespace MoMiner.Masking

variable {α : Type*}

/-! ## Occurrences beside a letter -/

theorem prefix_left_of_notMem {x : α} {needle left right : List α} (hx : x ∉ needle)
    (h : needle <+: left ++ x :: right) : needle <+: left := by
  induction left generalizing needle with
  | nil =>
    rcases List.prefix_cons_iff.mp h with rfl | ⟨rest, rfl, -⟩
    · exact List.nil_prefix
    · exact absurd List.mem_cons_self hx
  | cons c left ih =>
    rcases List.prefix_cons_iff.mp h with rfl | ⟨rest, rfl, hrest⟩
    · exact List.nil_prefix
    · exact List.cons_prefix_cons.mpr ⟨rfl, ih (fun hmem => hx (List.mem_cons_of_mem _ hmem)) hrest⟩

/-- An occurrence of a needle is on one side of a letter it does not have. -/
theorem infix_append_cons {x : α} {needle left right : List α} (hx : x ∉ needle)
    (h : needle <:+: left ++ x :: right) : needle <:+: left ∨ needle <:+: right := by
  induction left with
  | nil =>
    rcases List.infix_cons_iff.mp h with hstart | hright
    · exact .inl (@prefix_left_of_notMem _ x needle [] right hx hstart).isInfix
    · exact .inr hright
  | cons c left ih =>
    rcases List.infix_cons_iff.mp h with hstart | hrest
    · exact .inl (@prefix_left_of_notMem _ x needle (c :: left) right hx hstart).isInfix
    · exact (ih hrest).imp_left fun hleft => List.infix_cons_iff.mpr (.inr hleft)

/-! ## Masked texts -/

/-- A text and the same text with some parts replaced by the mark. -/
inductive Masked (mark : List α) : List α → List α → Prop
  | nil : Masked mark [] []
  | keep (c : α) {old new : List α} : Masked mark old new → Masked mark (c :: old) (c :: new)
  | mask (gone : List α) {old new : List α} :
      Masked mark old new → Masked mark (gone ++ old) (mark ++ new)

theorem Masked.keepAll {mark old new : List α} (h : Masked mark old new) (kept : List α) :
    Masked mark (kept ++ old) (kept ++ new) := by
  induction kept with
  | nil => exact h
  | cons c kept ih => exact .keep c ih

/-- The whole text is replaced. -/
theorem Masked.whole (mark text : List α) : Masked mark text mark := by
  have h : Masked mark (text ++ []) (mark ++ []) := .mask text .nil
  simpa using h

/-- The needle has a letter, none of the mark's ends, and is not a part of the mark. -/
structure Avoids (front : α) (inner : List α) (back : α) (needle : List α) : Prop where
  ne_nil : needle ≠ []
  front : front ∉ needle
  back : back ∉ needle
  inner : ¬ needle <:+: inner

variable {front back : α} {inner needle old new : List α}

/-- An occurrence in a text that begins with a mark is behind the mark. -/
theorem Avoids.isInfix_of_mark (h : Avoids front inner back needle) {text : List α}
    (hinside : needle <:+: front :: inner ++ [back] ++ text) : needle <:+: text := by
  rw [List.append_assoc, List.singleton_append] at hinside
  rcases infix_append_cons h.back hinside with hmark | htext
  · rcases @infix_append_cons _ front needle [] inner h.front hmark with hnil | hinner
    · exact absurd (List.infix_nil.mp hnil) h.ne_nil
    · exact absurd hinner h.inner
  · exact htext

theorem Avoids.not_isInfix_mark (h : Avoids front inner back needle) :
    ¬ needle <:+: front :: inner ++ [back] := by
  intro hinside
  have hnil : needle <:+: [] := h.isInfix_of_mark (by simpa using hinside)
  exact h.ne_nil (List.infix_nil.mp hnil)

/-- A needle the new text begins with is one the old text began with. -/
theorem Masked.isPrefix (hmasked : Masked (front :: inner ++ [back]) old new)
    (h : front ∉ needle) (hstart : needle <+: new) : needle <+: old := by
  induction hmasked generalizing needle with
  | nil => exact hstart
  | keep c _ ih =>
    rcases List.prefix_cons_iff.mp hstart with rfl | ⟨rest, rfl, hrest⟩
    · exact List.nil_prefix
    · exact List.cons_prefix_cons.mpr ⟨rfl, ih (fun hmem => h (List.mem_cons_of_mem _ hmem)) hrest⟩
  | mask gone _ _ =>
    have hnil : needle <+: [] := prefix_left_of_notMem h (by simpa using hstart)
    rw [List.prefix_nil.mp hnil]
    exact List.nil_prefix

/-- **Masking adds no occurrence** of a needle that avoids the mark. -/
theorem Masked.isInfix (hmasked : Masked (front :: inner ++ [back]) old new)
    (h : Avoids front inner back needle) (hinside : needle <:+: new) : needle <:+: old := by
  induction hmasked with
  | nil => exact hinside
  | keep c hrest ih =>
    rcases List.infix_cons_iff.mp hinside with hstart | hnew
    · exact ((Masked.keep c hrest).isPrefix h.front hstart).isInfix
    · exact List.infix_cons_iff.mpr (.inr (ih hnew))
  | mask gone _ ih => exact (ih (h.isInfix_of_mark hinside)).trans (List.suffix_append _ _).isInfix

/-! ## One pass -/

/-- A match at the current position: `kept` letters of it stay, the next `width` are replaced. -/
structure Match where
  kept : ℕ
  width : ℕ
  pos : 0 < width

/-- The text with every match replaced by the mark. `find` is told whether the position is the
text's first, and what follows it. -/
def replaceAll (find : Bool → List α → Option Match) (mark : List α) (start : Bool) :
    List α → List α
  | [] => []
  | c :: rest =>
    match find start (c :: rest) with
    | none => c :: replaceAll find mark false rest
    | some m => (c :: rest).take m.kept ++
        (mark ++ replaceAll find mark false ((c :: rest).drop (m.kept + m.width)))
termination_by text => text.length
decreasing_by
  · simp
  · have hpos := m.pos
    rw [List.length_drop, List.length_cons]
    omega

theorem replaceAll_masked (find : Bool → List α → Option Match) (mark : List α) (start : Bool)
    (text : List α) : Masked mark text (replaceAll find mark start text) := by
  fun_induction replaceAll find mark start text with
  | case1 => exact .nil
  | case2 _ c rest _ ih => exact .keep c ih
  | case3 _ c rest m _ ih =>
    have hsplit : c :: rest = (c :: rest).take m.kept ++ (((c :: rest).drop m.kept).take m.width ++
        (c :: rest).drop (m.kept + m.width)) := by
      rw [← List.drop_drop, List.take_append_drop, List.take_append_drop]
    conv => enter [2]; rw [hsplit]
    exact Masked.keepAll (.mask _ ih) _

/-- A pass that finds the needle wherever it stands, and keeps nothing of it, leaves none. -/
theorem not_isInfix_replaceAll {find : Bool → List α → Option Match} (start : Bool)
    (text : List α) (h : Avoids front inner back needle)
    (hfind : ∀ start text, find start text = none → ¬ needle <+: text)
    (hkept : ∀ start text m, find start text = some m → m.kept = 0) :
    ¬ needle <:+: replaceAll find (front :: inner ++ [back]) start text := by
  fun_induction replaceAll find (front :: inner ++ [back]) start text with
  | case1 => exact fun hinside => h.ne_nil (List.infix_nil.mp hinside)
  | case2 start c rest hnone ih =>
    intro hinside
    rcases List.infix_cons_iff.mp hinside with hstart | hrest
    · have hmasked := Masked.keep c (replaceAll_masked find (front :: inner ++ [back]) false rest)
      exact hfind start _ hnone (hmasked.isPrefix h.front hstart)
    · exact ih hrest
  | case3 start c rest m hsome ih =>
    intro hinside
    rw [hkept start _ m hsome, List.take_zero, List.nil_append] at hinside
    rw [hkept start _ m hsome] at ih
    exact ih (h.isInfix_of_mark hinside)

end MoMiner.Masking
