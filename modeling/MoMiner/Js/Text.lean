import Mathlib.Data.List.Basic
import Mathlib.Data.List.TakeWhile

/-!
# Text operations of JavaScript

White space and trimming, on texts as lists of characters.
-/

namespace MoMiner.Js

/-- White space and line terminators of the language. -/
def isSpace (c : Char) : Bool :=
  [0x09, 0x0a, 0x0b, 0x0c, 0x0d, 0x20, 0xa0, 0x1680, 0x2028, 0x2029, 0x202f, 0x205f, 0x3000,
    0xfeff].contains c.toNat || (decide (0x2000 ≤ c.toNat) && decide (c.toNat ≤ 0x200a))

/-- `text.trim()`. -/
def trim (text : List Char) : List Char :=
  ((text.dropWhile isSpace).reverse.dropWhile isSpace).reverse

@[simp] theorem trim_nil : trim [] = [] := rfl

/-- A text whose ends are not white space stays as it is. -/
theorem trim_eq_self {text : List Char} (hhead : ∀ c ∈ text.head?, isSpace c = false)
    (hlast : ∀ c ∈ text.getLast?, isSpace c = false) : trim text = text := by
  have hfront : text.dropWhile isSpace = text := by
    cases text with
    | nil => rfl
    | cons c cs => simp [hhead c rfl]
  have hback : text.reverse.dropWhile isSpace = text.reverse := by
    rw [← List.head?_reverse] at hlast
    cases hr : text.reverse with
    | nil => rfl
    | cons c cs => simp [hlast c (by simp [hr])]
  rw [trim, hfront, hback, List.reverse_reverse]

theorem trim_of_forall {text : List Char} (h : ∀ c ∈ text, isSpace c = false) : trim text = text :=
  trim_eq_self (fun c hc => h c (List.mem_of_mem_head? hc))
    (fun c hc => h c (List.mem_of_mem_getLast? hc))

/-- Only white space is trimmed to nothing. -/
theorem trim_ne_nil {text : List Char} {c : Char} (hc : c ∈ text) (hspace : isSpace c = false) :
    trim text ≠ [] := by
  intro h
  rw [trim, List.reverse_eq_nil_iff, List.dropWhile_eq_nil_iff] at h
  have hnil : text.dropWhile isSpace = [] := by
    by_contra hne
    have hhead := List.head_dropWhile_not isSpace hne
    rw [h _ (List.mem_reverse.mpr (List.head_mem hne))] at hhead
    cases hhead
  rw [List.dropWhile_eq_nil_iff] at hnil
  exact absurd (hnil c hc) (by simp [hspace])

/-- What is trimmed is white space before and after the rest, which ends in neither. -/
theorem exists_trim (text : List Char) : ∃ front back, text = front ++ (trim text ++ back) ∧
    (∀ c ∈ front, isSpace c) ∧ (∀ c ∈ back, isSpace c) ∧
    (∀ c ∈ (trim text).head?, isSpace c = false) ∧
    ∀ c ∈ (trim text).getLast?, isSpace c = false := by
  have hsplit : text.dropWhile isSpace =
      trim text ++ ((text.dropWhile isSpace).reverse.takeWhile isSpace).reverse := by
    have h := List.takeWhile_append_dropWhile (p := isSpace) (l := (text.dropWhile isSpace).reverse)
    rw [trim, ← List.reverse_append, h, List.reverse_reverse]
  refine ⟨text.takeWhile isSpace, ((text.dropWhile isSpace).reverse.takeWhile isSpace).reverse,
    ?_, fun c hc => List.mem_takeWhile_imp hc, fun c hc => ?_, fun c hc => ?_, fun c hc => ?_⟩
  · rw [← hsplit, List.takeWhile_append_dropWhile]
  · exact List.mem_takeWhile_imp (List.mem_reverse.mp hc)
  · have hne : trim text ≠ [] := by
      intro hnil
      rw [hnil] at hc
      cases hc
    have hhead : c ∈ (text.dropWhile isSpace).head? := by
      rw [hsplit, List.head?_append_of_ne_nil _ hne]
      exact hc
    have hnot := List.head?_dropWhile_not isSpace text
    rw [Option.mem_def] at hhead
    simpa [hhead] using hnot
  · rw [trim, List.getLast?_reverse, Option.mem_def] at hc
    have hnot := List.head?_dropWhile_not isSpace (text.dropWhile isSpace).reverse
    simpa [hc] using hnot

theorem trim_append {front text back : List Char} (hfront : ∀ c ∈ front, isSpace c)
    (hback : ∀ c ∈ back, isSpace c) (hne : text ≠ [])
    (hhead : ∀ c ∈ text.head?, isSpace c = false) (hlast : ∀ c ∈ text.getLast?, isSpace c = false) :
    trim (front ++ (text ++ back)) = text := by
  have hdrop : (front ++ (text ++ back)).dropWhile isSpace = text ++ back := by
    obtain ⟨c, cs, rfl⟩ := List.exists_cons_of_ne_nil hne
    rw [List.dropWhile_append_of_pos hfront, List.cons_append, List.dropWhile_cons_of_neg]
    simp [hhead c rfl]
  have hdropBack : (back.reverse ++ text.reverse).dropWhile isSpace = text.reverse := by
    rw [List.dropWhile_append_of_pos fun c hc => hback c (List.mem_reverse.mp hc)]
    rw [← List.head?_reverse] at hlast
    cases hr : text.reverse with
    | nil => rfl
    | cons c cs => rw [List.dropWhile_cons_of_neg]; simp [hlast c (by simp [hr])]
  rw [trim, hdrop, List.reverse_append, hdropBack, List.reverse_reverse]

/-- `text.toLowerCase()`, as far as the result is ASCII: the Kelvin sign is a `k` in lower case. -/
def lowerCase (text : List Char) : List Char :=
  text.map fun c => if c.toNat = 0x212a then 'k' else c.toLower

theorem toLower_of_isDigit {c : Char} (h : c.isDigit) : c.toLower = c := by
  delta Char.toLower
  rw [dif_neg]
  simp only [Char.isDigit, Bool.and_eq_true, decide_eq_true_eq, ge_iff_le,
    UInt32.le_iff_toNat_le] at h ⊢
  have h₉ : '9'.val.toNat < 'A'.val.toNat := by decide
  omega

/-- `/^[a-z][a-z0-9_]*$/`. -/
def isLowerName : List Char → Bool
  | [] => false
  | c :: cs => c.isLower && cs.all fun d => d.isLower || d.isDigit || d = '_'

end MoMiner.Js
