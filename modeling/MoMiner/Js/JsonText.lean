import MoMiner.Js.Value

/-!
# JSON texts and their values

A JSON text by its structure, with the literal of each number. `JSON.parse` rounds the literals; its
reviver sees every value and, for a number, its literal.
-/

namespace MoMiner.Js

inductive JsonText
  | null
  | bool (b : Bool)
  | num (source : String)
  | str (s : String)
  | arr (items : List JsonText)
  | obj (fields : List (String × JsonText))

/-- A reviver, on a value and the `context.source` of a number. -/
abbrev Reviver := Json → Option String → Json

/-- What the parser needs of the language: the structure of a text, if it is JSON, and the number
that a literal is rounded to. -/
structure JsonReader where
  structureOf : List Char → Option JsonText
  number : String → Number

namespace JsonText

mutual

/-- The value of a text; a later entry of an object replaces an earlier one of its key. -/
def read (number : String → Number) (reviver : Reviver) : JsonText → Json
  | null => reviver .null none
  | bool b => reviver (.bool b) none
  | num source => reviver (.num (number source)) (some source)
  | str s => reviver (.str s) none
  | arr items => reviver (.arr (readItems number reviver items)) none
  | obj fields => reviver (.obj (readFields number reviver fields).reverse) none

def readItems (number : String → Number) (reviver : Reviver) : List JsonText → List Json
  | [] => []
  | item :: items => item.read number reviver :: readItems number reviver items

def readFields (number : String → Number) (reviver : Reviver) :
    List (String × JsonText) → List (String × Json)
  | [] => []
  | (key, value) :: fields => (key, value.read number reviver) :: readFields number reviver fields

end

/-- The entry of a key that is read last. -/
def get? : JsonText → String → Option JsonText
  | obj fields, key => fields.reverse.lookup key
  | _, _ => none

variable {number : String → Number} {reviver : Reviver}

theorem readItems_eq (items : List JsonText) :
    readItems number reviver items = items.map (read number reviver) := by
  induction items with
  | nil => rfl
  | cons item items ih => rw [readItems, ih, List.map_cons]

theorem readFields_eq (fields : List (String × JsonText)) :
    readFields number reviver fields =
      fields.map fun p => (p.1, p.2.read number reviver) := by
  induction fields with
  | nil => rfl
  | cons p fields ih => rw [readFields, ih, List.map_cons]

theorem lookup_map (fields : List (String × JsonText)) (key : String) :
    (fields.map fun p => (p.1, p.2.read number reviver)).lookup key =
      (fields.lookup key).map (read number reviver) := by
  induction fields with
  | nil => rfl
  | cons p fields ih =>
    rw [List.map_cons, List.lookup_cons, List.lookup_cons, ih]
    split <;> rfl

/-- A reviver that changes numbers only, to numbers or strings. -/
structure NumbersOnly (reviver : Reviver) : Prop where
  keeps : ∀ value, reviver value none = value
  scalar : ∀ n source, ((reviver (.num n) (some source)).scalar?).isSome

theorem read_arr (h : NumbersOnly reviver) (items : List JsonText) :
    (arr items).read number reviver = .arr (items.map (read number reviver)) := by
  rw [read, h.keeps, readItems_eq]

theorem read_str (h : NumbersOnly reviver) (s : String) :
    (str s).read number reviver = .str s := by
  rw [read, h.keeps]

theorem read_get? (h : NumbersOnly reviver) (t : JsonText) (key : String) :
    (t.read number reviver).get? key = (t.get? key).map (read number reviver) := by
  cases t with
  | num source =>
    have hscalar := h.scalar (number source) source
    rw [read]
    cases hvalue : reviver (.num (number source)) (some source) with
    | obj fields =>
      rw [hvalue] at hscalar
      cases hscalar
    | _ => rfl
  | obj fields =>
    rw [read, h.keeps, readFields_eq, ← List.map_reverse, Json.get?, lookup_map, get?]
  | _ =>
    rw [read, h.keeps]
    rfl

end JsonText

/-- `JSON.parse(text, reviver)`. -/
def JsonReader.parse (r : JsonReader) (reviver : Reviver) (text : List Char) : Option Json :=
  (r.structureOf text).map (JsonText.read r.number reviver)

end MoMiner.Js
