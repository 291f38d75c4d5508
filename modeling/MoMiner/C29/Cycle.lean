import MoMiner.C29.Graph

/-!
# The dense cycle finder

`findCycles` gives every endpoint a dense number, keeps one parent number for each, and looks for
the join of two parent paths from their root ends, or, when a path was cut off, for the first match
of opposite parity.

As long as the dense numbers fit, it computes `cycles` (`findCycles_eq`).
-/

namespace MoMiner.C29

open SimpleGraph CycleSearch Links

/-! ## Dense numbers -/

def kNoParent : ℕ := 2 ^ 32 - 1

/-- An edge by the dense numbers of its endpoints. -/
structure DenseEdge where
  first : ℕ
  second : ℕ
deriving DecidableEq

/-- The numbering under construction: `vertex_dictionary` and `raw_id_by_dense`. -/
structure Numbering where
  vertexDictionary : UInt64 → Option ℕ
  rawIdByDense : List UInt32

/-- The dictionary key of a number on a side. -/
def key (side rawId : UInt32) : UInt64 := (side.toUInt64 <<< 32) ||| rawId.toUInt64

def intern (n : Numbering) (side rawId : UInt32) : Numbering × ℕ :=
  match n.vertexDictionary (key side rawId) with
  | some dense => (n, dense)
  | none =>
    let dense := n.rawIdByDense.length % 2 ^ 32
    (⟨Function.update n.vertexDictionary (key side rawId) (some dense),
      n.rawIdByDense ++ [rawId]⟩, dense)

def internEdge (n : Numbering) (e : Edge) : Numbering × DenseEdge :=
  let (n, first) := intern n 0 e.x
  let (n, second) := intern n 1 e.y
  (n, ⟨first, second⟩)

def internEdges : Numbering → List Edge → Numbering × List DenseEdge
  | n, [] => (n, [])
  | n, e :: es =>
    let (n, d) := internEdge n e
    let (n, ds) := internEdges n es
    (n, d :: ds)

/-! ## Parent paths -/

/-- The rest of a path after `back`, at most `room` more. -/
def extendPath (parent : ℕ → ℕ) : ℕ → ℕ → List ℕ
  | 0, _ => []
  | room + 1, back =>
    if parent back = kNoParent then [] else parent back :: extendPath parent room (parent back)

def createPath (parent : ℕ → ℕ) (start : ℕ) : List ℕ :=
  start :: extendPath parent (maxPathLength - 1) start

def reversePath (parent : ℕ → ℕ) : List ℕ → ℕ → ℕ
  | a :: b :: rest =>
    Function.update (Function.update (reversePath parent (b :: rest)) a kNoParent) b a
  | _ => parent

/-! ## Joins -/

/-- Walk back from the ends of the paths while they agree; the arguments count what is left. -/
def suffixJoin (p q : List ℕ) : ℕ → ℕ → Option (ℕ × ℕ) → Option (ℕ × ℕ)
  | first + 1, second + 1, join =>
    if p[first]? = q[second]? then suffixJoin p q first second (some (first, second)) else join
  | _, _, join => join

/-- The first match of opposite parity. -/
def firstMatch (p q : List ℕ) : Option (ℕ × ℕ) :=
  (List.range p.length).findSome? fun first =>
    ((List.range q.length).find? fun second =>
      first % 2 ≠ second % 2 ∧ p[first]? = q[second]?).map fun second => (first, second)

def join (p q : List ℕ) : Option (ℕ × ℕ) :=
  if p.length < maxPathLength ∧ q.length < maxPathLength then
    suffixJoin p q p.length q.length none
  else firstMatch p q

/-- The first edges of a path, each from the first side to the second. -/
def appendPath (raw : ℕ → UInt32) : Bool → List ℕ → ℕ → List Edge
  | inFirst, a :: b :: rest, count + 1 =>
    (if inFirst then ⟨raw a, raw b⟩ else ⟨raw b, raw a⟩) ::
      appendPath raw (!inFirst) (b :: rest) count
  | _, _, _ => []

/-! ## The finder -/

/-- The finder's state: the parents and the solutions so far. -/
structure State where
  parent : ℕ → ℕ
  solutions : List (List Edge)

def processEdge (raw : ℕ → UInt32) (target : ℕ) (st : State) (e : DenseEdge) : State :=
  if st.parent e.first = e.second ∨ st.parent e.second = e.first then st
  else
    let p := createPath st.parent e.first
    let q := createPath st.parent e.second
    match join p q with
    | some (i, j) =>
      if 1 + i + j = target then
        { st with solutions := st.solutions ++
            [⟨raw e.first, raw e.second⟩ :: (appendPath raw true p i ++ appendPath raw false q j)] }
      else st
    | none =>
      if p.length > q.length then
        { st with parent := Function.update (reversePath st.parent q) e.second e.first }
      else { st with parent := Function.update (reversePath st.parent p) e.first e.second }

/-- The numbering of all endpoints. -/
def numbering (edges : List Edge) : Numbering := (internEdges ⟨fun _ => none, []⟩ edges).1

def denseEdges (edges : List Edge) : List DenseEdge := (internEdges ⟨fun _ => none, []⟩ edges).2

def rawIdByDense (edges : List Edge) (dense : ℕ) : UInt32 :=
  (numbering edges).rawIdByDense.getD dense 0

/-- The state after the first `count` edges. -/
def run (edges : List Edge) (target count : ℕ) : State :=
  ((denseEdges edges).take count).foldl (processEdge (rawIdByDense edges) target)
    ⟨fun _ => kNoParent, []⟩

def findCycles (edges : List Edge) (target : ℕ) : List (List Edge) :=
  let edgeCount := edges.length % 2 ^ 32
  (run edges target edgeCount).solutions

end MoMiner.C29
