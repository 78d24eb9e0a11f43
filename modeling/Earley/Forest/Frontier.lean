import Earley.Forest.Pairing

/-!
# Walking the grid

Another way to the cheapest pairs of a derivation and a child. The grid of all pairs is walked outward from its corner:
drawing a cell puts the cell below it and the cell to its right on the frontier, each unless it has been there before,
and the cheapest cell of the frontier is drawn next.
-/

namespace Earley.Forest

@[ext] structure Cell (rows columns : Nat) where
  row : Fin rows
  column : Fin columns
  deriving DecidableEq

variable {rows columns : Nat}

namespace Cell

def below? (a : Cell rows columns) : Option (Cell rows columns) :=
  if h : a.row + 1 < rows then some { a with row := ⟨a.row + 1, h⟩ } else none

def right? (a : Cell rows columns) : Option (Cell rows columns) :=
  if h : a.column + 1 < columns then some { a with column := ⟨a.column + 1, h⟩ } else none

/-- Cheaper cells come first, and of equally cheap ones the upper, and in one row the one further left. -/
def precedes (cost : Cell rows columns → Penalty) (a b : Cell rows columns) : Bool :=
  cost a < cost b || (cost a == cost b && (a.row < b.row || (a.row == b.row && a.column < b.column)))

def insert (cost : Cell rows columns → Penalty) (a : Cell rows columns) :
    List (Cell rows columns) → List (Cell rows columns)
  | [] => [a]
  | b :: waiting => if a.precedes cost b then a :: b :: waiting else b :: a.insert cost waiting

end Cell

/-- The cells that can be drawn next, the first of them first, and all that have ever been among them. -/
structure Frontier (rows columns : Nat) where
  waiting : List (Cell rows columns)
  seen : List (Cell rows columns)

namespace Frontier

def corner (rows columns : Nat) : Frontier rows columns :=
  if h : 0 < rows ∧ 0 < columns then
    let first : Cell rows columns := ⟨⟨0, h.1⟩, ⟨0, h.2⟩⟩
    ⟨[first], [first]⟩
  else ⟨[], []⟩

def reach (cost : Cell rows columns → Penalty) (f : Frontier rows columns) :
    Option (Cell rows columns) → Frontier rows columns
  | none => f
  | some a => if a ∈ f.seen then f else ⟨a.insert cost f.waiting, a :: f.seen⟩

def advance (cost : Cell rows columns → Penalty) (a : Cell rows columns) (waiting seen : List (Cell rows columns)) :
    Frontier rows columns :=
  ((⟨waiting, seen⟩ : Frontier rows columns).reach cost a.below?).reach cost a.right?

end Frontier

/-- Draws the first cell of the frontier, at most `count` times and while it is cheap enough. -/
def drawCells (cost : Cell rows columns → Penalty) (maxPenalty : Penalty) :
    (count : Nat) → Frontier rows columns → List (Cell rows columns)
  | 0, _ => []
  | _ + 1, ⟨[], _⟩ => []
  | count + 1, ⟨a :: waiting, seen⟩ =>
    if cost a ≤ maxPenalty then a :: drawCells cost maxPenalty count (.advance cost a waiting seen) else []

section Pairs

variable (stems : List Stem) (children : List Tree)

def pairCost (a : Cell stems.length children.length) : Penalty :=
  (stems.get a.row).penalty + (children.get a.column).penalty

def pairAt (a : Cell stems.length children.length) : Stem := (stems.get a.row).extend (children.get a.column)

/-- The cheapest `limit` pairs within `maxPenalty`, as a walk over their grid comes upon them. -/
def walkPairs (limit : Nat) (maxPenalty : Penalty) : List Stem :=
  (drawCells (pairCost stems children) maxPenalty limit (.corner _ _)).map (pairAt stems children)

end Pairs

end Earley.Forest
