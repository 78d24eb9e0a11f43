import Earley.Tree.Basic

/-!
# Cheapest pairs

Extending derivations by one more child. All pairs of a derivation and a child form a grid whose rows and
columns get dearer, so the cheapest pairs are found by merging its rows, and only those are built.
-/

namespace Earley.Forest

/-- One derivation of what lies before an item's dot. -/
structure Stem where
  penalty : Penalty
  /-- The children so far, the newest first. -/
  newestFirst : List Tree

namespace Stem

def empty : Stem := ⟨0, []⟩

def extend (s : Stem) (t : Tree) : Stem := ⟨s.penalty + t.penalty, t :: s.newestFirst⟩

def children (s : Stem) : List Tree := s.newestFirst.reverse

end Stem

/-- What is left of a row of the grid: one derivation with the children it has not been paired with. -/
structure Row where
  position : Nat
  stem : Stem
  next : Tree
  rest : List Tree

namespace Row

def cost (r : Row) : Penalty := r.stem.penalty + r.next.penalty

/-- Cheaper rows come first, and of equally cheap ones the upper. -/
def precedes (a b : Row) : Bool := a.cost < b.cost || (a.cost == b.cost && a.position < b.position)

def insert (r : Row) : List Row → List Row
  | [] => [r]
  | a :: rows => if r.precedes a then r :: a :: rows else a :: r.insert rows

/-- The other rows, with what is left of this one after its next pair. -/
def drop (r : Row) (rows : List Row) : List Row :=
  match r.rest with
  | [] => rows
  | t :: ts => { r with next := t, rest := ts }.insert rows

end Row

/-- Draws the cheapest pair of the first row, at most `count` times and while it is cheap enough. -/
def drawPairs (maxPenalty : Penalty) : (count : Nat) → List Row → List Stem
  | 0, _ => []
  | _ + 1, [] => []
  | count + 1, row :: rows =>
    if row.cost ≤ maxPenalty then
      row.stem.extend row.next :: drawPairs maxPenalty count (row.drop rows)
    else []

/-- The cheapest `limit` pairs within `maxPenalty`, cheapest first; of equally cheap pairs the earlier stem
and then the earlier child comes first. Both lists are sorted by penalty. -/
def pairs (limit : Nat) (maxPenalty : Penalty) (stems : List Stem) (children : List Tree) : List Stem :=
  match children with
  | [] => []
  | t :: ts =>
    drawPairs maxPenalty (min limit (stems.length * children.length))
      (stems.zipIdx.map fun (stem, i) => ⟨i, stem, t, ts⟩)

end Earley.Forest
