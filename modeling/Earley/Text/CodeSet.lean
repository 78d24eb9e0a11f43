/-!
# Sets of code points

A set of code points is given by its boundaries, the increasing list of code points at which membership
changes. A code point belongs to the set when an odd number of boundaries lie at or below it.
-/

namespace Earley.Text

structure CodeSet where
  boundaries : Array Nat
  deriving DecidableEq

namespace CodeSet

def ofBoundaries (boundaries : Array Nat) : CodeSet := ⟨boundaries⟩

/-- How many boundaries from `lo` up to `hi` lie at or below `code`, by halving; `fuel` bounds the halvings. -/
def below (boundaries : Array Nat) (code : Nat) : (fuel lo hi : Nat) → Nat
  | 0, lo, _ => lo
  | fuel + 1, lo, hi =>
    if lo < hi then
      let mid := (lo + hi) / 2
      if boundaries.getD mid 0 ≤ code then below boundaries code fuel (mid + 1) hi
      else below boundaries code fuel lo mid
    else lo

def contains (s : CodeSet) (c : Char) : Bool :=
  below s.boundaries c.toNat s.boundaries.size 0 s.boundaries.size % 2 == 1

end CodeSet

end Earley.Text
