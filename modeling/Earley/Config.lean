import Earley.Penalty
import Earley.Text.Numeral

/-!
# Parser settings

How dear a tree may be and how many trees are asked for.
-/

namespace Earley

structure Config where
  /-- Trees above this penalty are dropped. -/
  maxPenalty : Penalty := 8
  /-- How many trees a forest holds at most; the cheapest are kept. -/
  maxTrees : Nat := 256
  deriving DecidableEq

namespace Config

def exact : Config := { maxPenalty := 0 }

def withMaxPenalty (c : Config) (penalty : Penalty) : Config := { c with maxPenalty := penalty }

def withMaxTrees (c : Config) (count : Nat) : Config := { c with maxTrees := max count 1 }

/-- The default settings, overridden by those of the given texts that spell a number: a penalty of at
most 32 bits and a tree count of at most 64 bits. -/
def ofTexts (maxPenalty maxTrees : Option String) : Config :=
  let c : Config := match maxPenalty.bind (Text.readNumeral 4294967295) with
    | some n => Config.withMaxPenalty {} (.ofNat n)
    | none => {}
  match maxTrees.bind (Text.readNumeral 18446744073709551615) with
  | some n => c.withMaxTrees n
  | none => c

end Config

end Earley
