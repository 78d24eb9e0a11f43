import Earley.Chart.Item
import Earley.Grammar.Derivation
import Mathlib.Logic.Function.Iterate

/-!
# What items have passed

The symbols that an item has behind it, as its key tells, and what they can cost. This is about keys and derivations
alone: links and other items play no part.
-/

namespace Earley.Grammar

open Chart

/-- Symbols that an item of a key has behind it: those left of the dot or, for a group, as many copies of its production
as lead to the count. A group that has stopped counting does not tell how many these are. -/
inductive Passed (g : Grammar) (key : ItemKey) : List Symbol → Prop where
  | dotted (walks : ∀ k, key.owner ≠ .group k) : Passed g key ((g.symbolsOf key.owner).take key.dot)
  | repeated {k : GroupId} {d : GroupDef} {n : Nat} (group : key.owner = .group k) (known : g.group? k = some d)
      (room : d.isUnbounded = true ∨ n ≤ d.max.toNat) (counted : d.nextCount^[n] 0 = key.count) :
      Passed g key (List.replicate n d.production).flatten

/-- What it can cost to derive the tokens from the origin of a key up to state number `j` from what an item of the key
has behind it. -/
def passedCosts (g : Grammar) (input : List Token) (key : ItemKey) (j : Nat) : Set Penalty :=
  { c | ∃ ss, g.Passed key ss ∧ g.Derives ss ((input.take j).drop key.origin) c }

end Earley.Grammar
