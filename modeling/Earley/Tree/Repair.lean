import Earley.Tree.Basic

/-!
# Repaired inputs

What a tree makes of its input: skipped tokens are left out, and a token is put in for each that was assumed.
-/

namespace Earley

def placedAt {α : Type} (i : Nat) (placed : List (Nat × α)) : List α :=
  placed.filterMap fun (n, a) => if n = i then some a else none

/-- What is inserted at the positions from `i` up to `i + length`, and what stands there, in order. -/
def weave {α : Type} (i length : Nat) (inserted standing : List (Nat × α)) : List α :=
  (List.range' i (length + 1)).flatMap fun n => placedAt n inserted ++ placedAt n standing

namespace Tree

/-- The usages that a tree meets or assumes, from left to right: those of its wrappers. -/
def usages (t : Tree) (g : Grammar) : List Usage := t.nodes.filterMap fun inner => inner.rule?.bind g.wrappedUsage?

/-- Something for each insertion of a tree, put where it belongs among something for each token that is not skipped. -/
def interleave {α : Type} (t : Tree) (g : Grammar) (inserted matched : List α) : List α :=
  weave 0 t.tokens.length (((t.insertions g).map (·.position)).zip inserted)
    (((t.tokens.filter (!·.skipped)).map (·.index)).zip matched)

/-- The input of a tree as it should have been, with the given tokens for those that it assumes. -/
def repaired (t : Tree) (g : Grammar) (inserted : List Token) : List Token :=
  t.interleave g inserted t.matchedTokens

end Tree

end Earley
