import Earley.Total
import Earley.Tree.Basic

/-!
# Traversals with a stack

A tree may be as deep as its input is long. So its leaves are collected in a loop over a stack of nodes that are yet to
be visited. A node's children are pushed from the last to the first, so the first of them is visited next.
-/

namespace Earley.Tree

/-- A stack, topmost first, once some entries are pushed from the last to the first. -/
def pushAll (entries stack : List α) : List α := entries.reverse.foldl (fun stack entry => entry :: stack) stack

theorem pushAll_eq (entries stack : List α) : pushAll entries stack = entries ++ stack := by
  rw [pushAll, List.foldl_reverse, List.foldr_cons_eq_append]
  simp

theorem total_sizeOf_le (ts : List Tree) : total sizeOf ts ≤ sizeOf ts := by
  induction ts with
  | nil => exact Nat.zero_le _
  | cons t ts ih =>
    simp only [total_cons, List.cons.sizeOf_spec]
    omega

/-- A node outweighs its children. -/
theorem total_sizeOf_children_lt (t : Tree) : total sizeOf t.children < sizeOf t := by
  obtain ⟨kind, span, penalty, children⟩ := t
  have below := total_sizeOf_le children
  simp only [Tree.children, Tree.node.sizeOf_spec]
  omega

def leavesOnStack : List Tree → List Tree
  | [] => []
  | t :: stack =>
    if t.token?.isSome then t :: leavesOnStack (pushAll t.children stack)
    else leavesOnStack (pushAll t.children stack)
termination_by stack => total sizeOf stack
decreasing_by all_goals
  rw [pushAll_eq, total_append, total_cons]
  exact Nat.add_lt_add_right t.total_sizeOf_children_lt _

/-- The tokens of the nodes on a stack. Each node comes with a flag that says whether it stands under the skip rule. -/
def tokensOnStack : List (Tree × Bool) → List Leaf
  | [] => []
  | (t, skipped) :: stack =>
    match t.token? with
    | some token => ⟨token, t.span.start, skipped⟩ :: tokensOnStack stack
    | none =>
      let skipped := skipped || t.rule? == some Grammar.skipRule
      tokensOnStack (pushAll (t.children.map fun child => (child, skipped)) stack)
termination_by stack => total (fun entry => sizeOf entry.1) stack
decreasing_by
  · obtain ⟨kind, span, penalty, children⟩ := t
    simp only [total_cons, Tree.node.sizeOf_spec]
    omega
  · rw [pushAll_eq, total_append, total_map, total_cons]
    exact Nat.add_lt_add_right t.total_sizeOf_children_lt _

/-- Whether a node of the skip rule stands above the leaf of token number `i`. -/
def skipsToken (t : Tree) (i : Nat) : Bool :=
  t.nodes.any fun n => n.rule? == some Grammar.skipRule && n.leaves.any (·.span.start == i)

/-- Every traversal of the tree finds the tokens of the input in their order and as they are, each with its number. -/
structure Reproduces (t : Tree) (input : List Token) : Prop where
  tokens : t.tokens = input.zipIdx.map fun (x, i) => ⟨x, i, t.skipsToken i⟩
  leaves : t.leaves = input.zipIdx.map fun (x, i) => leaf x i
  matched : t.matchedTokens = (input.zipIdx.filter fun (_, i) => !t.skipsToken i).map (·.1)
  stackedTokens : tokensOnStack [(t, false)] = t.tokens
  stackedLeaves : leavesOnStack [t] = t.leaves

end Earley.Tree
