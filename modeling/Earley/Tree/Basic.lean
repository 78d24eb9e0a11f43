import Earley.Grammar.Basic

/-!
# Parse trees

A node is a token, a rule with one of its productions, a group, or one repetition of a group. Repairs stay
visible: skipped tokens stand under the skip rule, and an assumed token is a wrapper over the rule that
assumes it.
-/

namespace Earley

/-- The tokens from `start` up to, but not including, `finish`. -/
structure Span where
  start : Nat
  finish : Nat
  deriving DecidableEq

namespace Span

def length (s : Span) : Nat := s.finish - s.start

def isEmpty (s : Span) : Bool := s.start == s.finish

def render (s : Span) : String := toString s.start ++ ".." ++ toString s.finish

end Span

inductive NodeKind where
  | token (t : Token)
  /-- A rule with the position of its production; a rule that has none matches nothing. -/
  | rule (id : RuleId) (production : Option Nat)
  | group (id : GroupId)
  | iteration (id : GroupId)
  deriving DecidableEq

inductive Tree where
  | node (kind : NodeKind) (span : Span) (penalty : Penalty) (children : List Tree)

mutual

def Tree.decideEq : (a b : Tree) → Decidable (a = b)
  | .node k s p cs, .node k' s' p' cs' =>
    if h : k = k' ∧ s = s' ∧ p = p' then
      match Tree.decideEqAll cs cs' with
      | .isTrue same => .isTrue (by simp [h, same])
      | .isFalse differ => .isFalse (by simp [differ])
    else .isFalse (by rintro ⟨⟩; exact h ⟨rfl, rfl, rfl⟩)

def Tree.decideEqAll : (as bs : List Tree) → Decidable (as = bs)
  | [], [] => .isTrue rfl
  | [], _ :: _ => .isFalse (by simp)
  | _ :: _, [] => .isFalse (by simp)
  | a :: as, b :: bs =>
    match Tree.decideEq a b, Tree.decideEqAll as bs with
    | .isTrue first, .isTrue others => .isTrue (by rw [first, others])
    | .isFalse differ, _ => .isFalse (by simp [differ])
    | _, .isFalse differ => .isFalse (by simp [differ])

end

instance : DecidableEq Tree := Tree.decideEq

structure Leaf where
  token : Token
  index : Nat
  skipped : Bool
  deriving DecidableEq

/-- A usage that was assumed to be met before token number `position`. -/
structure Insertion where
  position : Nat
  usage : Usage
  deriving DecidableEq

namespace Tree

def kind : Tree → NodeKind
  | node k _ _ _ => k

def span : Tree → Span
  | node _ s _ _ => s

def penalty : Tree → Penalty
  | node _ _ p _ => p

def children : Tree → List Tree
  | node _ _ _ cs => cs

def leaf (t : Token) (index : Nat) : Tree := node (.token t) ⟨index, index + 1⟩ 0 []

def token? (t : Tree) : Option Token :=
  match t.kind with
  | .token tok => some tok
  | _ => none

def rule? (t : Tree) : Option RuleId :=
  match t.kind with
  | .rule r _ => some r
  | _ => none

def userKey? (t : Tree) : Option UserKey :=
  match t.kind with
  | .token tok => some (.terminal tok.id)
  | .rule r _ => some (.rule r)
  | _ => none

mutual

/-- The nodes of a tree from the root down and from left to right, put before `rest`. Each node comes with
a value that it inherits from the nodes above it: `pass` gives the value for the children of a node. -/
def walkOnto (pass : α → Tree → α) (value : α) : Tree → List (α × Tree) → List (α × Tree)
  | .node k s p cs, rest =>
    (value, .node k s p cs) :: walkAllOnto pass (pass value (.node k s p cs)) cs rest

def walkAllOnto (pass : α → Tree → α) (value : α) : List Tree → List (α × Tree) → List (α × Tree)
  | [], rest => rest
  | t :: ts, rest => walkOnto pass value t (walkAllOnto pass value ts rest)

end

def walk (pass : α → Tree → α) (value : α) (t : Tree) : List (α × Tree) := walkOnto pass value t []

def nodes (t : Tree) : List Tree := (t.walk (fun _ _ => ()) ()).map (·.2)

def leaves (t : Tree) : List Tree := t.nodes.filter (·.token?.isSome)

/-- The tokens of a tree in order. A token is skipped when it stands under the skip rule. -/
def tokens (t : Tree) : List Leaf :=
  (t.walk (fun skipped inner => skipped || inner.rule? == some Grammar.skipRule) false).filterMap
    fun (skipped, inner) => inner.token?.map fun tok => ⟨tok, inner.span.start, skipped⟩

def matchedTokens (t : Tree) : List Token := (t.tokens.filter (!·.skipped)).map (·.token)

/-- The usages that were assumed to be met though the input lacks them. -/
def insertions (t : Tree) (g : Grammar) : List Insertion :=
  t.nodes.filterMap fun inner =>
    if inner.children.any (·.rule? == some Grammar.assumeRule) then
      (inner.rule?.bind g.wrappedUsage?).map fun u => ⟨inner.span.start, u⟩
    else none

end Tree

end Earley
