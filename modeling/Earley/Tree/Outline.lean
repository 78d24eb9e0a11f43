import Earley.Tree.Basic

/-!
# Outlines of trees

What a tree says about an input that is known: which rules, productions and groups meet where. Tokens and
penalties are left out, since the input and the grammar have them: an outline can be filled in again.
-/

namespace Earley

/-- What a node is, whichever token it may hold. -/
inductive NodeLabel where
  | token
  | rule (id : RuleId) (production : Option Nat)
  | group (id : GroupId)
  | iteration (id : GroupId)
  deriving DecidableEq

def NodeKind.label : NodeKind → NodeLabel
  | .token _ => .token
  | .rule r n => .rule r n
  | .group k => .group k
  | .iteration k => .iteration k

inductive Outline where
  | node (label : NodeLabel) (span : Span) (children : List Outline)

namespace Tree

mutual

/-- The tree without its tokens and penalties. -/
def outline : Tree → Outline
  | .node kind span _ cs => .node kind.label span (outlineAll cs)

def outlineAll : List Tree → List Outline
  | [] => []
  | t :: ts => outline t :: outlineAll ts

end

end Tree

namespace Outline

def fillLabel (input : List Token) (place : Nat) : NodeLabel → NodeKind
  | .token => .token (input.getD place (.unknown none))
  | .rule r n => .rule r n
  | .group k => .group k
  | .iteration k => .iteration k

def ownPenalty (g : Grammar) : NodeLabel → Penalty
  | .rule r _ => g.rulePenalty r
  | _ => 0

mutual

/-- The outline with the tokens of an input and the penalties of a grammar. -/
def fill (g : Grammar) (input : List Token) : Outline → Tree
  | .node label span cs =>
    let children := fillAll g input cs
    .node (fillLabel input span.start label) span
      (children.foldr (fun t total => t.penalty + total) 0 + ownPenalty g label) children

def fillAll (g : Grammar) (input : List Token) : List Outline → List Tree
  | [] => []
  | o :: os => fill g input o :: fillAll g input os

end

end Outline

end Earley
