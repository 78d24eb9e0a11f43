import Earley.Grammar.Twins
import Earley.Tree.Basic

/-!
# Trees without wrappers

A tree of a fault-tolerant grammar as one of the strict grammar that the same calls lead to. A wrapper that holds
nothing but the token it met gives way to the token, and rules take the identifiers that they have where no wrappers
are made.
-/

namespace Earley

def NodeKind.mapRule (f : RuleId → RuleId) : NodeKind → NodeKind
  | .rule r n => .rule (f r) n
  | kind => kind

namespace Tree

def wrapped? (g : Grammar) (t : Tree) : Option Usage := t.rule?.bind g.wrappedUsage?

/-- The root over children that have lost their wrappers already. -/
def collapseRoot (g : Grammar) (t : Tree) (children : List Tree) : Tree :=
  match t.wrapped? g, children with
  | some _, [met] => met
  | _, _ => .node (t.kind.mapRule g.strictId) t.span t.penalty children

mutual

def collapse (g : Grammar) : Tree → Tree
  | .node kind span p cs => collapseRoot g (.node kind span p cs) (collapseAll g cs)

def collapseAll (g : Grammar) : List Tree → List Tree
  | [] => []
  | t :: ts => collapse g t :: collapseAll g ts

end

end Tree

end Earley
