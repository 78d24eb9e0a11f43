import Earley.Grammar.History

/-!
# Refusals

Why symbols are refused, and what refused steps must not do. A production is refused for the first of its symbols that
carries an identifier without an entry.
-/

namespace Earley

def Grammar.refusal? (g : Grammar) : Symbol → Option GrammarError
  | .rule r => if (g.rule? r).isSome then none else some (.unknownRule r)
  | .group k => if (g.group? k).isSome then none else some (.unknownGroup k)
  | .usage (.set s) => if (g.set? s).isSome then none else some (.unknownSet s)
  | _ => none

def Build.Atomic {α : Type} (step : Build α) : Prop :=
  ∀ g e g', step.run g = .error e g' → g' = g

end Earley
