import Earley.Grammar.Printer

/-!
# Spelling symbols out

Symbols written down one after another, a group with all that is inside it. Nothing here keeps a group from being inside
itself; there is no result if it is.
-/

namespace Earley.Grammar

mutual

def spellSymbol (g : Grammar) (out : String) (s : Symbol) : Option String :=
  match s with
  | .empty => some (out ++ "ε")
  | .rule r => some (out ++ g.ruleLabel r)
  | .usage u => some (out ++ g.usageLabel u)
  | .group k => match g.group? k with
    | none => some (out ++ k.label)
    | some d => do
      let out ← g |>.spellProduction (out ++ "(") d.production
      return out ++ ")" ++ d.suffix
partial_fixpoint

/-- Writes the symbols of a production at the end of a text, with a blank before each but the first. -/
def spellProduction (g : Grammar) (out : String) (p : Production) : Option String :=
  if p.isEmpty then some (out ++ "ε")
  else p.zipIdx.foldlM (fun out (s, i) => g |>.spellSymbol (if 0 < i then out ++ " " else out) s) out
partial_fixpoint

end

end Earley.Grammar
