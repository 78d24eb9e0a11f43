import Earley.Grammar.History

/-!
# Grammars at other prices

Two grammars that are made by the same calls, except that a call which sets a penalty may set another. Without its
numbers a grammar still says which rules and groups derive nothing.
-/

namespace Earley

def Call.unpriced : Call → Call
  | setRulePenalty r _ => setRulePenalty r 0
  | c => c

/-- Two grammars whose histories differ in nothing but the penalties that were set. -/
inductive Repriced : Grammar → Grammar → Prop where
  | empty (tolerant : Bool) : Repriced (.empty tolerant) (.empty tolerant)
  | step {g g' : Grammar} (h : Repriced g g') {c c' : Call} (same : c.unpriced = c'.unpriced) :
      Repriced (c.after g) (c'.after g')

theorem Repriced.reachable {g g' : Grammar} (h : Repriced g g') : Reachable g ∧ Reachable g' := by
  induction h with
  | empty tolerant => exact ⟨.empty tolerant, .empty tolerant⟩
  | @step _ _ _ c c' _ ih => exact ⟨.step c ih.1, .step c' ih.2⟩

def unpricedCost (cost : Option Penalty) : Option Penalty := cost.map fun _ => 0

def RuleDef.unpriced (d : RuleDef) : RuleDef := { d with penalty := 0, nullPenalty := unpricedCost d.nullPenalty }

def GroupDef.unpriced (d : GroupDef) : GroupDef := { d with nullPenalty := unpricedCost d.nullPenalty }

def Grammar.unpriced (g : Grammar) : Grammar :=
  { g with rules := g.rules.map RuleDef.unpriced, groups := g.groups.map GroupDef.unpriced }

end Earley
