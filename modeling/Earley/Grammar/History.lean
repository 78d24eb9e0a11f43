import Earley.Grammar.Construction

/-!
# Construction histories

The steps an author can take, as data, and the grammars that any sequence of them leads to. A refused step is
part of a history too.
-/

namespace Earley

inductive Call where
  | terminal (text : String)
  | rule (name : String)
  | defineRule (name : String)
  | anonymousRule
  | addProduction (r : RuleId) (symbols : List Symbol)
  | setRulePenalty (r : RuleId) (penalty : Penalty)
  | setStart (r : RuleId)
  | group (symbols : List Symbol) (min max : UInt32)
  | set (symbols : List Symbol)
  | setUserData (key : UserKey) (data : Datum)
  | analyze

def Call.perform : Call → Build Unit
  | terminal text => discard (Build.terminal text)
  | rule name => discard (Build.rule name)
  | defineRule name => discard (Build.defineRule name)
  | anonymousRule => discard Build.anonymousRule
  | addProduction r symbols => Build.addProduction r symbols
  | setRulePenalty r penalty => Build.setRulePenalty r penalty
  | setStart r => Build.setStart r
  | group symbols min max => discard (Build.group symbols min max)
  | set symbols => discard (Build.set symbols)
  | setUserData key data => discard (Build.setUserData key data)
  | analyze => discard Build.analyze

/-- The grammar a step leaves behind, whether it succeeds or not. -/
def Call.after (c : Call) (g : Grammar) : Grammar :=
  match c.perform.run g with
  | .ok _ h => h
  | .error _ h => h

/-- A grammar that some history leads to. -/
inductive Reachable : Grammar → Prop where
  | empty (tolerant : Bool) : Reachable (.empty tolerant)
  | step {g : Grammar} (c : Call) (h : Reachable g) : Reachable (c.after g)

theorem reachable_foldl {g : Grammar} (reachable : Reachable g) (calls : List Call) :
    Reachable (calls.foldl (fun g c => c.after g) g) := by
  induction calls generalizing g with
  | nil => exact reachable
  | cons c calls ih => exact ih (reachable.step c)

end Earley
