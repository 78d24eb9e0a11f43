import Earley.Symbol

/-!
# Construction errors

Why a construction step was refused.
-/

namespace Earley

inductive GrammarError where
  | duplicateRule (name : String)
  | invalidGroupBounds (min max : UInt32)
  | emptyTerminal
  | unknownRule (id : RuleId)
  | unknownGroup (id : GroupId)
  | unknownSet (id : SetId)
  | invalidSetMember (symbol : Symbol)
  | emptySet
  deriving DecidableEq

def GrammarError.message : GrammarError → String
  | duplicateRule name => "rule `" ++ name ++ "` is already defined"
  | invalidGroupBounds min max =>
    "invalid repetition bounds \x7b" ++ toString min.toNat ++ "," ++ toString max.toNat
      ++ "\x7d: max is smaller than min"
  | emptyTerminal => "terminal text must not be empty"
  | unknownRule id => "unknown rule " ++ id.label
  | unknownGroup id => "unknown group " ++ id.label
  | unknownSet id => "unknown set " ++ id.label
  | invalidSetMember symbol => symbol.label ++ " cannot be a member of a terminal set"
  | emptySet => "terminal sets must have at least one member"

end Earley
