import Earley.Grammar.Basic

/-!
# Rules in place of sets

A set stands for a choice of its members. A rule can stand for the same choice, with a production for each member, and
every production that mentions the set can mention the rule instead. A grammar in which this is done for all sets may
number its rules anew, so rules are renamed as well.
-/

namespace Earley

def Symbol.withoutSets (rename : RuleId → RuleId) (choice : SetId → RuleId) : Symbol → Symbol
  | .rule r => .rule (rename r)
  | .usage (.set s) => .rule (choice s)
  | s => s

namespace Grammar

/-- The second grammar is the first with every use of a set replaced by a rule that has a production for each member of
the set. -/
structure SetsReplaced (rename : RuleId → RuleId) (choice : SetId → RuleId) (g h : Grammar) : Prop where
  rule : ∀ {r d}, g.rule? r = some d → ∃ d', h.rule? (rename r) = some d' ∧
    d'.productions = d.productions.map (·.map (Symbol.withoutSets rename choice))
  set : ∀ {s members}, g.set? s = some members → ∃ d', h.rule? (choice s) = some d' ∧
    d'.productions = members.map fun m => [.usage m.toUsage]
  group : ∀ {k d}, g.group? k = some d → ∃ d', h.group? k = some d' ∧ d'.min = d.min ∧ d'.max = d.max ∧
    d'.production = d.production.map (Symbol.withoutSets rename choice)
  start : h.start = g.start.map rename

/-- Some set holds, as a terminal, the code of the tokens that are not classified. -/
def SetsNameUnknown (g : Grammar) : Prop :=
  ∃ s members, g.set? s = some members ∧ .terminal .unknown ∈ members

end Grammar

end Earley
