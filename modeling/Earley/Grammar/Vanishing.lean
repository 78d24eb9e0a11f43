import Earley.Grammar.Basic

/-!
# Deriving nothing from any tables

What it means for symbols to derive nothing where tables may hold anything: identifiers of entries that do not exist,
rules and groups that mention each other, and groups whose greatest number of repetitions is below their least.
-/

namespace Earley

/-- A list of symbols derives nothing at a penalty, the sum of the penalties of the rules that are used. A rule without
productions takes no other; a group takes at least as many empty repetitions as it needs. Nothing follows from an
identifier that the tables do not have. -/
inductive Tables.Vanishes (t : Tables) : List Symbol → Penalty → Prop where
  | nil : Vanishes t [] 0
  | empty {ss : List Symbol} {p : Penalty} (rest : Vanishes t ss p) : Vanishes t (.empty :: ss) p
  | rule {r : RuleId} {d : RuleDef} {production : Production} {c : Penalty} {ss : List Symbol} {p : Penalty}
      (known : t.rules[r.index]? = some d) (chosen : production ∈ d.productions) (inner : Vanishes t production c)
      (rest : Vanishes t ss p) : Vanishes t (.rule r :: ss) (c + d.penalty + p)
  | bare {r : RuleId} {d : RuleDef} {ss : List Symbol} {p : Penalty} (known : t.rules[r.index]? = some d)
      (childless : d.productions = []) (rest : Vanishes t ss p) : Vanishes t (.rule r :: ss) (d.penalty + p)
  | group {k : GroupId} {d : GroupDef} {count : Nat} {c : Penalty} {ss : List Symbol} {p : Penalty}
      (known : t.groups[k.index]? = some d) (enough : d.min.toNat ≤ count)
      (inner : Vanishes t (List.replicate count d.production).flatten c) (rest : Vanishes t ss p) :
      Vanishes t (.group k :: ss) (c + p)

end Earley
