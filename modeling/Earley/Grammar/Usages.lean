import Earley.Grammar.Derivation

/-!
# Usage strings and matchings

What symbols spell before any token is read: strings of usages. A matching pairs some tokens of an input with usages
of such a string, in order; what it leaves out on either side has to be skipped or assumed.
-/

namespace Earley

/-- A list of symbols spells a list of usages. A rule spells what one of its productions spells, and nothing if it
has none; a group spells what an admitted number of copies of its production spells. -/
inductive Grammar.Spells (g : Grammar) : List Symbol → List Usage → Prop where
  | nil : Spells g [] []
  | empty {ss : List Symbol} {us : List Usage} (rest : Spells g ss us) : Spells g (.empty :: ss) us
  | usage {u : Usage} {ss : List Symbol} {us : List Usage} (rest : Spells g ss us) :
      Spells g (.usage u :: ss) (u :: us)
  | rule {r : RuleId} {d : RuleDef} {production : Production} {vs : List Usage} {ss : List Symbol} {us : List Usage}
      (known : g.rule? r = some d) (chosen : production ∈ d.productions) (inner : Spells g production vs)
      (rest : Spells g ss us) : Spells g (.rule r :: ss) (vs ++ us)
  | bare {r : RuleId} {d : RuleDef} {ss : List Symbol} {us : List Usage} (known : g.rule? r = some d)
      (childless : d.productions = []) (rest : Spells g ss us) : Spells g (.rule r :: ss) us
  | group {k : GroupId} {d : GroupDef} {count : Nat} {vs : List Usage} {ss : List Symbol} {us : List Usage}
      (known : g.group? k = some d) (admitted : d.Admits count)
      (inner : Spells g (List.replicate count d.production).flatten vs) (rest : Spells g ss us) :
      Spells g (.group k :: ss) (vs ++ us)

/-- Positions of tokens and usages that are paired: in order, each usage accepts its token, and the last token is
paired. -/
structure Grammar.Matching (g : Grammar) (ts : List Token) (us : List Usage) (pairs : List (Nat × Nat)) : Prop where
  increasing : pairs.Pairwise fun x y => x.1 < y.1 ∧ x.2 < y.2
  accepted : ∀ x ∈ pairs, ∃ t u, ts[x.1]? = some t ∧ us[x.2]? = some u ∧ g.accepts u t = true
  last : ts ≠ [] → ∃ x ∈ pairs, x.1 + 1 = ts.length

def unmatched (ts : List Token) (us : List Usage) (pairs : List (Nat × Nat)) : Nat :=
  (ts.length - pairs.length) + (us.length - pairs.length)

end Earley
