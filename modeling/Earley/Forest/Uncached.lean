import Earley.Parser

/-!
# Search without memory

The same search for trees with nothing remembered: a goal is worked on anew each time it comes up.
-/

namespace Earley

open Chart

namespace Forest

/-- The same answers, asked for as if nothing had been found before. -/
def Answers.forgetful (answers : Answers) : Answers where
  stems active _ ref := answers.stems active .blank ref
  trees active _ ref := answers.trees active .blank ref
  nulls active _ state target := answers.nulls active .blank state target

namespace Source

def uncached (b : Source) : (fuel : Nat) → Answers
  | 0 => ⟨fun _ memo _ => ⟨[], none, memo⟩, fun _ memo _ => ⟨[], none, memo⟩, fun _ memo _ _ => ⟨[], none, memo⟩⟩
  | fuel + 1 =>
    let inner := (b.uncached fuel).forgetful
    ⟨b.stemsWith inner, b.treesWith inner, b.nullsWith inner⟩

def uncachedTreesOf (b : Source) (refs : List ItemRef) : List Tree :=
  (refs.foldl (b.followCompletion (b.uncached b.goalBound).forgetful .none) ⟨[], none, .blank⟩).results

def uncachedEmptyTrees (b : Source) (r : RuleId) : List Tree :=
  ((b.uncached b.goalBound).forgetful.nulls .none .blank 0 (.rule r)).results

end Source

end Forest

/-- The trees of the input as a search finds them that remembers nothing. -/
def Parser.uncachedForest (p : Parser) : List Tree :=
  match p.grammar.start with
  | some start =>
    let source : Forest.Source := ⟨p.grammar, p.states, max p.config.maxTrees 1, p.config.maxPenalty⟩
    if !p.hasParse then []
    else if startsEmpty p.grammar p.states start then source.uncachedEmptyTrees start
    else source.uncachedTreesOf (acceptingRefs p.states start)
  | none => []

end Earley
