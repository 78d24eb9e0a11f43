import Earley.Forest.Checked
import Earley.Grammar.History
import Earley.Parser

/-!
# Parsers with every access checked

The calls of a parser as they are with each access to a table and each number checked. A call that goes wrong has no
result. The parsers that a sequence of calls leads to are those that the checks have to hold for; between two runs the
grammar may have grown.
-/

namespace Earley.Parser

open Chart

/-- A parser that some sequence of calls leads to. -/
inductive Arises : Parser → Prop where
  | new {g : Grammar} (built : Earley.Reachable g) (config : Config) : Arises (.new g config)
  | reset {p : Parser} (h : Arises p) {g : Grammar} (built : Earley.Reachable g) : Arises (p.reset g)
  | configure {p : Parser} (h : Arises p) (config : Config) : Arises { p with config := config }
  | run {p q : Parser} {tokens : List Token} {outcome : Recognition} (h : Arises p)
      (ran : (run tokens).run p = .ok outcome q) : Arises q

def word (n : Nat) : Bool := n < 4294967296

/-- A grammar whose rules have fewer productions, and whose productions fewer symbols, than there are words. -/
structure Small (g : Grammar) : Prop where
  productions : ∀ d ∈ g.rules, d.productions.length < 4294967296 ∧ ∀ p ∈ d.productions, p.length < 4294967296
  repetitions : ∀ d ∈ g.groups, d.production.length < 4294967296

/-- A chart with fewer states, and fewer items in a state, than there are words. -/
structure SmallChart (states : Array State) : Prop where
  count : states.size < 4294967296
  items : ∀ s ∈ states, s.items.size < 4294967296

namespace Checked

variable (fits : Nat → Bool)

def outcome (g : Grammar) (start : RuleId) (states : Array State) (failedAt : Option Nat) : Option Recognition := do
  let accepted ← match failedAt with
    | some _ => pure false
    | none => do
      let refs ← Chart.Checked.acceptingRefs fits states start
      if refs.isEmpty then Chart.Checked.startsEmpty g states start else pure true
  return ⟨accepted, states.size - 1, states.size, failedAt⟩

def run (p : Parser) (tokens : List Token) : Option (EStateM.Result ParseError Parser Recognition) :=
  if !p.states.isEmpty then some (.error .alreadyRun p)
  else
    match p.grammar.start with
    | none => some (.error .noStartRule p)
    | some start => do
      let (states, failedAt) ← Chart.Checked.build fits p.grammar start tokens
      let outcome ← outcome fits p.grammar start states failedAt
      return .ok outcome { p with states := states, outcome := some outcome }

def cheapestTrees (p : Parser) (limit : Nat) : Option (List Tree) :=
  if !p.hasParse then some []
  else
    match p.grammar.start with
    | none => some []
    | some start => do
      let source : Forest.Source := ⟨p.grammar, p.states, max limit 1, p.config.maxPenalty⟩
      if ← Chart.Checked.startsEmpty p.grammar p.states start then Forest.Checked.emptyTrees fits source start
      else do
        let refs ← Chart.Checked.acceptingRefs fits p.states start
        Forest.Checked.treesOf fits source refs

def bestTree (p : Parser) : Option (Option Tree) := (cheapestTrees fits p 1).map (·.head?)

def forest (p : Parser) : Option (List Tree) := cheapestTrees fits p p.config.maxTrees

def expected (p : Parser) (j : Nat) : Option (Except ParseError (List Usage)) :=
  match p.state j with
  | .error e => some (.error e)
  | .ok s => do
    let items ← s.scanners.toList.mapM (s.items[·]?)
    return .ok (sortByRank Usage.rank (items.filterMap expectedBy))

def symbolsOf (g : Grammar) : Owner → Option (List Symbol)
  | .rule r n => (g.rule? r).map fun d => d.productions.getD n []
  | .iteration k => (g.group? k).map (·.production)
  | .group _ => some []

def dumpState (p : Parser) (names : Grammar) (j : Nat) : Option (Except ParseError String) :=
  match p.state j with
  | .error e => some (.error e)
  | .ok s => do
    let _ ← s.items.toList.mapM fun item => symbolsOf p.grammar item.key.owner
    return .ok (s.dump names p.grammar j)

end Checked

end Earley.Parser
