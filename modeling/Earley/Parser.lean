import Earley.Chart.Printer
import Earley.Config
import Earley.Forest.Builder

/-!
# Parsers

A parser works on the grammar as it was when the parser was made or last reset, so a grammar may grow between
parses. It reads one input, and then answers questions about the states and the trees of that input. What is
printed is in the names of the grammar at the time of printing, which every such function takes.
-/

namespace Earley

inductive ParseError where
  | noStartRule
  | alreadyRun
  | noSuchState (state count : Nat)
  deriving DecidableEq

def ParseError.message : ParseError → String
  | noStartRule => "grammar has no start rule"
  | alreadyRun => "parser already consumed its input; call `reset` first"
  | noSuchState state count =>
    "state " ++ toString state ++ " does not exist (parser has " ++ toString count ++ " states)"

structure Parser where
  /-- The grammar as the parser read it. -/
  grammar : Grammar
  config : Config
  states : Array Chart.State
  outcome : Option Recognition

namespace Parser

open Chart

def new (g : Grammar) (config : Config) : Parser := ⟨g, config, #[], none⟩

/-- Forgets the input and reads the grammar again. -/
def reset (p : Parser) (g : Grammar) : Parser := { p with grammar := g, states := #[], outcome := none }

/-- Reads tokens up to the end of the input, or to the first that no item accepts. A parser that has read
an input has to be reset first. -/
def run (tokens : List Token) : EStateM ParseError Parser Recognition := do
  let p ← get
  if !p.states.isEmpty then throw .alreadyRun
  match p.grammar.start with
  | none => throw .noStartRule
  | some start =>
    let (states, failedAt) := build p.grammar start tokens
    let outcome := Recognition.ofStates p.grammar start states failedAt
    set { p with states := states, outcome := some outcome }
    return outcome

def parseText (g : Grammar) (text : String) : EStateM ParseError Parser Recognition := do
  modify (·.reset g)
  run (Token.ofText text)

/-- Whether the whole input was read and derives from the start rule. -/
def hasParse (p : Parser) : Bool := p.outcome.any (·.accepted)

/-- The cheapest `limit` trees of the input; at least one is asked for. -/
def cheapestTrees (p : Parser) (limit : Nat) : List Tree :=
  match p.grammar.start with
  | some start =>
    let source : Forest.Source := ⟨p.grammar, p.states, max limit 1, p.config.maxPenalty⟩
    if !p.hasParse then []
    else if startsEmpty p.grammar p.states start then source.emptyTrees start
    else source.treesOf (acceptingRefs p.states start)
  | none => []

/-- The cheapest tree of the input, the one found first where several cost the same. -/
def bestTree (p : Parser) : Option Tree := (p.cheapestTrees 1).head?

/-- The trees of the input, cheapest first, as many and as dear as the settings allow. -/
def forest (p : Parser) : List Tree := p.cheapestTrees p.config.maxTrees

def state (p : Parser) (j : Nat) : Except ParseError State :=
  match p.states[j]? with
  | some s => .ok s
  | none => .error (.noSuchState j p.states.size)

def item? (p : Parser) (ref : ItemRef) : Option Item := p.states[ref.state]?.bind (·.items[ref.index]?)

/-- What an item waits to scan. Items of the skip rule are left out, since they take anything. -/
def expectedBy (item : Item) : Option Usage :=
  match item.key.owner, item.key.op with
  | .rule r _, .scan u => if r = Grammar.skipRule then none else some u
  | _, .scan u => some u
  | _, _ => none

/-- The usages that the items of a state wait for, in order and without repetition. -/
def expected (p : Parser) (j : Nat) : Except ParseError (List Usage) := do
  let s ← p.state j
  return sortByRank Usage.rank (s.scanners.toList.filterMap fun i => s.items[i]?.bind expectedBy)

def dumpState (p : Parser) (names : Grammar) (j : Nat) : Except ParseError String := do
  let s ← p.state j
  return s.dump names p.grammar j

def dumpStates (p : Parser) (names : Grammar) : List String :=
  p.states.toList.zipIdx.map fun (s, j) => s.dump names p.grammar j

end Parser

end Earley
