import Earley.Grammar.Nullability

/-!
# Building grammars

Construction steps read and change a grammar and may be refused. In a fault-tolerant grammar every usage
an author writes is replaced by a wrapper rule with three alternatives: the usage itself, the usage after
some skipped tokens, and an assumed token. All productions that mention a usage share its wrapper.
-/

namespace Earley

/-- A construction step. A refused step still hands on the grammar it has reached. -/
abbrev Build := EStateM GrammarError Grammar

namespace Grammar

def reanalyze (g : Grammar) : Grammar := { g with toTables := g.toTables.analyze }

def repairsOnly (tolerant : Bool) : Grammar where
  rules := #[
    { name := some "%penalty"
      productions := [[.usage .any], [.rule skipRule, .usage .any]]
      penalty := 1
      defined := true
      internal := true },
    { name := some "%penalty-empty"
      productions := [[.empty]]
      penalty := 1
      defined := true
      internal := true }]
  groups := #[]
  tolerant := tolerant
  sets := #[]
  texts := #[]
  ruleNames := .empty
  terminals := .empty
  setIndex := .empty
  wrappers := .empty
  userData := .empty
  start := none

def empty (tolerant : Bool) : Grammar := (repairsOnly tolerant).reanalyze

def mapRule (g : Grammar) (r : RuleId) (f : RuleDef → RuleDef) : Grammar :=
  { g with rules := g.rules.modify r.index f }

/-- The name a wrapper bears in dumps; the text of a terminal stands in it as it is. -/
def wrapperName (g : Grammar) : Usage → String
  | .terminal id => match g.terminalText? id with
    | some text => "%'" ++ text ++ "'"
    | none => "%" ++ id.label
  | .any => "%any"
  | .charClass k => "%" ++ k.render
  | .set s => "%set" ++ toString s.index

def wrapperDef (g : Grammar) (u : Usage) : RuleDef where
  name := some (g.wrapperName u)
  productions := [[.usage u], [.rule skipRule, .usage u], [.rule assumeRule]]
  defined := true
  internal := true
  tolerantFor := some u

end Grammar

namespace Build

open Grammar

def pushRule (d : RuleDef) : Build RuleId :=
  modifyGet fun g => (⟨g.rules.size⟩, { g with rules := g.rules.push d })

/-- The terminal of a text, registered at its first use unless the text is a single character. -/
def terminal (text : String) : Build TerminalId := do
  if text.isEmpty then throw .emptyTerminal
  match (← get).terminal? text with
  | some id => return id
  | none =>
    modifyGet fun g =>
      let id := TerminalId.ofText g.texts.size
      (id, { g with texts := g.texts.push text, terminals := g.terminals.insert text id })

/-- The rule of a name, created at its first mention, which may come before its definition. -/
def rule (name : String) : Build RuleId := do
  match (← get).ruleNamed? name with
  | some r => return r
  | none =>
    let r ← pushRule { name := some name }
    modify fun g => { g with ruleNames := g.ruleNames.insert name r }
    return r

/-- Takes a name for definition, which can be done once. -/
def defineRule (name : String) : Build RuleId := do
  let r ← rule name
  if ((← get).rule? r).any (·.defined) then throw (.duplicateRule name)
  modify (·.mapRule r fun d => { d with defined := true })
  return r

def anonymousRule : Build RuleId := pushRule { defined := true }

def checkRule (r : RuleId) : Build Unit := do
  if (← get).rules.size ≤ r.index then throw (.unknownRule r)

def checkSymbol : Symbol → Build Unit
  | .rule r => checkRule r
  | .group k => do if (← get).groups.size ≤ k.index then throw (.unknownGroup k)
  | .usage (.set s) => do if (← get).sets.size ≤ s.index then throw (.unknownSet s)
  | _ => pure ()

def wrapper (u : Usage) : Build RuleId := do
  let g ← get
  match g.wrapper? u with
  | some r => return r
  | none =>
    let r ← pushRule (g.wrapperDef u)
    modify fun g => { g with wrappers := g.wrappers.insert u r }
    return r

def store (s : Symbol) : Build Symbol := do
  match s with
  | .usage u => if (← get).tolerant then return .rule (← wrapper u) else return s
  | _ => return s

/-- A production as the tables store it. All its symbols are checked before the first wrapper is made. -/
def production (symbols : List Symbol) : Build Production := do
  symbols.forM checkSymbol
  symbols.mapM store

def addProduction (r : RuleId) (symbols : List Symbol) : Build Unit := do
  checkRule r
  let p ← production symbols
  modify fun g => (g.mapRule r fun d => { d with productions := d.productions ++ [p] }).reanalyze

def setRulePenalty (r : RuleId) (penalty : Penalty) : Build Unit := do
  checkRule r
  modify fun g => (g.mapRule r fun d => { d with penalty := penalty }).reanalyze

def setStart (r : RuleId) : Build Unit := do
  checkRule r
  modify fun g => { g with start := some r }

def group (symbols : List Symbol) (min max : UInt32) : Build GroupId := do
  if max ≠ 0 ∧ max < min then throw (.invalidGroupBounds min max)
  let p ← production symbols
  modifyGet fun g =>
    let d : GroupDef :=
      { production := p
        min := min
        max := max
        nullable := min == 0
        nullPenalty := if min = 0 then some 0 else none
        productionNullable := false }
    (⟨g.groups.size⟩, Grammar.reanalyze { g with groups := g.groups.push d })

def optional (symbols : List Symbol) : Build GroupId := group symbols 0 1

def star (symbols : List Symbol) : Build GroupId := group symbols 0 0

def plus (symbols : List Symbol) : Build GroupId := group symbols 1 0

def setMember (s : Symbol) : Build SetMember :=
  match SetMember.ofSymbol? s with
  | some m => pure m
  | none => throw (.invalidSetMember s)

/-- The set of some members. Equal sets share an identifier, whatever the order and number of times
their members are given in. -/
def set (symbols : List Symbol) : Build SetId := do
  let members ← symbols.mapM setMember
  if members.isEmpty then throw .emptySet
  let content := sortByRank (·.toUsage.rank) members
  match (← get).setWith? content with
  | some s => return s
  | none =>
    modifyGet fun g =>
      let s : SetId := ⟨g.sets.size⟩
      (s, { g with sets := g.sets.push content, setIndex := g.setIndex.insert content s })

def classSet (classes : List CharClass) : Build SetId := set (classes.map fun k => .usage (.charClass k))

/-- Attaches data, handing back what was attached before. -/
def setUserData (key : UserKey) (data : Datum) : Build (Option Datum) :=
  modifyGet fun g => (g.userData? key, { g with userData := g.userData.insert key data })

/-- Analyzes the grammar anew and counts the flags that change. -/
def analyze : Build Nat :=
  modifyGet fun g =>
    let after := g.reanalyze
    (g.toTables.changedFlags after.toTables, after)

end Build

end Earley
