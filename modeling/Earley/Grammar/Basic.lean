import Earley.Grammar.Error
import Earley.Index
import Earley.Penalty
import Earley.Token

/-!
# Grammars

A grammar is a set of tables: rules with their productions, repetition groups, terminal sets and the texts
of registered terminals. Identifiers are positions in these tables. Beside the tables stand four indexes, by
which a name, a text, the content of a set and the usage a wrapper stands for lead back to an identifier.
-/

namespace Earley

abbrev Production := List Symbol

structure RuleDef where
  name : Option String := none
  productions : List Production := []
  /-- Whether the rule derives nothing, as the last analysis found. -/
  nullable : Bool := true
  /-- The cheapest way of deriving nothing, as the last analysis found. -/
  nullPenalty : Option Penalty := some 0
  /-- What every tree node of this rule costs. -/
  penalty : Penalty := 0
  defined : Bool := false
  /-- Made by the grammar itself and not by its author. -/
  internal : Bool := false
  /-- The usage a fault-tolerant wrapper stands for. -/
  tolerantFor : Option Usage := none
  deriving DecidableEq

/-- Between `min` and `max` repetitions of a production; a `max` of zero is no bound. -/
structure GroupDef where
  production : Production
  min : UInt32
  max : UInt32
  nullable : Bool
  nullPenalty : Option Penalty
  /-- Whether a single repetition derives nothing, as the last analysis found. -/
  productionNullable : Bool
  deriving DecidableEq

namespace GroupDef

def isUnbounded (d : GroupDef) : Bool := d.max == 0

def canRepeat (d : GroupDef) (count : Nat) : Bool := d.isUnbounded || count < d.max.toNat

def isSatisfied (d : GroupDef) (count : Nat) : Bool := d.min.toNat ≤ count

/-- The count after another repetition. Without an upper bound it stops where all further counts
behave alike. -/
def nextCount (d : GroupDef) (count : Nat) : Nat :=
  let next := Min.min (count + 1) 4294967295
  if d.isUnbounded then Min.min next (Max.max d.min.toNat 1) else next

end GroupDef

structure Tables where
  rules : Array RuleDef
  groups : Array GroupDef
  deriving DecidableEq

inductive UserKey where
  | rule (id : RuleId)
  | terminal (id : TerminalId)
  deriving DecidableEq

instance : Addressed UserKey where
  address
    | .rule r => 2 * r.index
    | .terminal t => 2 * t.code + 1

instance : Addressed String where
  address text := text.toList.foldl (fun sum c => (31 * sum + c.toNat) % 4294967296) 0

instance : Addressed Usage where
  address u := 4294967296 * u.rank.1 + u.rank.2

instance : Addressed (List SetMember) where
  address members := members.foldl (fun sum m => (31 * sum + Addressed.address m.toUsage) % 4294967296) 0

structure Grammar extends Tables where
  /-- Whether usages are replaced by wrappers that may skip or assume tokens. -/
  tolerant : Bool
  sets : Array (List SetMember)
  /-- Texts of registered terminals. -/
  texts : Array String
  /-- The rules that authors gave names. -/
  ruleNames : Index String RuleId
  /-- The terminals of registered texts. -/
  terminals : Index String TerminalId
  setIndex : Index (List SetMember) SetId
  /-- The wrappers that usages have been given. -/
  wrappers : Index Usage RuleId
  userData : Index UserKey Datum
  start : Option RuleId

namespace Grammar

/-- The rule that skips one or more tokens, at a cost of one each. -/
def skipRule : RuleId := ⟨0⟩

/-- The rule that stands for a missing token, at a cost of one. -/
def assumeRule : RuleId := ⟨1⟩

def rule? (g : Grammar) (r : RuleId) : Option RuleDef := g.rules[r.index]?

def group? (g : Grammar) (k : GroupId) : Option GroupDef := g.groups[k.index]?

def set? (g : Grammar) (s : SetId) : Option (List SetMember) := g.sets[s.index]?

def findRule (g : Grammar) (r : RuleId) : Except GrammarError RuleDef :=
  match g.rule? r with
  | some d => .ok d
  | none => .error (.unknownRule r)

def findGroup (g : Grammar) (k : GroupId) : Except GrammarError GroupDef :=
  match g.group? k with
  | some d => .ok d
  | none => .error (.unknownGroup k)

def findSet (g : Grammar) (s : SetId) : Except GrammarError (List SetMember) :=
  match g.set? s with
  | some members => .ok members
  | none => .error (.unknownSet s)

def productions (g : Grammar) (r : RuleId) : List Production :=
  match g.rule? r with
  | some d => d.productions
  | none => []

def rulePenalty (g : Grammar) (r : RuleId) : Penalty :=
  match g.rule? r with
  | some d => d.penalty
  | none => 0

def ruleNamed? (g : Grammar) (name : String) : Option RuleId := g.ruleNames.find? name

def ruleName? (g : Grammar) (r : RuleId) : Option String := (g.rule? r).bind (·.name)

def wrapper? (g : Grammar) (u : Usage) : Option RuleId := g.wrappers.find? u

def wrappedUsage? (g : Grammar) (r : RuleId) : Option Usage := (g.rule? r).bind (·.tolerantFor)

/-- The terminal of a text that is already one: a single character or a registered text. -/
def terminal? (g : Grammar) (text : String) : Option TerminalId :=
  match text.toList with
  | [] => none
  | [c] => some (.ofChar c)
  | _ => g.terminals.find? text

def registeredText? (g : Grammar) (t : TerminalId) : Option String :=
  if t.code < TerminalId.firstText then none else g.texts[t.code - TerminalId.firstText]?

def terminalText? (g : Grammar) (t : TerminalId) : Option String :=
  match t.char? with
  | some c => some c.toString
  | none => g.registeredText? t

def setWith? (g : Grammar) (content : List SetMember) : Option SetId := g.setIndex.find? content

def setAccepts (members : List SetMember) (t : Token) : Bool := members.any (·.accepts t)

/-- Whether a usage accepts a token. An unclassified token is never a terminal of its own. -/
def accepts (g : Grammar) (u : Usage) (t : Token) : Bool :=
  match u with
  | .terminal id => t.id != .unknown && t.id == id
  | .any => !t.isFinish
  | .charClass k => t.char?.any k.holds
  | .set s => match g.set? s with
    | some members => setAccepts members t
    | none => false

/-- The token a word stands for. A word that is no terminal of the grammar stays unclassified. -/
def tokenOfWord (g : Grammar) (word : String) : Token :=
  match g.terminal? word with
  | some id => .ofTerminal id
  | none => .unknown none

def userData? (g : Grammar) (key : UserKey) : Option Datum := g.userData.find? key

end Grammar

end Earley
