import Earley.Grammar.Basic

/-!
# Showing grammars

Symbols by name, and grammars with one line per production. A group is spelled out where it is mentioned. Its
production can only mention groups that are older, so there are never more groups inside each other than the
grammar has.
-/

namespace Earley

def GroupDef.suffix (d : GroupDef) : String :=
  match d.min.toNat, d.max.toNat with
  | 0, 1 => "?"
  | 0, 0 => "*"
  | 1, 0 => "+"
  | min, 0 => "\x7b" ++ toString min ++ ",\x7d"
  | min, max => "\x7b" ++ toString min ++ "," ++ toString max ++ "\x7d"

namespace Grammar

def ruleLabel (g : Grammar) (r : RuleId) : String :=
  match g.ruleName? r with
  | some name => name
  | none => "#" ++ toString r.index

def terminalLabel (g : Grammar) (t : TerminalId) : String :=
  match g.terminalText? t with
  | some text => "'" ++ Text.escapeText text ++ "'"
  | none => t.label

def memberLabel (g : Grammar) : SetMember → String
  | .terminal t => g.terminalLabel t
  | .any => "<any>"
  | .charClass k => k.render

def usageLabel (g : Grammar) : Usage → String
  | .terminal t => g.terminalLabel t
  | .any => "<any>"
  | .charClass k => k.render
  | .set s => "[" ++ " ".intercalate (((g.set? s).getD []).map g.memberLabel) ++ "]"

def symbolWith (g : Grammar) (group : GroupId → String) : Symbol → String
  | .empty => "ε"
  | .rule r => g.ruleLabel r
  | .usage u => g.usageLabel u
  | .group k => group k

def productionWith (g : Grammar) (group : GroupId → String) (p : Production) : String :=
  if p.isEmpty then "ε" else " ".intercalate (p.map (g.symbolWith group))

/-- A group spelled out, with at most `depth` groups inside each other. -/
def groupText (g : Grammar) : (depth : Nat) → GroupId → String
  | 0, k => k.label
  | depth + 1, k => match g.group? k with
    | some d => "(" ++ g.productionWith (g.groupText depth) d.production ++ ")" ++ d.suffix
    | none => k.label

def symbolText (g : Grammar) (s : Symbol) : String := g.symbolWith (g.groupText g.groups.size) s

def productionText (g : Grammar) (p : Production) : String := g.productionWith (g.groupText g.groups.size) p

/-- The productions of a rule, one line each, with the bars under the last sign of the arrow. -/
def ruleLines (g : Grammar) (r : RuleId) (d : RuleDef) : String :=
  let name := g.ruleLabel r
  let penalty := if 0 < d.penalty then " [penalty " ++ toString d.penalty.value ++ "]" else ""
  let margin := "\n" ++ "".pushn ' ' name.length ++ "   | "
  let body := if d.productions.isEmpty then "<no productions>"
    else margin.intercalate (d.productions.map g.productionText)
  name ++ penalty ++ " ::= " ++ body ++ "\n"

/-- The grammar as text. Rules that no author wrote are listed on demand. -/
def dump (g : Grammar) (internal : Bool) : String :=
  let start := match g.start with
    | some r => "start: " ++ g.ruleLabel r ++ "\n"
    | none => ""
  let shown := g.rules.toList.zipIdx.filter fun (d, _) => internal || !d.internal
  start ++ String.join (shown.map fun (d, i) => g.ruleLines ⟨i⟩ d)

end Grammar

end Earley
