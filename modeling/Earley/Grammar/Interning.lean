import Earley.Grammar.History
import Mathlib.Data.List.Forall2

/-!
# Identifiers that last

Rules, terminals, sets and wrappers have identifiers, which steps hand out for names, texts, contents and usages. Here
is what an author may rely on, whatever steps lie between: an identifier goes on to mean what it was handed out for, it is
handed out again for the same and for nothing else, and what is new gets one that has not been in use.
-/

namespace Earley

inductive Grammar.Later (g : Grammar) : Grammar → Prop where
  | now : Later g g
  | step {g' : Grammar} (h : Later g g') (c : Call) : Later g (c.after g')

/-- What holds at a grammar of steps that hand out identifiers for keys. Here `step a x g g'` is a step that hands out
`x` for the key `a` and leads from `g` to `g'`. -/
structure Interns {κ ι : Type} (step : κ → ι → Grammar → Grammar → Prop) (alike : κ → κ → Prop)
    (keeps : Grammar → κ → ι → Prop) (holds : Grammar → ι → Prop) (g : Grammar) : Prop where
  lasting : ∀ {a x g₁ g₂}, step a x g g₁ → g₁.Later g₂ → keeps g₂ a x ∧ holds g₂ x
  /-- A later step hands out the same identifier for keys that are alike, and only for those. -/
  same_iff : ∀ {a b x y g₁ g₂ g₃}, step a x g g₁ → g₁.Later g₂ → step b y g₂ g₃ → (y = x ↔ alike b a)
  fresh : ∀ {a x g₁}, step a x g g₁ → keeps g a x ∨ ¬ holds g x

def Build.Names (name : String) (r : RuleId) (g g' : Grammar) : Prop :=
  (rule name).run g = .ok r g' ∨ (defineRule name).run g = .ok r g'

namespace Grammar

variable (g : Grammar)

def KeepsName (name : String) (r : RuleId) : Prop := g.ruleNamed? name = some r ∧ g.ruleName? r = some name

/-- The text and the terminal lead to each other. As long as there is room below the codes that are reserved, the
terminal is none of these. -/
def KeepsText (text : String) (t : TerminalId) : Prop :=
  g.terminal? text = some t ∧ g.terminalText? t = some text ∧
    (TerminalId.firstText + g.texts.size ≤ TerminalId.unknown.code → t.isReserved = false)

/-- The set has the given members, in order and without repetition. -/
def KeepsSet (ss : List Symbol) (s : SetId) : Prop :=
  ∃ members, g.findSet s = .ok members ∧
    (members.Pairwise fun m m' => rankLt m.toUsage.rank m'.toUsage.rank = true) ∧
    ∀ x, x ∈ ss ↔ ∃ m ∈ members, x = .usage m.toUsage

def written : Symbol → Symbol
  | .rule r => match g.wrappedUsage? r with
    | some u => .usage u
    | none => .rule r
  | s => s

/-- How a symbol is stored. In a fault-tolerant grammar a usage and its wrapper lead to each other. -/
def StoredAs (s s' : Symbol) : Prop :=
  match s with
  | .usage u => if g.tolerant then ∃ w, s' = .rule w ∧ g.wrapper? u = some w ∧ g.wrappedUsage? w = some u else s' = s
  | _ => s' = s

/-- A production as it is stored for what an author gave when the grammar was `old`. -/
structure Stores (old : Grammar) (ss : List Symbol) (p : Production) : Prop where
  symbols : List.Forall₂ g.StoredAs ss p
  /-- Unless the author named a wrapper, what was given can be read back. -/
  written : (∀ w, .rule w ∈ ss → old.wrappedUsage? w = none) → p.map g.written = ss
  /-- A wrapper that was not there has a new identifier. -/
  fresh : ∀ u w, .usage u ∈ ss → g.wrapper? u = some w → old.wrapper? u = some w ∨ old.rule? w = none

/-- The indexes and the tables agree: what is found by a key is the entry with the key, and the other way round. -/
structure Indexed : Prop where
  name : ∀ {name r}, g.ruleNamed? name = some r ↔
    ∃ d, g.rule? r = some d ∧ d.internal = false ∧ d.name = some name
  registered : ∀ {text t}, g.terminals.find? text = some t ↔ g.registeredText? t = some text
  /-- The same for all terminals, those of single characters included. -/
  text : ∀ {text t}, g.terminal? text = some t ↔ g.terminalText? t = some text
  set : ∀ {content s}, g.setWith? content = some s ↔ g.set? s = some content
  wrapper : ∀ {u w}, g.wrapper? u = some w ↔ g.wrappedUsage? w = some u

/-- What an author may rely on from a grammar on. -/
structure Interning : Prop where
  indexed : g.Indexed
  names : Interns Build.Names (· = ·) KeepsName (fun g r => (g.rule? r).isSome = true) g
  texts : Interns (fun text t g g' => (Build.terminal text).run g = .ok t g') (· = ·) KeepsText
    (fun g t => (g.terminalText? t).isSome = true) g
  /-- Members are alike in any order and number. -/
  sets : Interns (fun ss s g g' => (Build.set ss).run g = .ok s g') (fun ss ss' => ∀ x, x ∈ ss ↔ x ∈ ss') KeepsSet
    (fun g s => (g.set? s).isSome = true) g
  productions : ∀ {r ss g₁ g₂}, (Build.addProduction r ss).run g = .ok () g₁ → g₁.Later g₂ →
    ∃ d p, g₂.rule? r = some d ∧ d.productions[(g.productions r).length]? = some p ∧ g₂.Stores g ss p
  groups : ∀ {ss min max k g₁ g₂}, (Build.group ss min max).run g = .ok k g₁ → g₁.Later g₂ →
    g.group? k = none ∧ ∃ d, g₂.group? k = some d ∧ g₂.Stores g ss d.production
  /-- A rule without a name is new, and neither a name nor a usage will ever lead to it. -/
  anonymous : ∀ {r g₁ g₂}, Build.anonymousRule.run g = .ok r g₁ → g₁.Later g₂ →
    g.rule? r = none ∧ (g₂.rule? r).isSome = true ∧ (∀ name, g₂.ruleNamed? name ≠ some r) ∧
      ∀ u, g₂.wrapper? u ≠ some r

end Grammar

end Earley
