import Earley.Grammar.History

/-!
# Strict and fault-tolerant twins

The same calls build a strict grammar and a fault-tolerant one. In the tolerant grammar wrappers take identifiers of
their own, so a rule that an author made has a lower number in the strict one. Counterparts are made by the same calls
under this renaming, as long as no call names a rule that the grammar made itself; twins, if no call sets a penalty.
-/

namespace Earley

/-- The position among the unmarked entries of what stands at a position among all. -/
def unmarkedIndex (marks : List (Option Usage)) (i : Nat) : Nat := i - (marks.take i).countP (·.isSome)

def Symbol.rules : Symbol → List RuleId
  | .rule r => [r]
  | _ => []

def Symbol.mapRule (f : RuleId → RuleId) : Symbol → Symbol
  | .rule r => .rule (f r)
  | s => s

namespace Grammar

/-- For every rule the usage it wraps, if it is a wrapper. -/
def marks (g : Grammar) : List (Option Usage) := g.rules.toList.map (·.tolerantFor)

/-- The identifier that a rule has where no wrappers are made. -/
def strictId (g : Grammar) (r : RuleId) : RuleId := ⟨unmarkedIndex g.marks r.index⟩

def unwrap (g : Grammar) : Symbol → Symbol
  | .rule r => match g.wrappedUsage? r with
    | some u => .usage u
    | none => .rule (g.strictId r)
  | s => s

/-- Made by the grammar itself: a rule that repairs are made of, or a wrapper. -/
def Synthesized (g : Grammar) (r : RuleId) : Prop :=
  r = skipRule ∨ r = assumeRule ∨ (g.wrappedUsage? r).isSome = true

end Grammar

namespace Call

def rules : Call → List RuleId
  | addProduction r symbols => r :: symbols.flatMap Symbol.rules
  | setRulePenalty r _ => [r]
  | setStart r => [r]
  | group symbols _ _ => symbols.flatMap Symbol.rules
  | set symbols => symbols.flatMap Symbol.rules
  | setUserData (.rule r) _ => [r]
  | _ => []

def mapRules (f : RuleId → RuleId) : Call → Call
  | addProduction r symbols => addProduction (f r) (symbols.map (·.mapRule f))
  | setRulePenalty r penalty => setRulePenalty (f r) penalty
  | setStart r => setStart (f r)
  | group symbols min max => group (symbols.map (·.mapRule f)) min max
  | set symbols => set (symbols.map (·.mapRule f))
  | setUserData (.rule r) data => setUserData (.rule (f r)) data
  | c => c

end Call

/-- A strict and a fault-tolerant grammar that the same calls lead to. -/
inductive Twins : Grammar → Grammar → Prop where
  | empty : Twins (.empty false) (.empty true)
  | step {s t : Grammar} (h : Twins s t) (c : Call) (own : ∀ r ∈ c.rules, ¬ t.Synthesized r)
      (free : ∀ r penalty, c ≠ .setRulePenalty r penalty) : Twins ((c.mapRules t.strictId).after s) (c.after t)

theorem Twins.reachable {s t : Grammar} (h : Twins s t) : Reachable s ∧ Reachable t := by
  induction h with
  | empty => exact ⟨.empty false, .empty true⟩
  | step _ c _ _ ih => exact ⟨.step _ ih.1, .step c ih.2⟩

/-- A strict and a fault-tolerant grammar that the same calls lead to, whatever penalties they set. -/
inductive Counterparts : Grammar → Grammar → Prop where
  | empty : Counterparts (.empty false) (.empty true)
  | step {s t : Grammar} (h : Counterparts s t) (c : Call) (own : ∀ r ∈ c.rules, ¬ t.Synthesized r) :
      Counterparts ((c.mapRules t.strictId).after s) (c.after t)

theorem Counterparts.reachable {s t : Grammar} (h : Counterparts s t) : Reachable s ∧ Reachable t := by
  induction h with
  | empty => exact ⟨.empty false, .empty true⟩
  | step _ c _ ih => exact ⟨.step _ ih.1, .step c ih.2⟩

theorem Twins.counterparts {s t : Grammar} (h : Twins s t) : Counterparts s t := by
  induction h with
  | empty => exact .empty
  | step _ c own _ ih => exact ih.step c own

end Earley
