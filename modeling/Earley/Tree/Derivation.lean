import Earley.Grammar.Derivation
import Earley.Tree.Basic

/-!
# Derivation trees

Which trees stand for derivations of an input. The trees of a list of parts cover the input from one position
to another without gaps, and the penalty of every node is that of its parts and its own.
-/

namespace Earley

inductive Part where
  | symbol (s : Symbol)
  /-- One repetition of a group's production. -/
  | iteration (k : GroupId)
  deriving DecidableEq

/-- The trees of a list of parts over the input from position `i` to position `j`, and their penalty. An
explicit nothing has no tree. -/
inductive Grammar.Parses (g : Grammar) (input : List Token) :
    List Part → (i j : Nat) → List Tree → Penalty → Prop where
  | nil {i : Nat} : Parses g input [] i i [] 0
  | empty {i j : Nat} {ps : List Part} {ts : List Tree} {p : Penalty} (rest : Parses g input ps i j ts p) :
      Parses g input (.symbol .empty :: ps) i j ts p
  | usage {i j : Nat} {u : Usage} {t : Token} {ps : List Part} {ts : List Tree} {p : Penalty}
      (found : input[i]? = some t) (accepted : g.accepts u t = true) (rest : Parses g input ps (i + 1) j ts p) :
      Parses g input (.symbol (.usage u) :: ps) i j (.leaf t i :: ts) p
  | rule {i m j n : Nat} {r : RuleId} {d : RuleDef} {production : Production} {cs : List Tree} {c : Penalty}
      {ps : List Part} {ts : List Tree} {p : Penalty} (known : g.rule? r = some d)
      (chosen : d.productions[n]? = some production)
      (inner : Parses g input (production.map .symbol) i m cs c) (rest : Parses g input ps m j ts p) :
      Parses g input (.symbol (.rule r) :: ps) i j
        (.node (.rule r (some n)) ⟨i, m⟩ (c + d.penalty) cs :: ts) (c + d.penalty + p)
  | bare {i j : Nat} {r : RuleId} {d : RuleDef} {ps : List Part} {ts : List Tree} {p : Penalty}
      (known : g.rule? r = some d) (childless : d.productions = []) (rest : Parses g input ps i j ts p) :
      Parses g input (.symbol (.rule r) :: ps) i j
        (.node (.rule r none) ⟨i, i⟩ d.penalty [] :: ts) (d.penalty + p)
  | group {i m j count : Nat} {k : GroupId} {d : GroupDef} {cs : List Tree} {c : Penalty}
      {ps : List Part} {ts : List Tree} {p : Penalty} (known : g.group? k = some d) (admitted : d.Admits count)
      (inner : Parses g input (List.replicate count (.iteration k)) i m cs c)
      (rest : Parses g input ps m j ts p) :
      Parses g input (.symbol (.group k) :: ps) i j (.node (.group k) ⟨i, m⟩ c cs :: ts) (c + p)
  | iteration {i m j : Nat} {k : GroupId} {d : GroupDef} {cs : List Tree} {c : Penalty}
      {ps : List Part} {ts : List Tree} {p : Penalty} (known : g.group? k = some d)
      (inner : Parses g input (d.production.map .symbol) i m cs c) (rest : Parses g input ps m j ts p) :
      Parses g input (.iteration k :: ps) i j (.node (.iteration k) ⟨i, m⟩ c cs :: ts) (c + p)

/-- A tree of the whole input from a rule. -/
def Grammar.IsTree (g : Grammar) (r : RuleId) (input : List Token) (t : Tree) : Prop :=
  g.Parses input [.symbol (.rule r)] 0 input.length [t] t.penalty

namespace Grammar.Parses

variable {g : Grammar} {input : List Token}

/-- The penalty of trees is the sum of their penalties. -/
theorem penalty_eq {ps : List Part} {i j : Nat} {ts : List Tree} {p : Penalty} (h : g.Parses input ps i j ts p) :
    p = ts.foldr (fun t total => t.penalty + total) 0 := by
  induction h with
  | nil => rfl
  | empty _ ih => exact ih
  | usage _ _ _ ih => simp [ih, Tree.leaf, Tree.penalty]
  | rule _ _ _ _ _ ih => simp [ih, Tree.penalty]
  | bare _ _ _ ih => simp [ih, Tree.penalty]
  | group _ _ _ _ _ ih => simp [ih, Tree.penalty]
  | iteration _ _ _ _ ih => simp [ih, Tree.penalty]

theorem start_le_finish {ps : List Part} {i j : Nat} {ts : List Tree} {p : Penalty}
    (h : g.Parses input ps i j ts p) : i ≤ j := by
  induction h with
  | nil => exact Nat.le_refl _
  | empty _ ih => exact ih
  | usage _ _ _ ih => omega
  | rule _ _ _ _ inner rest => exact Nat.le_trans inner rest
  | bare _ _ _ ih => exact ih
  | group _ _ _ _ inner rest => exact Nat.le_trans inner rest
  | iteration _ _ _ inner rest => exact Nat.le_trans inner rest

end Grammar.Parses

end Earley
