import Earley.Proofs.Construction
import Earley.Tree.Derivation

/-!
# Parts inside parts of the same extent

A part encloses another when it derives that other one and nothing around it. What stands around it has a penalty,
and so have the rules on the way. A part that encloses itself does so through a rule, since groups mention none but
older groups.
-/

namespace Earley

namespace Grammar

/-- One part derives another in a context that derives the empty list, at the penalty of the context. -/
inductive Encloses (g : Grammar) : Part → Part → Penalty → Prop where
  | rule {r : RuleId} {d : RuleDef} {before after : List Symbol} {s : Symbol} {p q : Penalty}
      (known : g.rule? r = some d) (chosen : before ++ s :: after ∈ d.productions) (left : g.Derives before [] p)
      (right : g.Derives after [] q) : Encloses g (.symbol (.rule r)) (.symbol s) (p + q + d.penalty)
  | group {k : GroupId} {d : GroupDef} {m n : Nat} {p q : Penalty} (known : g.group? k = some d)
      (admitted : d.Admits (m + 1 + n)) (left : g.Derives (List.replicate m d.production).flatten [] p)
      (right : g.Derives (List.replicate n d.production).flatten [] q) :
      Encloses g (.symbol (.group k)) (.iteration k) (p + q)
  | iteration {k : GroupId} {d : GroupDef} {before after : List Symbol} {s : Symbol} {p q : Penalty}
      (known : g.group? k = some d) (split : d.production = before ++ s :: after) (left : g.Derives before [] p)
      (right : g.Derives after [] q) : Encloses g (.iteration k) (.symbol s) (p + q)
  | trans {a b c : Part} {p q : Penalty} (outer : Encloses g a b p) (inner : Encloses g b c q) :
      Encloses g a c (p + q)

def Contains (g : Grammar) (a b : Part) (c : Penalty) : Prop := (a = b ∧ c = 0) ∨ g.Encloses a b c

variable {g : Grammar}

theorem Contains.refl (a : Part) : g.Contains a a 0 := .inl ⟨rfl, rfl⟩

theorem Encloses.contains {a b : Part} {p : Penalty} (h : g.Encloses a b p) : g.Contains a b p := .inr h

theorem Encloses.trans_contains {a b c : Part} {p q : Penalty} (outer : g.Encloses a b p)
    (inner : g.Contains b c q) : g.Encloses a c (p + q) := by
  rcases inner with ⟨rfl, rfl⟩ | inner
  · simpa using outer
  · exact .trans outer inner

theorem Contains.trans_encloses {a b c : Part} {p q : Penalty} (outer : g.Contains a b p)
    (inner : g.Encloses b c q) : g.Encloses a c (p + q) := by
  rcases outer with ⟨rfl, rfl⟩ | outer
  · simpa using inner
  · exact .trans outer inner

theorem Contains.trans {a b c : Part} {p q : Penalty} (outer : g.Contains a b p) (inner : g.Contains b c q) :
    g.Contains a c (p + q) := by
  rcases inner with ⟨rfl, rfl⟩ | inner
  · simpa using outer
  · exact (outer.trans_encloses inner).contains

end Grammar

/-- Groups by their age, each above its repetitions; what is not part of a group comes first. -/
def Part.nesting : Part → Nat
  | .symbol (.group k) => 2 * k.index + 2
  | .iteration k => 2 * k.index + 1
  | _ => 0

namespace Grammar

variable {g : Grammar}

/-- What encloses another part does so through a rule, or that part is nested less. -/
theorem Encloses.through_rule (inScope : g.Scoped) {a b : Part} {c : Penalty} (h : g.Encloses a b c) :
    (∃ r p q, g.Contains a (.symbol (.rule r)) p ∧ g.Contains (.symbol (.rule r)) b q ∧ c = p + q) ∨
      b.nesting < a.nesting := by
  induction h with
  | @rule r _ _ _ _ _ _ known chosen left right =>
    exact .inl ⟨r, 0, _, .refl _, (Encloses.rule known chosen left right).contains, by simp⟩
  | group => exact .inr (by simp [Part.nesting])
  | @iteration k d before after s p q known split left right =>
    have scope : s.InScope g.rules.size k.index g.sets.size := by
      apply inScope.group known
      simp [split]
    cases s with
    | rule r => exact .inl ⟨r, _, 0, (Encloses.iteration known split left right).contains, .refl _, by simp⟩
    | group k' =>
      have older : k'.index < k.index := scope
      right
      simp only [Part.nesting]
      omega
    | empty => exact .inr (by simp [Part.nesting])
    | usage u => exact .inr (by simp [Part.nesting])
  | @trans a b c p q outer inner ih ih' =>
    rcases ih with ⟨r, p₁, p₂, first, second, rfl⟩ | less
    · exact .inl ⟨r, p₁, p₂ + q, first, second.trans inner.contains, Penalty.add_assoc ..⟩
    · rcases ih' with ⟨r, q₁, q₂, first, second, rfl⟩ | less'
      · exact .inl ⟨r, p + q₁, q₂, outer.contains.trans first, second, (Penalty.add_assoc ..).symm⟩
      · exact .inr (Nat.lt_trans less' less)

/-- A part that encloses itself brings a rule that encloses itself at the same penalty. -/
theorem Encloses.rule_of_cycle (inScope : g.Scoped) {a : Part} {c : Penalty} (h : g.Encloses a a c) :
    ∃ r, g.Encloses (.symbol (.rule r)) (.symbol (.rule r)) c := by
  rcases h.through_rule inScope with ⟨r, p, q, first, second, rfl⟩ | less
  · rcases first with ⟨rfl, -⟩ | first
    · exact ⟨r, h⟩
    · rw [Penalty.add_comm]
      exact ⟨r, second.trans_encloses first⟩
  · exact absurd less (Nat.lt_irrefl _)

/-- Where parts can be put in levels so that only dear rules mention what is not lower, enclosing what is not lower is
as dear. -/
theorem Encloses.lower_or_dear {most : Penalty} {level : Part → Nat}
    (rules : ∀ {r d production s}, g.rule? r = some d → production ∈ d.productions → s ∈ production →
      level (.symbol s) < level (.symbol (.rule r)) ∨ most < d.penalty)
    (groups : ∀ {k d}, g.group? k = some d → level (.iteration k) < level (.symbol (.group k)) ∧
      ∀ s ∈ d.production, level (.symbol s) < level (.iteration k))
    {a b : Part} {c : Penalty} (h : g.Encloses a b c) : level b < level a ∨ most < c := by
  induction h with
  | @rule r d before after s p q known chosen =>
    rcases rules known chosen (s := s) (by simp) with lower | dear
    · exact .inl lower
    · right
      rw [Penalty.add_comm]
      exact Nat.lt_of_lt_of_le dear (Penalty.le_add_right _ _)
  | group known => exact .inl (groups known).1
  | @iteration k d before after s p q known split =>
    exact .inl ((groups known).2 s (by simp [split]))
  | @trans a b c p q _ _ outer inner =>
    rcases outer with lower | dear
    · rcases inner with lower' | dear
      · exact .inl (Nat.lt_trans lower' lower)
      · right
        rw [Penalty.add_comm]
        exact Nat.lt_of_lt_of_le dear (Penalty.le_add_right _ _)
    · exact .inr (Nat.lt_of_lt_of_le dear (Penalty.le_add_right _ _))

end Grammar

end Earley
