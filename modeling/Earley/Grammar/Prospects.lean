import Earley.Grammar.Derivation

/-!
# Prospects

Which usages some symbols can come to next once some tokens are read. What stands before the usage derives the tokens;
what stands after it may derive nothing at all. A concatenation comes to a usage in its first half, or it is past that
half and comes to the usage in the second.
-/

namespace Earley.Grammar

/-- After the tokens, the symbols can come to the usage next. A rule comes to it in one of its productions, and a group
in a repetition that may follow those before. -/
inductive Awaits (g : Grammar) : List Symbol → List Token → Usage → Prop where
  | here {u : Usage} {ss : List Symbol} : Awaits g (.usage u :: ss) [] u
  | past {s : Symbol} {ss : List Symbol} {ts ts' : List Token} {u : Usage} {cost : Penalty}
      (before : g.Derives [s] ts cost) (rest : Awaits g ss ts' u) : Awaits g (s :: ss) (ts ++ ts') u
  | rule {r : RuleId} {d : RuleDef} {production : Production} {ss : List Symbol} {ts : List Token} {u : Usage}
      (known : g.rule? r = some d) (chosen : production ∈ d.productions) (inner : Awaits g production ts u) :
      Awaits g (.rule r :: ss) ts u
  | group {k : GroupId} {d : GroupDef} {count : Nat} {ss : List Symbol} {ts ts' : List Token} {u : Usage}
      {cost : Penalty} (known : g.group? k = some d) (more : d.canRepeat count = true)
      (before : g.Derives (List.replicate count d.production).flatten ts cost) (inner : Awaits g d.production ts' u) :
      Awaits g (.group k :: ss) (ts ++ ts') u

/-- After the first tokens the symbols can take the next one. -/
def GoesOn (g : Grammar) (ss : List Symbol) (ts : List Token) (t : Token) : Prop :=
  ∃ u, g.Awaits ss ts u ∧ g.accepts u t = true

namespace Awaits

variable {g : Grammar} {ss ss' : List Symbol} {ts ts' : List Token} {u : Usage}

theorem not_nil (h : g.Awaits [] ts u) : False := by
  cases h

/-- What follows makes no difference. -/
theorem append (h : g.Awaits ss ts u) (ss' : List Symbol) : g.Awaits (ss ++ ss') ts u := by
  induction h with
  | here => exact .here
  | past before _ ih => exact .past before ih
  | rule known chosen inner => exact .rule known chosen inner
  | group known more before inner => exact .group known more before inner

/-- The usage is come to after what derives the first tokens. -/
theorem after {cost : Penalty} (before : g.Derives ss ts cost) (h : g.Awaits ss' ts' u) :
    g.Awaits (ss ++ ss') (ts ++ ts') u := by
  induction ss generalizing ts cost with
  | nil =>
    cases before
    exact h
  | cons s ss ih =>
    have split : g.Derives ([s] ++ ss) ts cost := before
    obtain ⟨us, vs, q, q', rfl, rfl, first, others⟩ := split.of_append
    rw [List.append_assoc]
    exact .past first (ih others)

theorem of_append (h : g.Awaits (ss ++ ss') ts u) :
    g.Awaits ss ts u ∨ ∃ us vs cost, ts = us ++ vs ∧ g.Derives ss us cost ∧ g.Awaits ss' vs u := by
  induction ss generalizing ts with
  | nil => exact .inr ⟨[], ts, 0, rfl, .nil, h⟩
  | cons s ss ih =>
    cases h with
    | here => exact .inl .here
    | @past _ _ us vs _ p before rest =>
      rcases ih rest with inside | ⟨vs, ws, q, rfl, others, later⟩
      · exact .inl (.past before inside)
      · exact .inr ⟨us ++ vs, ws, p + q, (List.append_assoc ..).symm, before.append others, later⟩
    | rule known chosen inner => exact .inl (.rule known chosen inner)
    | group known more before inner => exact .inl (.group known more before inner)

/-- Among copies of a production, the usage is come to in one of them. -/
theorem of_copies {production : Production} {count : Nat}
    (h : g.Awaits (List.replicate count production).flatten ts u) :
    ∃ n < count, ∃ us vs cost, ts = us ++ vs ∧ g.Derives (List.replicate n production).flatten us cost ∧
      g.Awaits production vs u := by
  induction count generalizing ts with
  | zero => exact h.not_nil.elim
  | succ count ih =>
    rw [List.replicate_succ, List.flatten_cons] at h
    rcases h.of_append with first | ⟨us, vs, p, rfl, before, later⟩
    · exact ⟨0, Nat.succ_pos _, [], ts, 0, rfl, .nil, first⟩
    · obtain ⟨n, less, vs, ws, q, rfl, others, inside⟩ := ih later
      refine ⟨n + 1, Nat.succ_lt_succ less, us ++ vs, ws, p + q, (List.append_assoc ..).symm, ?_, inside⟩
      rw [List.replicate_succ, List.flatten_cons]
      exact before.append others

/-- A rule comes to the usage in one of its productions. -/
theorem of_rule {r : RuleId} (h : g.Awaits [.rule r] ts u) :
    ∃ production ∈ g.productions r, g.Awaits production ts u := by
  cases h with
  | past _ rest => exact rest.not_nil.elim
  | rule known chosen inner => exact ⟨_, by simpa [productions, known] using chosen, inner⟩

end Awaits

end Earley.Grammar
