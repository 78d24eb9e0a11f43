import Earley.Grammar.Basic

/-!
# Derivations

What a list of symbols derives, and at which penalty. This says what the rules, groups and sets of a grammar
mean, without states or items. Derivations of two lists join to one of their concatenation, and every
derivation of a concatenation comes from two.
-/

namespace Earley

def GroupDef.Admits (d : GroupDef) (count : Nat) : Prop :=
  d.min.toNat ≤ count ∧ (d.isUnbounded = true ∨ count ≤ d.max.toNat)

instance (d : GroupDef) (count : Nat) : Decidable (d.Admits count) :=
  inferInstanceAs (Decidable (_ ∧ _))

/-- A list of symbols derives a list of tokens at a penalty. A rule derives what one of its productions
derives and adds its own penalty; without productions it derives nothing but the empty list. A group derives
what an admitted number of copies of its production derives. -/
inductive Grammar.Derives (g : Grammar) : List Symbol → List Token → Penalty → Prop where
  | nil : Derives g [] [] 0
  | empty {ss : List Symbol} {ts : List Token} {p : Penalty} (rest : Derives g ss ts p) :
      Derives g (.empty :: ss) ts p
  | usage {u : Usage} {t : Token} {ss : List Symbol} {ts : List Token} {p : Penalty}
      (accepted : g.accepts u t = true) (rest : Derives g ss ts p) :
      Derives g (.usage u :: ss) (t :: ts) p
  | rule {r : RuleId} {d : RuleDef} {production : Production} {us : List Token} {c : Penalty}
      {ss : List Symbol} {ts : List Token} {p : Penalty} (known : g.rule? r = some d)
      (chosen : production ∈ d.productions) (inner : Derives g production us c) (rest : Derives g ss ts p) :
      Derives g (.rule r :: ss) (us ++ ts) (c + d.penalty + p)
  | bare {r : RuleId} {d : RuleDef} {ss : List Symbol} {ts : List Token} {p : Penalty}
      (known : g.rule? r = some d) (childless : d.productions = []) (rest : Derives g ss ts p) :
      Derives g (.rule r :: ss) ts (d.penalty + p)
  | group {k : GroupId} {d : GroupDef} {count : Nat} {us : List Token} {c : Penalty}
      {ss : List Symbol} {ts : List Token} {p : Penalty} (known : g.group? k = some d)
      (admitted : d.Admits count) (inner : Derives g (List.replicate count d.production).flatten us c)
      (rest : Derives g ss ts p) :
      Derives g (.group k :: ss) (us ++ ts) (c + p)

namespace Grammar.Derives

variable {g : Grammar}

theorem append {ss ss' : List Symbol} {ts ts' : List Token} {p p' : Penalty} (h : g.Derives ss ts p)
    (h' : g.Derives ss' ts' p') : g.Derives (ss ++ ss') (ts ++ ts') (p + p') := by
  induction h with
  | nil => simpa using h'
  | empty _ ih => exact .empty ih
  | usage accepted _ ih => exact .usage accepted ih
  | rule known chosen inner _ _ ih =>
    rw [List.append_assoc, Penalty.add_assoc]
    exact .rule known chosen inner ih
  | bare known childless _ ih =>
    rw [Penalty.add_assoc]
    exact .bare known childless ih
  | group known admitted inner _ _ ih =>
    rw [List.append_assoc, Penalty.add_assoc]
    exact .group known admitted inner ih

theorem of_append {ss ss' : List Symbol} {ts : List Token} {p : Penalty} (h : g.Derives (ss ++ ss') ts p) :
    ∃ us vs q q', ts = us ++ vs ∧ p = q + q' ∧ g.Derives ss us q ∧ g.Derives ss' vs q' := by
  induction ss generalizing ts p with
  | nil => exact ⟨[], ts, 0, p, rfl, by simp, .nil, h⟩
  | cons s ss ih =>
    rw [List.cons_append] at h
    cases h with
    | empty rest =>
      obtain ⟨us, vs, q, q', rfl, rfl, left, right⟩ := ih rest
      exact ⟨us, vs, q, q', rfl, rfl, .empty left, right⟩
    | usage accepted rest =>
      obtain ⟨us, vs, q, q', rfl, rfl, left, right⟩ := ih rest
      exact ⟨_, vs, q, q', rfl, rfl, .usage accepted left, right⟩
    | rule known chosen inner rest =>
      obtain ⟨us, vs, q, q', rfl, rfl, left, right⟩ := ih rest
      exact ⟨_, vs, _, q', (List.append_assoc ..).symm, (Penalty.add_assoc ..).symm,
        .rule known chosen inner left, right⟩
    | bare known childless rest =>
      obtain ⟨us, vs, q, q', rfl, rfl, left, right⟩ := ih rest
      exact ⟨us, vs, _, q', rfl, (Penalty.add_assoc ..).symm, .bare known childless left, right⟩
    | group known admitted inner rest =>
      obtain ⟨us, vs, q, q', rfl, rfl, left, right⟩ := ih rest
      exact ⟨_, vs, _, q', (List.append_assoc ..).symm, (Penalty.add_assoc ..).symm,
        .group known admitted inner left, right⟩

end Grammar.Derives

end Earley
