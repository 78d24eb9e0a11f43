import Earley.Proofs.RepairOptimality
import Earley.Proofs.Repricing

/-!
# What can be repaired

Anything can be skipped before a token that is met, and anything assumed, but nothing is skipped after the last token
that is met. So of an input only its last token has to be met by a usage (`repairCosts_nonempty_iff`). Prices do not
matter for what is accepted, and without them a grammar and its fault-tolerant counterpart are twins. So a
fault-tolerant grammar accepts or rejects an input for its last token alone (`run_accepts_iff_last`).
-/

namespace Earley

namespace Grammar

variable {g g' s t : Grammar} {ts : List Token} {start : RuleId}

def spellings (g : Grammar) (r : RuleId) : Set (List Usage) := { us | g.Spells [.rule r] us }

/-- An input can be repaired if there is something to assume, and to meet its last token if it has one. -/
theorem repairCosts_nonempty_iff {r : RuleId} : (g.repairCosts r ts).Nonempty ↔
    ∃ us ∈ g.spellings r, ∀ x, ts.getLast? = some x → ∃ u ∈ us, g.accepts u x = true := by
  constructor
  · rintro ⟨cost, us, pairs, spells, matching, -⟩
    refine ⟨us, spells, fun x last => ?_⟩
    obtain ⟨place, member, final⟩ := matching.last fun none => by simp [none] at last
    obtain ⟨y, u, token, usage, accepted⟩ := matching.accepted place member
    rw [List.getLast?_eq_getElem?, ← final, Nat.add_sub_cancel, token] at last
    cases last
    exact ⟨u, List.mem_of_getElem? usage, accepted⟩
  · rintro ⟨us, spells, met⟩
    cases last : ts.getLast? with
    | none =>
      obtain rfl := List.getLast?_eq_none_iff.mp last
      exact ⟨_, us, [], spells, ⟨.nil, by simp, by simp⟩, rfl⟩
    | some x =>
      obtain ⟨u, member, accepted⟩ := met x last
      obtain ⟨n, usage⟩ := List.mem_iff_getElem?.mp member
      rw [List.getLast?_eq_getElem?] at last
      have bound := (List.getElem?_eq_some_iff.mp last).1
      refine ⟨_, us, [(ts.length - 1, n)], spells, ⟨List.pairwise_singleton .., ?_, fun _ => ?_⟩, rfl⟩
      · exact List.forall_mem_singleton.mpr ⟨x, u, last, usage, accepted⟩
      · exact ⟨_, List.mem_singleton_self _, Nat.sub_add_cancel (Nat.one_le_of_lt bound)⟩

/-- What symbols spell does not depend on prices. -/
theorem Spells.reprice (same : g.outline = g'.outline) {ss : List Symbol} {us : List Usage} (h : g.Spells ss us) :
    g'.Spells ss us := by
  induction h with
  | nil => exact .nil
  | empty _ ih => exact .empty ih
  | usage _ ih => exact .usage ih
  | rule known chosen _ _ inner rest =>
    obtain ⟨d', known', equal⟩ := outline_rule same known
    exact .rule known' (RuleDef.productions_of_outline equal ▸ chosen) inner rest
  | bare known childless _ ih =>
    obtain ⟨d', known', equal⟩ := outline_rule same known
    exact .bare known' (RuleDef.productions_of_outline equal ▸ childless) ih
  | group known admitted _ _ inner rest =>
    obtain ⟨d', known', equal⟩ := outline_group same known
    have kept := GroupDef.matches_of_content equal
    exact .group known' ((GroupDef.admits_congr kept.min kept.max _).mp admitted) (kept.production ▸ inner) rest

theorem spellings_of_outline_eq (same : g.outline = g'.outline) (r : RuleId) : g.spellings r = g'.spellings r :=
  Set.Subset.antisymm (fun _ h => Spells.reprice same h) fun _ h => Spells.reprice same.symm h

theorem exists_isTree_of_outline_eq (same : g.outline = g'.outline) (tree : ∃ n, g.IsTree start ts n) :
    ∃ n, g'.IsTree start ts n := by
  obtain ⟨n, isTree⟩ := tree
  obtain ⟨q, derived⟩ := (derives_iff_isTree.mpr ⟨n, isTree, rfl⟩).reprice same
  obtain ⟨n', isTree', -⟩ := derives_iff_isTree.mp derived
  exact ⟨n', isTree'⟩

theorem marks_of_outline_eq (same : g.outline = g'.outline) : g.marks = g'.marks := by
  have marks (g : Grammar) : g.outline.marks = g.marks := by
    simp only [Grammar.marks, outline, Array.toList_map, List.map_map]
    rfl
  rw [← marks, same, marks]

theorem strictId_of_outline_eq (same : g.outline = g'.outline) : g.strictId = g'.strictId :=
  strictId_congr (marks_of_outline_eq same)

theorem synthesized_of_outline_eq (same : g.outline = g'.outline) {r : RuleId} (h : g'.Synthesized r) :
    g.Synthesized r := by
  rwa [Synthesized, wrappedUsage?_eq, marks_of_outline_eq same, ← wrappedUsage?_eq]

end Grammar

namespace Call

theorem unpriced_mapRules (c : Call) (f : RuleId → RuleId) :
    (c.mapRules f).unpriced = (c.unpriced.mapRules f).unpriced := by
  cases c with
  | setUserData key _ => cases key <;> rfl
  | _ => rfl

theorem rules_unpriced (c : Call) : c.unpriced.rules = c.rules := by
  cases c <;> rfl

theorem unpriced_unpriced (c : Call) : c.unpriced.unpriced = c.unpriced := by
  cases c <;> rfl

end Call

open Grammar

/-- Counterparts mirror each other at no cost once their prices are taken away. -/
theorem Counterparts.exists_free {s t : Grammar} (h : Counterparts s t) :
    ∃ s' t', Repriced s s' ∧ Repriced t t' ∧ Mirrors (· = 0) s' t' := by
  induction h with
  | empty => exact ⟨_, _, .empty false, .empty true, mirrors_empty _⟩
  | @step s t _ c own ih =>
    obtain ⟨s', t', left, right, mirrors⟩ := ih
    have same := right.outline_eq
    refine ⟨(c.unpriced.mapRules t'.strictId).after s', c.unpriced.after t', left.step ?_, right.step ?_,
      c.unpriced.mirrors mirrors right.reachable.2.inScope ?_ rfl fun r penalty set => ?_⟩
    · rw [strictId_of_outline_eq same, c.unpriced_mapRules]
    · exact c.unpriced_unpriced.symm
    · rw [c.rules_unpriced]
      exact fun r named made => own r named (synthesized_of_outline_eq same made)
    · cases c <;> cases set
      rfl

/-- The trees of a fault-tolerant grammar, whatever its prices, and the usage strings of the strict one. -/
theorem Counterparts.exists_isTree_iff {s t : Grammar} (h : Counterparts s t) {start : RuleId}
    (starts : t.start = some start) {ts : List Token} (plain : ∀ x ∈ ts, x.isFinish = false) :
    (∃ n, t.IsTree start ts n) ↔
      ∃ us ∈ s.spellings (t.strictId start), ∀ x, ts.getLast? = some x → ∃ u ∈ us, s.accepts u x = true := by
  obtain ⟨s', t', left, right, mirrors⟩ := h.exists_free
  have same := right.outline_eq
  have starts' : t'.start = some start := by
    rw [← starts]
    exact (congrArg Grammar.start same).symm
  have repairs : (∃ n, t'.IsTree start ts n) ↔ (s'.repairCosts (t'.strictId start) ts).Nonempty := by
    constructor
    · rintro ⟨n, isTree⟩
      obtain ⟨cost, repair, -⟩ := mirrors.cost_of_isTree starts' isTree
      exact ⟨cost, repair⟩
    · rintro ⟨cost, repair⟩
      obtain ⟨n, isTree, -⟩ := mirrors.exists_tree_of_cost starts' plain repair
      exact ⟨n, isTree⟩
  rw [repairCosts_nonempty_iff, ← strictId_of_outline_eq same, ← spellings_of_outline_eq left.outline_eq] at repairs
  simp only [← accepts_of_outline_eq left.outline_eq] at repairs
  exact ⟨fun tree => repairs.mp (exists_isTree_of_outline_eq same tree),
    fun repair => exists_isTree_of_outline_eq same.symm (repairs.mpr repair)⟩

namespace Parser

/-- A fault-tolerant grammar accepts the empty input if its start rule spells anything, as its author wrote it, and
another input if some usage that occurs in what it spells accepts the last token. So inputs with the same last token are
accepted together. -/
theorem run_accepts_iff_last (s : Grammar) (p : Parser) (start : RuleId) (counterparts : Counterparts s p.grammar)
    (fresh : p.states = #[]) (starts : p.grammar.start = some start) :
    s.start = some (p.grammar.strictId start) ∧
    (∀ tokens, ∃ outcome p', (run tokens).run p = .ok outcome p' ∧
      let input := tokens.takeWhile (!·.isFinish)
      (input = [] → (outcome.accepted = true ↔ (s.spellings (p.grammar.strictId start)).Nonempty)) ∧
      ∀ x, input.getLast? = some x →
        (outcome.accepted = true ↔ ∃ us ∈ s.spellings (p.grammar.strictId start), ∃ u ∈ us, s.accepts u x = true)) ∧
    ∀ tokens tokens' outcome outcome' q q', (run tokens).run p = .ok outcome q → (run tokens').run p = .ok outcome' q' →
      (tokens.takeWhile (!·.isFinish)).getLast? = (tokens'.takeWhile (!·.isFinish)).getLast? →
      outcome.accepted = outcome'.accepted := by
  have reachable := counterparts.reachable.2
  -- Every run has an outcome, and it is told by the last token.
  have accepted (tokens : List Token) : ∃ outcome p', (run tokens).run p = .ok outcome p' ∧ (outcome.accepted = true ↔
      ∃ us ∈ s.spellings (p.grammar.strictId start), ∀ x, (tokens.takeWhile (!·.isFinish)).getLast? = some x →
        ∃ u ∈ us, s.accepts u x = true) := by
    have plain : ∀ x ∈ tokens.takeWhile (!·.isFinish), x.isFinish = false := fun x member => by
      simpa using List.mem_takeWhile_imp member
    obtain ⟨charted, ends⟩ := Chart.build_charted reachable.analyzed start tokens
    refine ⟨_, _, run_eq p tokens fresh starts, ?_⟩
    rw [← counterparts.exists_isTree_iff starts plain]
    exact Forest.accepted_iff_isTree reachable.analyzed (rule?_of_lt (reachable.inScope.start starts)) charted ends
  refine ⟨by rw [counterparts.mirrors.start, starts]; rfl, fun tokens => ?_, ?_⟩
  · obtain ⟨outcome, p', ran, told⟩ := accepted tokens
    refine ⟨outcome, p', ran, fun none => ?_, fun x last => ?_⟩
    · simpa [none, Set.Nonempty] using told
    · simpa [last] using told
  · intro tokens tokens' outcome outcome' q q' ran ran' same
    obtain ⟨_, _, other, told⟩ := accepted tokens
    obtain ⟨_, _, other', told'⟩ := accepted tokens'
    cases ran.symm.trans other
    cases ran'.symm.trans other'
    rw [Bool.eq_iff_iff, told, told', same]

/-- The letter that is spelled is accepted after any other, and another after it is not. -/
theorem run_letterGrammar_accepts_iff_last :
    (∃ us ∈ (letterGrammar false).spellings ((letterGrammar true).strictId ⟨2⟩), ∃ u ∈ us,
      (letterGrammar false).accepts u (.ofChar 'a') = true) ∧
    ¬ ∃ us ∈ (letterGrammar false).spellings ((letterGrammar true).strictId ⟨2⟩), ∃ u ∈ us,
      (letterGrammar false).accepts u (.ofChar 'b') = true := by
  obtain ⟨-, told, -⟩ := run_accepts_iff_last (letterGrammar false) (.new (letterGrammar true) {}) ⟨2⟩
    letterGrammar_twins.counterparts rfl letterGrammar_start
  obtain ⟨outcome, q, ran, -, last⟩ := told [.ofChar 'b', .ofChar 'a']
  obtain ⟨outcome', q', ran', -, last'⟩ := told [.ofChar 'a', .ofChar 'b']
  cases ran.symm.trans (run_eq (.new (letterGrammar true) {}) _ rfl letterGrammar_start)
  cases ran'.symm.trans (run_eq (.new (letterGrammar true) {}) _ rfl letterGrammar_start)
  have met := last (.ofChar 'a') rfl
  have stray := last' (.ofChar 'b') rfl
  exact ⟨met.mp (by decide +kernel), fun found => absurd (stray.mpr found) (by decide +kernel)⟩

end Parser

end Earley
