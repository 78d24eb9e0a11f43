import Earley.Chart.Passed
import Earley.Proofs.ForestTrees
import Earley.Proofs.ScanProspects

/-!
# Penalties of items

The penalty of an item is lowered where a cheaper way to the item turns up, and what was made of the item before is not
told. Still it is never made up: at all times some derivation of what the item has behind it costs just as much. So no
item is cheaper than it can be, and an accepting item promises a tree (`run_penalties_paid`).
-/

namespace Earley

theorem exists_isLeast {costs : Set Penalty} (some : costs.Nonempty) : ∃ c, IsLeast costs c := by
  obtain ⟨c, member, least⟩ := (measure Penalty.value).wf.has_min costs some
  exact ⟨c, member, fun d inside => Nat.le_of_not_lt (least d inside)⟩

/-- Counting one repetition after the other leads to the count that stands for them all. -/
theorem GroupDef.iterate_nextCount {d : GroupDef} {n : Nat} (room : d.isUnbounded = true ∨ n ≤ d.max.toNat) :
    d.nextCount^[n] 0 = d.clamp n := by
  induction n with
  | zero => exact d.clamp_zero.symm
  | succ n ih =>
    have more : d.canRepeat (d.clamp n) = true := by
      by_cases unbounded : d.isUnbounded = true
      · simp [canRepeat, unbounded]
      · have less : n < d.max.toNat := room.resolve_left unbounded
        simp [canRepeat, clamp, unbounded, less]
    rw [Function.iterate_succ_apply', ih (room.imp_right Nat.le_of_succ_le), nextCount_clamp more]

namespace Chart

variable {g : Grammar} {input : List Token} {key : ItemKey} {i j : Nat} {ts : List Tree} {p : Penalty}

/-- A group item leaves room for the repetitions behind it. -/
theorem ItemKey.Valid.room (valid : key.Valid g i) {k : GroupId} {d : GroupDef} {n : Nat} (group : key.owner = .group k)
    (known : g.group? k = some d) (counted : key.count = d.clamp n) : d.isUnbounded = true ∨ n ≤ d.max.toNat := by
  cases valid with
  | @dotted owner dot origin walks =>
    obtain rfl : owner = .group k := group
    exact walks.elim
  | @group k' d' origin count key known' bound begun member =>
    have same : k' = k ∧ count = key.count := by
      rcases mem_groupKeys.mp member with ⟨-, rfl⟩ | ⟨-, rfl⟩ <;> exact ⟨Owner.group.inj group, rfl⟩
    obtain ⟨rfl, rfl⟩ := same
    cases known.symm.trans known'
    by_cases unbounded : d.isUnbounded = true
    · exact .inl unbounded
    · refine .inr ?_
      simpa [GroupDef.countBound, GroupDef.clamp, unbounded, counted] using bound

/-- The trees behind an item show what they cost. -/
theorem Behind.mem_passedCosts (valid : key.Valid g i) (h : Behind g input key j ts p) :
    p ∈ g.passedCosts input key j := by
  rw [Behind] at h
  split at h
  case h_1 k group =>
    obtain ⟨d, known, counted, parsed⟩ := h
    have room := valid.room group known counted
    have derived := parsed.derives
    rw [Grammar.flatMap_iterations known] at derived
    exact ⟨_, .repeated group known room ((GroupDef.iterate_nextCount room).trans counted.symm), derived⟩
  case h_2 other =>
    have derived := h.derives
    rw [Grammar.flatMap_symbols] at derived
    exact ⟨_, .dotted other, derived⟩

end Chart

namespace Parser

open Chart

/-- After a run, whether it accepted or not, some derivation of what an item has behind it, over the tokens from its
origin to its state, costs what the item says, and so none has to cost more. If the input was accepted and an item that
accepts it is cheap enough together with the start rule, there is a best tree that costs no more than that. -/
theorem run_penalties_paid (p p' : Parser) (start : RuleId) (tokens : List Token) (outcome : Recognition)
    (reachable : Reachable p.grammar) (starts : p.grammar.start = some start)
    (ran : (run tokens).run p = .ok outcome p') :
    (∀ ref item, p'.item? ref = some item →
      let costs := p.grammar.passedCosts (tokens.takeWhile (!·.isFinish)) item.key ref.state
      item.key.origin ≤ ref.state ∧ ref.state ≤ (tokens.takeWhile (!·.isFinish)).length ∧
        item.penalty ∈ costs ∧ ∃ c, IsLeast costs c ∧ c ≤ item.penalty) ∧
    (outcome.accepted = true → ∀ ref ∈ acceptingRefs p'.states start, ∀ item, p'.item? ref = some item →
      ∀ config : Config, item.penalty + p.grammar.rulePenalty start ≤ config.maxPenalty →
      ∃ t, { p' with config := config }.bestTree = some t ∧
        t.penalty ≤ item.penalty + p.grammar.rulePenalty start) := by
  obtain ⟨fresh, -⟩ := exists_start_of_run ran
  obtain ⟨-, -, failed, charted, ends, result⟩ := run_charted reachable fresh starts ran
  constructor
  · intro ref item found costs
    have valid := charted.valid.itemAt found
    obtain ⟨ts, behind⟩ := valid.real
    have paid : item.penalty ∈ costs := behind.mem_passedCosts valid.key
    obtain ⟨c, least⟩ := exists_isLeast ⟨_, paid⟩
    obtain ⟨s, state, -⟩ := Option.bind_eq_some_iff.mp found
    exact ⟨valid.key.origin_le, charted.le_length state, paid, c, least, least.2 paid⟩
  · intro accepted ref member item found config cheap
    rw [result] at accepted
    obtain rfl := failed_eq_none accepted
    obtain ⟨t, tree, cost⟩ := charted.isTree_of_accepting ends member found
    rw [← cost] at cheap ⊢
    exact exists_bestTree_le reachable fresh starts ran tree cheap

/-- The item that has come by the detour accepts the letter as well. It costs one, and the best tree less. -/
theorem run_loopGrammar_penalties_paid :
    ∃ outcome p' item, (run [.ofChar 'a']).run (.new loopGrammar {}) = .ok outcome p' ∧ outcome.accepted = true ∧
      ⟨1, 2⟩ ∈ acceptingRefs p'.states ⟨2⟩ ∧ p'.item? ⟨1, 2⟩ = some item ∧
      item.penalty + loopGrammar.rulePenalty ⟨2⟩ = 1 ∧
      item.penalty ∈ loopGrammar.passedCosts [.ofChar 'a'] item.key 1 ∧ ∃ t, p'.bestTree = some t ∧ t.penalty ≤ 1 := by
  obtain ⟨outcome, p', ran, plain, accepted, member, cost⟩ :
      ∃ outcome p', (run [.ofChar 'a']).run (.new loopGrammar {}) = .ok outcome p' ∧ p'.config = {} ∧
        outcome.accepted = true ∧ ⟨1, 2⟩ ∈ acceptingRefs p'.states ⟨2⟩ ∧
        (p'.item? ⟨1, 2⟩).map (fun item => item.penalty + loopGrammar.rulePenalty ⟨2⟩) = some 1 :=
    ⟨_, _, run_eq (.new loopGrammar {}) _ rfl loopGrammar_start, rfl, by decide +kernel, by decide +kernel,
      by decide +kernel⟩
  obtain ⟨item, found, cost⟩ := Option.map_eq_some_iff.mp cost
  obtain ⟨paid, promised⟩ := run_penalties_paid (.new loopGrammar {}) p' ⟨2⟩ [.ofChar 'a'] outcome
    loopGrammar_reachable loopGrammar_start ran
  have cheap : item.penalty + loopGrammar.rulePenalty ⟨2⟩ ≤ p'.config.maxPenalty := by
    rw [plain, cost]
    decide
  obtain ⟨t, best, less⟩ := promised accepted ⟨1, 2⟩ member item found p'.config cheap
  exact ⟨outcome, p', item, ran, accepted, member, found, cost, (paid ⟨1, 2⟩ item found).2.2.1, t, best, cost ▸ less⟩

end Parser

end Earley
