import Earley.Proofs.ForestCycles
import Earley.Proofs.ForestTrees

/-!
# The whole forest

Where every way for a rule to derive itself is too dear, a forest leaves out no canonical tree unless it is full of
others that cost no more. So it holds all of them, or the cheapest as many as the settings ask for (`forest_exact`).
-/

namespace Earley

def Grammar.canonicalTrees (g : Grammar) (start : RuleId) (input : List Token) (most : Penalty) : Set Tree :=
  { t | g.IsTree start input t ∧ t.Canonical g ∧ t.penalty ≤ most }

namespace Forest

open Chart

theorem encard_mem {α : Type} {kept : List α} (distinct : kept.Nodup) : Set.encard { a | a ∈ kept } = kept.length := by
  classical
  rw [← List.toFinset_card_of_nodup distinct, ← Set.encard_coe_eq_coe_finsetCard]
  simp

variable {α : Type} {cost : α → Penalty} {limit : Nat} {kept : List α} {all : Set α}

/-- A list that covers a set has as many elements as the set, or as many as the limit allows. -/
theorem length_eq_min_encard (distinct : kept.Nodup) (inside : ∀ a ∈ kept, a ∈ all) (short : kept.length ≤ limit)
    (covers : ∀ a ∈ all, Covers cost limit kept a) : (kept.length : ℕ∞) = min all.encard limit := by
  have size := encard_mem distinct
  by_cases full : limit ≤ kept.length
  · have same : kept.length = limit := Nat.le_antisymm short full
    have fewer : (kept.length : ℕ∞) ≤ all.encard := by
      rw [← size]
      exact Set.encard_le_encard inside
    rw [same] at fewer ⊢
    exact (min_eq_right fewer).symm
  · have whole : all = { a | a ∈ kept } := by
      ext a
      refine ⟨fun member => ?_, inside a⟩
      exact (covers a member).resolve_right fun many => full many.1
    rw [whole, size]
    exact (min_eq_left (by exact_mod_cast short)).symm

/-- A list of as many elements of a set as it has leaves out none. -/
theorem mem_of_encard_le (distinct : kept.Nodup) (inside : ∀ a ∈ kept, a ∈ all)
    (many : all.encard ≤ kept.length) {a : α} (member : a ∈ all) : a ∈ kept := by
  rw [← encard_mem distinct] at many
  have same := kept.finite_toSet.eq_of_subset_of_encard_le inside many
  rw [← same] at member
  exact member

/-- What a covering list leaves out is no cheaper than what it keeps. -/
theorem Covers.le_of_not_mem {a b : α} (h : Covers cost limit kept b) (member : a ∈ kept) (left : b ∉ kept) :
    cost a ≤ cost b :=
  (h.resolve_left left).2 a member

/-- Where a rule that derives itself is too dear, every canonical tree that is cheap enough answers a root goal
without repeating a goal. -/
theorem derived_of_isTree {g : Grammar} {start : RuleId} {input : List Token} {states : Array State} {most : Penalty}
    (analyzed : g.Analyzed) (inScope : g.Scoped) (h : Charted g start input states) (ends : Ends g input states none)
    (dear : ∀ r c, g.Encloses (.symbol (.rule r)) (.symbol (.rule r)) c → most < c) {t : Tree}
    (member : t ∈ g.canonicalTrees start input most) :
    ∃ goal, IsRoot g start states goal ∧ Derived g states ∅ goal (.single t) := by
  obtain ⟨tree, canonical, cheap⟩ := member
  obtain ⟨-, goal, root, derivable⟩ := derivable_of_isTree analyzed h ends tree canonical
  exact ⟨goal, root, derived_of_cyclesAbove h (cyclesAbove_of_encloses inScope h.valid dear) derivable cheap⟩

end Forest

namespace Parser

open Chart Forest

/-- A forest consists of cheap canonical trees and covers all of them. -/
theorem forest_covers {p p' : Parser} {start : RuleId} {tokens : List Token} {outcome : Recognition}
    (reachable : Reachable p.grammar) (fresh : p.states = #[]) (starts : p.grammar.start = some start)
    (ran : (run tokens).run p = .ok outcome p') (config : Config)
    (dear : ∀ r c, p.grammar.Encloses (.symbol (.rule r)) (.symbol (.rule r)) c → config.maxPenalty < c) :
    let forest := { p' with config := config }.forest
    let trees := p.grammar.canonicalTrees start (tokens.takeWhile (!·.isFinish)) config.maxPenalty
    let limit := max 1 config.maxTrees
    forest.Nodup ∧ Ranked Tree.penalty forest ∧ (∀ t ∈ forest, t ∈ trees) ∧ forest.length ≤ limit ∧
      ∀ t ∈ trees, Covers Tree.penalty limit forest t := by
  intro forest trees limit
  rcases cheapestTrees_cases reachable fresh starts ran config config.maxTrees with ⟨none, no⟩ | ⟨charted, ends, best⟩
  · have none : forest = [] := none
    rw [none]
    exact ⟨.nil, .nil, by simp, by simp, fun t member => absurd ⟨t, member.1⟩ no⟩
  · rw [max_comm] at best
    refine ⟨.of_map _ (.of_map _ best.distinct), ranked_single best.ranked, fun t member => ?_, ?_,
      fun t member => ?_⟩
    · have member := List.mem_map_of_mem (f := Stem.single) member
      obtain ⟨t', same, tree, canonical⟩ := best.ok _ member
      obtain rfl := Stem.single_inj same
      exact ⟨tree, canonical, best.cheap _ member⟩
    · have short := best.short
      rwa [List.length_map] at short
    · apply covers_single.mp
      apply best.covers _ member.2.2
      exact derived_of_isTree reachable.analyzed reachable.inScope charted ends dear member

/-- Where every derivation of a rule from itself, in a context that derives nothing, costs more than the settings
allow, a forest has as many different canonical trees as there are up to the number asked for, the cheapest first, and
no other canonical tree is cheaper. -/
theorem forest_exact (p p' : Parser) (start : RuleId) (tokens : List Token) (outcome : Recognition)
    (reachable : Reachable p.grammar) (fresh : p.states = #[]) (starts : p.grammar.start = some start)
    (ran : (run tokens).run p = .ok outcome p') (config : Config)
    (dear : ∀ r c, p.grammar.Encloses (.symbol (.rule r)) (.symbol (.rule r)) c → config.maxPenalty < c) :
    let forest := { p' with config := config }.forest
    let trees := p.grammar.canonicalTrees start (tokens.takeWhile (!·.isFinish)) config.maxPenalty
    let limit := max 1 config.maxTrees
    forest.Nodup ∧ Ranked Tree.penalty forest ∧ (∀ t ∈ forest, t ∈ trees) ∧
      (forest.length : ℕ∞) = min trees.encard limit ∧
      (∀ t ∈ forest, ∀ u ∈ trees, u ∉ forest → t.penalty ≤ u.penalty) ∧
      (trees.encard ≤ limit → ∀ t ∈ trees, t ∈ forest) := by
  intro forest trees limit
  obtain ⟨distinct, ranked, inside, short, covers⟩ := forest_covers reachable fresh starts ran config dear
  have length := length_eq_min_encard distinct inside short covers
  refine ⟨distinct, ranked, inside, length, fun t member u other left => ?_, fun few t member => ?_⟩
  · exact (covers u other).le_of_not_mem member left
  · rw [min_eq_left few] at length
    exact mem_of_encard_le distinct inside length.ge member

/-- Where nothing is grouped and every rule that is free mentions lower levels alone, no rule derives itself for
nothing. -/
theorem dear_of_levels {g : Grammar} (level : Part → Nat)
    (checked : (g.rules.toList.zipIdx.all fun x => x.1.productions.all fun production => production.all fun s =>
      decide (level (.symbol s) < level (.symbol (.rule ⟨x.2⟩)) ∨ 0 < x.1.penalty)) = true)
    (ungrouped : g.groups = #[]) (r : RuleId) (c : Penalty)
    (cycle : g.Encloses (.symbol (.rule r)) (.symbol (.rule r)) c) : 0 < c := by
  simp only [List.all_eq_true, decide_eq_true_eq] at checked
  have lower : level (.symbol (.rule r)) < level (.symbol (.rule r)) ∨ 0 < c := by
    refine cycle.lower_or_dear (fun {r d production s} known chosen member => ?_) fun {k d} known => ?_
    · apply checked (d, r.index) _ production chosen s member
      exact List.mem_zipIdx_iff_getElem?.mpr ((Array.getElem?_toList ..).trans known)
    · simp [Grammar.group?, ungrouped] at known
  exact lower.resolve_left (Nat.lt_irrefl _)

def firstRuleLevel : Part → Nat
  | .symbol (.rule r) => if r = ⟨2⟩ then 1 else 0
  | _ => 0

/-- Only the detour leads back to the start rule, and it is not free. -/
theorem loopGrammar_dear (r : RuleId) (c : Penalty)
    (cycle : loopGrammar.Encloses (.symbol (.rule r)) (.symbol (.rule r)) c) : 0 < c :=
  dear_of_levels firstRuleLevel (by decide +kernel) (by decide +kernel) r c cycle

theorem run_loopGrammar_forest : ∃ outcome p', (run [.ofChar 'a']).run (.new loopGrammar .exact) = .ok outcome p' ∧
    { p' with config := .exact }.forest = [loopTree] := by
  refine ⟨_, _, run_eq (.new loopGrammar .exact) [.ofChar 'a'] rfl loopGrammar_start, ?_⟩
  decide +kernel

theorem forest_loopGrammar_exact :
    ∃ outcome p', (run [.ofChar 'a']).run (.new loopGrammar .exact) = .ok outcome p' ∧
      { p' with config := .exact }.forest = [loopTree] ∧
      loopGrammar.canonicalTrees ⟨2⟩ [.ofChar 'a'] 0 = {loopTree} := by
  obtain ⟨outcome, p', ran, single⟩ := run_loopGrammar_forest
  obtain ⟨-, -, inside, length, -, whole⟩ := forest_exact (.new loopGrammar .exact) p' ⟨2⟩ [.ofChar 'a'] outcome
    loopGrammar_reachable rfl loopGrammar_start ran .exact loopGrammar_dear
  rw [single] at inside length whole
  have few : (loopGrammar.canonicalTrees ⟨2⟩ [.ofChar 'a'] 0).encard < 256 := by
    have less : min (loopGrammar.canonicalTrees ⟨2⟩ [.ofChar 'a'] 0).encard 256 < 256 := by
      refine lt_of_eq_of_lt length.symm ?_
      exact ENat.natCast_lt_natCast.mpr (by decide : 1 < 256)
    exact (min_lt_iff.mp less).resolve_right (lt_irrefl _)
  refine ⟨outcome, p', ran, single, ?_⟩
  ext t
  constructor
  · exact fun member => List.mem_singleton.mp (whole few.le t member)
  · rintro rfl
    exact inside loopTree (List.mem_cons_self ..)

end Parser

end Earley
