import Earley.Grammar.Passes
import Earley.Proofs.LeastCosts

/-!
# The analysis ends early

The flag of a pass says whether the pass has made the costs lighter, so the passes that are counted are those of the
analysis. They end with the first that changes nothing, and there are no more of them than there are rules and groups,
and that one (`loop_ends`).
-/

namespace Earley.Costs

variable {t : Tables} {c : Costs}

theorem total_lower_lt {costs : Array (Option Penalty)} {i : Nat} {new : Option Penalty} (bound : i < costs.size)
    (better : improves new costs[i]?.join = true) :
    total weightOf (lower costs i new).toList < total weightOf costs.toList := by
  refine (lower_eq_or_lt costs i new).resolve_left fun same => ?_
  rw [not_improves_of_lower_eq same bound] at better
  cases better

namespace Progress

variable {now : Progress}

/-- How far a pass that began with some costs has come, when its flag is up just if it has lowered any of them. -/
structure Tells (now : Progress) (c : Costs) : Prop where
  lighter : now.changed = true → now.costs.weight < c.weight
  same : now.changed = false → now.costs = c

/-- The flag goes up with a step that makes the costs lighter. -/
theorem Tells.lighten (h : now.Tells c) {next : Costs} (less : next.weight < now.costs.weight) :
    Tells ⟨next, true⟩ c := by
  refine ⟨fun _ => ?_, fun down => by cases down⟩
  cases flag : now.changed with
  | true => exact Nat.lt_trans less (h.lighter flag)
  | false => exact h.same flag ▸ less

/-- A step that lowers one of some costs, and puts them back among all, keeps the flag right. -/
theorem Tells.lower (h : now.Tells c) {costs : Array (Option Penalty)} {i : Nat} (bound : i < costs.size)
    (new : Option Penalty) (put : Array (Option Penalty) → Costs) (held : put costs = now.costs)
    (lighter : ∀ lowered : Array (Option Penalty),
      total weightOf lowered.toList < total weightOf costs.toList → (put lowered).weight < (put costs).weight) :
    let next := if improves new costs[i]?.join then ⟨put (costs.setIfInBounds i new), true⟩ else now
    next.costs = put (Costs.lower costs i new) ∧ next.Tells c := by
  have less : improves new costs[i]?.join = true → _ := total_lower_lt bound
  unfold Costs.lower at less ⊢
  cases better : improves new costs[i]?.join with
  | false => exact ⟨held.symm, h⟩
  | true =>
    simp only [better, if_true, forall_true_left] at less
    exact ⟨rfl, h.lighten (held ▸ lighter _ less)⟩

theorem Tells.lowerRule (h : now.Tells c) (size : now.costs.rules.size = t.rules.size) (i : Nat) :
    (lowerRule t now i).costs = Costs.lowerRule t now.costs i ∧ (lowerRule t now i).Tells c := by
  unfold Progress.lowerRule Costs.lowerRule
  cases known : t.rules[i]? with
  | none => exact ⟨rfl, h⟩
  | some d =>
    have bound : i < now.costs.rules.size := size ▸ (Array.getElem?_eq_some_iff.mp known).1
    exact h.lower bound (now.costs.nullCost.ofRule d) (⟨·, now.costs.groups⟩) rfl
      fun _ less => Nat.add_lt_add_right less _

theorem Tells.lowerGroup (h : now.Tells c) (size : now.costs.groups.size = t.groups.size) (i : Nat) :
    (lowerGroup t now i).costs = Costs.lowerGroup t now.costs i ∧ (lowerGroup t now i).Tells c := by
  unfold Progress.lowerGroup Costs.lowerGroup
  cases known : t.groups[i]? with
  | none => exact ⟨rfl, h⟩
  | some d =>
    have bound : i < now.costs.groups.size := size ▸ (Array.getElem?_eq_some_iff.mp known).1
    exact h.lower bound (now.costs.nullCost.ofGroup d) (⟨now.costs.rules, ·⟩) rfl
      fun _ less => Nat.add_lt_add_left less _

theorem Tells.foldl {step : Progress → Nat → Progress} {plain : Costs → Nat → Costs}
    (lowers : ∀ c i, (plain c i).Lowered c)
    (each : ∀ {now : Progress}, now.Tells c → now.costs.Lowered c → ∀ i,
      (step now i).costs = plain now.costs i ∧ (step now i).Tells c)
    (is : List Nat) (h : now.Tells c) (lowered : now.costs.Lowered c) :
    (is.foldl step now).costs = is.foldl plain now.costs ∧ (is.foldl step now).Tells c := by
  induction is generalizing now with
  | nil => exact ⟨rfl, h⟩
  | cons i is ih =>
    obtain ⟨same, tells⟩ := each h lowered i
    rw [List.foldl_cons, List.foldl_cons, ← same]
    exact ih tells (same ▸ (lowers now.costs i).trans lowered)

/-- A pass does what it does without its flag, and the flag says whether that was anything. -/
theorem pass_tells (h : c.Realizes t) : (pass t c).costs = Costs.pass t c ∧ (pass t c).Tells c := by
  have begun : Tells ⟨c, false⟩ c := ⟨by simp, fun _ => rfl⟩
  obtain ⟨same, rules⟩ := begun.foldl (lowered_lowerRule t)
    (fun tells lowered i => tells.lowerRule (lowered.rules_size.trans h.rules_size) i) (List.range t.rules.size)
    (lowered_refl c)
  have lowered := lowered_foldl (lowered_lowerRule t) (List.range t.rules.size) c
  obtain ⟨same', groups⟩ := rules.foldl (lowered_lowerGroup t)
    (fun tells lowered i => tells.lowerGroup (lowered.groups_size.trans h.groups_size) i) (List.range t.groups.size)
    (same ▸ lowered)
  exact ⟨same'.trans (by rw [same]; rfl), groups⟩

theorem changed_pass (h : c.Realizes t) : (pass t c).changed = true ↔ Costs.pass t c ≠ c := by
  obtain ⟨same, tells⟩ := pass_tells h
  cases flag : (pass t c).changed with
  | true =>
    have less := tells.lighter flag
    simp only [true_iff]
    intro equal
    rw [same, equal] at less
    exact Nat.lt_irrefl _ less
  | false =>
    have equal := tells.same flag
    simp [← same, equal]

end Progress

/-- When so many passes settle the costs, the loop ends with them after at most one pass more, and so it does when it
may not take more. -/
theorem loop_eq {n : Nat} (h : c.Realizes t) (passes : Nat) (fixed : pass t ((pass t)^[n] c) = (pass t)^[n] c) :
    ∃ more, more ≤ n + 1 ∧ loop t passes c = some ((pass t)^[n] c, passes + more) ∧
      loopWithin t (n + 1) passes c = some ((pass t)^[n] c, passes + more) := by
  induction n generalizing c passes with
  | zero =>
    have still : (Progress.pass t c).changed = false :=
      Bool.eq_false_iff.mpr fun up => (Progress.changed_pass h).mp up fixed
    have same := (Progress.pass_tells h).2.same still
    refine ⟨1, Nat.le_refl _, ?_, ?_⟩
    · rw [loop]
      simp [still, same]
    · rw [loopWithin]
      simp [still, same]
  | succ n ih =>
    cases flag : (Progress.pass t c).changed with
    | false =>
      have same := (Progress.pass_tells h).2.same flag
      have settled : pass t c = c := (Progress.pass_tells h).1.symm.trans same
      rw [Function.iterate_fixed settled]
      refine ⟨1, Nat.le_add_left _ _, ?_, ?_⟩
      · rw [loop]
        simp [flag, same]
      · rw [loopWithin]
        simp [flag, same]
    | true =>
      obtain ⟨more, few, ends, ends'⟩ := ih h.pass (passes + 1) fixed
      have same := (Progress.pass_tells h).1
      refine ⟨more + 1, Nat.succ_le_succ few, ?_, ?_⟩
      · rw [loop]
        simp only [flag, if_true, same, ends, Function.iterate_succ_apply, Nat.add_assoc, Nat.add_comm 1]
      · rw [loopWithin]
        simp only [flag, if_true, same, ends', Function.iterate_succ_apply, Nat.add_assoc, Nat.add_comm 1]

/-- Whatever rules and groups there are, however they mention each other and whatever they cost, the passes of the
analysis end with one that lowers nothing, and there are at most as many of them as rules and groups, and one more. Not
allowing for more makes no difference. -/
theorem loop_ends (t : Tables) : ∃ c passes, passes ≤ t.rules.size + t.groups.size + 1 ∧
    loop t 0 (unknown t) = some (c, passes) ∧
    loopWithin t (t.rules.size + t.groups.size + 1) 0 (unknown t) = some (c, passes) ∧ t.record c = t.analyze := by
  have found := iterate_pass_eq_found t
  have fixed : pass t t.found = t.found := pass_settle t (unknown t)
  rw [← found] at fixed
  obtain ⟨passes, few, ends, ends'⟩ := loop_eq (realizes_unknown t) 0 fixed
  rw [Nat.zero_add] at ends ends'
  exact ⟨_, passes, few, ends, ends', by rw [found]; rfl⟩

/-- Three rules, of which the last derives nothing and each of the others what the next one does: one pass for each, and
one more. -/
example :
    let rule (p : Production) : RuleDef := { name := none, productions := [p] }
    let t : Tables := ⟨#[rule [.rule ⟨1⟩], rule [.rule ⟨2⟩], rule [.empty]], #[]⟩
    loopWithin t 3 0 (unknown t) = none ∧ (loopWithin t 4 0 (unknown t)).map (·.2) = some 4 := by
  decide +kernel

end Earley.Costs
