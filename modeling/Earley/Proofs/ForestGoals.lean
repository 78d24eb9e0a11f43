import Earley.Proofs.ChartCompleteness
import Mathlib.Data.Set.Insert

/-!
# Derivations that repeat no goal

The search for trees cuts a branch that leads back to a goal still being worked on. So what it has to find are the
derivations in which no goal lies below itself. A derivation that is not of this kind contains a cheaper one of the
goal it repeats, and the way back to that goal is a cycle. Hence the cheapest answers have derivations that
repeat no goal, and where all cycles are too dear, every answer that is cheap enough has one.
-/

namespace Earley.Forest

open Chart

/-- An answer with a derivation in which no goal lies below itself or below one to be avoided. -/
inductive Derived (g : Grammar) (states : Array State) : Set Goal → Goal → Stem → Prop where
  | step {avoided : Set Goal} {goal : Goal} {premises : List (Goal × Stem)} {y : Stem} (fresh : goal ∉ avoided)
      (step : Step g states goal premises y)
      (each : ∀ x ∈ premises, Derived g states (insert goal avoided) x.1 x.2) : Derived g states avoided goal y

/-- One goal leads to another, and what else is needed to get an answer from there costs so much. -/
inductive Edge (g : Grammar) (input : List Token) (states : Array State) : Goal → Goal → Penalty → Prop where
  | pass {ref : ItemRef} {item : Item} {link : Link} (found : itemAt states ref = some item)
      (member : link ∈ item.links) (child : link.child = .empty) :
      Edge g input states (.stems ref) (.stems link.previous) 0
  | scan {ref : ItemRef} {item : Item} {link : Link} (found : itemAt states ref = some item)
      (member : link ∈ item.links) (child : link.child = .token) :
      Edge g input states (.stems ref) (.stems link.previous) 0
  | before {ref : ItemRef} {item : Item} {link : Link} {goal : Goal} {x : Stem} (found : itemAt states ref = some item)
      (member : link ∈ item.links) (asks : childGoal ref.state link.child = some goal)
      (sound : Sound g input states goal x) : Edge g input states (.stems ref) (.stems link.previous) x.penalty
  | child {ref : ItemRef} {item : Item} {link : Link} {goal : Goal} {s : Stem} (found : itemAt states ref = some item)
      (member : link ∈ item.links) (asks : childGoal ref.state link.child = some goal)
      (sound : Sound g input states (.stems link.previous) s) : Edge g input states (.stems ref) goal s.penalty
  | tree {ref : ItemRef} {item : Item} {target : Target} (found : itemAt states ref = some item)
      (done : item.key.op = .complete target) :
      Edge g input states (.trees ref) (.stems ref) (g.targetPenalty item.key.owner.target)
  | completion {ref : ItemRef} {item : Item} {target : Target} (found : itemAt states ref = some item)
      (done : item.key.op = .complete target) (narrow : item.key.origin = ref.state) :
      Edge g input states (.nulls ref.state target) (.trees ref) 0

/-- A chain of goals, with the sum of what else is needed on the way. -/
inductive Path (g : Grammar) (input : List Token) (states : Array State) : Goal → Goal → Penalty → Prop where
  | here {goal : Goal} : Path g input states goal goal 0
  | step {goal next last : Goal} {p q : Penalty} (edge : Edge g input states goal next p)
      (rest : Path g input states next last q) : Path g input states goal last (p + q)

/-- Every way from a goal back to itself costs more than the given penalty. -/
def CyclesAbove (g : Grammar) (input : List Token) (states : Array State) (most : Penalty) : Prop :=
  ∀ {goal next : Goal} {p q : Penalty}, Edge g input states goal next p → Path g input states next goal q → most < p + q

variable {g : Grammar} {start : RuleId} {input : List Token} {states : Array State}

/-- An answer costs what a premise costs and what else is needed. -/
theorem Step.edge {goal : Goal} {premises : List (Goal × Stem)} {y : Stem} (step : Step g states goal premises y)
    (each : ∀ x ∈ premises, Sound g input states x.1 x.2) {x : Goal × Stem} (member : x ∈ premises) :
    ∃ p, Edge g input states goal x.1 p ∧ y.penalty = p + x.2.penalty := by
  cases step with
  | start => simp at member
  | pass found linked child =>
    obtain rfl := List.mem_singleton.mp member
    exact ⟨0, .pass found linked child, by simp⟩
  | scan found linked child here read =>
    obtain rfl := List.mem_singleton.mp member
    exact ⟨0, .scan found linked child, by simp [Stem.extend, Tree.leaf, Tree.penalty]⟩
  | @part ref item link goal s z found linked asks =>
    rcases List.mem_cons.mp member with rfl | later
    · refine ⟨z.penalty, .before found linked asks (each (goal, z) (by simp)), ?_⟩
      rw [Stem.penalty_join, Penalty.add_comm]
    · obtain rfl := List.mem_singleton.mp later
      exact ⟨s.penalty, .child found linked asks (each _ (List.mem_cons_self ..)), rfl⟩
  | tree found done =>
    obtain rfl := List.mem_singleton.mp member
    refine ⟨_, .tree found done, ?_⟩
    rw [Penalty.add_comm]
    rfl
  | completion found done narrow =>
    obtain rfl := List.mem_singleton.mp member
    exact ⟨0, .completion found done narrow, by simp⟩
  | bare => simp at member

theorem Path.append {goal mid last : Goal} {p q : Penalty} (h : Path g input states goal mid p)
    (k : Path g input states mid last q) : Path g input states goal last (p + q) := by
  induction h with
  | here => simpa using k
  | step edge _ ih =>
    rw [Penalty.add_assoc]
    exact .step edge (ih k)

theorem Derived.antitone {avoided fewer : Set Goal} {goal : Goal} {y : Stem} (h : Derived g states avoided goal y)
    (sub : fewer ⊆ avoided) : Derived g states fewer goal y := by
  induction h generalizing fewer with
  | step fresh step _ ih =>
    exact .step (fun inside => fresh (sub inside)) step fun x member => ih x member (Set.insert_subset_insert sub)

theorem Derived.sound (h : Charted g start input states) {avoided : Set Goal} {goal : Goal} {y : Stem}
    (derived : Derived g states avoided goal y) : Sound g input states goal y := by
  induction derived with
  | step _ step _ ih => exact Sound.step h.valid h.read step ih

theorem Derivable.sound (h : Charted g start input states) {goal : Goal} {y : Stem}
    (derivable : Derivable g states goal y) : Sound g input states goal y := by
  induction derivable with
  | step step _ ih => exact Sound.step h.valid h.read step ih

/-- A derivation avoids a goal, or it contains one of that goal. -/
theorem Derived.avoid (h : Charted g start input states) (target : Goal) {avoided : Set Goal} {goal : Goal} {y : Stem}
    (derived : Derived g states avoided goal y) :
    Derived g states (insert target avoided) goal y ∨
      ∃ z p, Derived g states avoided target z ∧ Path g input states goal target p ∧ y.penalty = p + z.penalty := by
  induction derived with
  | @step avoided goal premises y fresh step each ih =>
    by_cases same : goal = target
    · subst same
      exact .inr ⟨y, 0, .step fresh step each, .here, by simp⟩
    · by_cases clear : ∀ x ∈ premises, Derived g states (insert target (insert goal avoided)) x.1 x.2
      · left
        refine .step (fun inside => ?_) step fun x member => ?_
        · rcases Set.mem_insert_iff.mp inside with equal | old
          · exact same equal
          · exact fresh old
        · rw [Set.insert_comm]
          exact clear x member
      · right
        push Not at clear
        obtain ⟨x, member, blocked⟩ := clear
        obtain ⟨z, p, derived, path, cost⟩ := (ih x member).resolve_left blocked
        obtain ⟨q, edge, sum⟩ := step.edge (fun x member => (each x member).sound h) member
        refine ⟨z, q + p, derived.antitone (Set.subset_insert goal avoided), .step edge path, ?_⟩
        rw [sum, cost, Penalty.add_assoc]

/-- Cheaper premises give an answer that costs no more. -/
theorem Step.cheaper {D : Goal → Stem → Prop} {goal : Goal} {premises : List (Goal × Stem)} {y : Stem}
    (step : Step g states goal premises y) (each : ∀ x ∈ premises, ∃ x', D x.1 x' ∧ x'.penalty ≤ x.2.penalty) :
    ∃ premises' y', Step g states goal premises' y' ∧ (∀ x ∈ premises', D x.1 x.2) ∧ y'.penalty ≤ y.penalty := by
  cases step with
  | start found opening => exact ⟨[], _, .start found opening, by simp, Nat.le_refl _⟩
  | pass found linked child =>
    obtain ⟨s, derived, less⟩ := each _ (List.mem_cons_self ..)
    exact ⟨_, s, .pass found linked child, by simpa using derived, less⟩
  | scan found linked child here read =>
    obtain ⟨s, derived, less⟩ := each _ (List.mem_cons_self ..)
    exact ⟨_, _, .scan found linked child here read, by simpa using derived, Penalty.add_le_add less (Nat.le_refl _)⟩
  | @part ref item link goal s x found linked asks =>
    obtain ⟨s', derived, less⟩ := each _ (List.mem_cons_self ..)
    obtain ⟨x', derived', less'⟩ := each (goal, x) (by simp)
    exact ⟨[(.stems link.previous, s'), (goal, x')], _, .part found linked asks, by simp [derived, derived'],
      Penalty.add_le_add less less'⟩
  | tree found done =>
    obtain ⟨s, derived, less⟩ := each _ (List.mem_cons_self ..)
    exact ⟨_, _, .tree found done, by simpa using derived, Penalty.add_le_add less (Nat.le_refl _)⟩
  | completion found done narrow =>
    obtain ⟨x, derived, less⟩ := each _ (List.mem_cons_self ..)
    exact ⟨_, x, .completion found done narrow, by simpa using derived, less⟩
  | bare known childless => exact ⟨[], _, .bare known childless, by simp, Nat.le_refl _⟩

/-- Every answer has one that costs no more and whose derivation repeats no goal. -/
theorem exists_derived (h : Charted g start input states) {goal : Goal} {y : Stem}
    (derivable : Derivable g states goal y) : ∃ z, Derived g states ∅ goal z ∧ z.penalty ≤ y.penalty := by
  induction derivable with
  | @step goal premises y step _ ih =>
    obtain ⟨premises', y', step', each, less⟩ := step.cheaper ih
    by_cases clear : ∀ x ∈ premises', Derived g states (insert goal ∅) x.1 x.2
    · exact ⟨y', .step (Set.notMem_empty goal) step' clear, less⟩
    · push Not at clear
      obtain ⟨x, member, blocked⟩ := clear
      obtain ⟨z, p, derived, -, cost⟩ := ((each x member).avoid h goal).resolve_left blocked
      obtain ⟨q, -, sum⟩ := step'.edge (fun x member => (each x member).sound h) member
      refine ⟨z, derived, Nat.le_trans ?_ less⟩
      rw [sum, cost, ← Penalty.add_assoc, Penalty.add_comm]
      exact Penalty.le_add_right _ _

/-- Where all cycles are too dear, no derivation of a cheap answer repeats a goal. -/
theorem derived_of_cyclesAbove (h : Charted g start input states) {most : Penalty}
    (above : CyclesAbove g input states most) {goal : Goal} {y : Stem} (derivable : Derivable g states goal y)
    (cheap : y.penalty ≤ most) : Derived g states ∅ goal y := by
  induction derivable with
  | @step goal premises y step each ih =>
    have sound : ∀ x ∈ premises, Sound g input states x.1 x.2 := fun x member => (each x member).sound h
    refine .step (Set.notMem_empty goal) step fun x member => ?_
    obtain ⟨p, edge, sum⟩ := step.edge sound member
    have derived := ih x member (by
      refine Nat.le_trans ?_ cheap
      rw [sum, Penalty.add_comm]
      exact Penalty.le_add_right _ _)
    rcases derived.avoid h goal with clear | ⟨z, q, -, path, cost⟩
    · exact clear
    · have dear := above edge path
      have less : p + q ≤ y.penalty := by
        rw [sum, cost, ← Penalty.add_assoc]
        exact Penalty.le_add_right _ _
      exact absurd (Nat.le_trans less cheap) (Nat.not_le_of_lt dear)

end Earley.Forest
