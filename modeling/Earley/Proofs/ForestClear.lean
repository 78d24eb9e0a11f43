import Earley.Proofs.ForestAgreement
import Earley.Proofs.ForestSearch

/-!
# What no cut can reach

What is cut from a list of results contains a goal that was being worked on, so it costs at least as much as some way
there. Below that cost the list is clear, and lists that agree as far as they are clear are put together to lists that
do.
-/

namespace Earley.Forest

open Chart

variable {b : Source} {start : RuleId} {input : List Token} {avoid : Set Goal} {goal : Goal}

/-- Cheap enough, and cheaper than every way from the goal to one that is to be avoided. -/
structure Clear (b : Source) (input : List Token) (avoid : Set Goal) (goal : Goal) (p : Penalty) : Prop where
  cheap : p ≤ b.maxPenalty
  apart : ∀ other ∈ avoid, ∀ q, Path b.grammar input b.states goal other q → p < q

/-- Cheap enough, and clear after every step to another goal. -/
structure ClearBelow (b : Source) (input : List Token) (avoid : Set Goal) (goal : Goal) (p : Penalty) : Prop where
  cheap : p ≤ b.maxPenalty
  next : ∀ {other e q}, Edge b.grammar input b.states goal other e → e + q ≤ p → Clear b input avoid other q

def ClearAll (b : Source) (input : List Token) (avoid : Set Goal) (refs : List ItemRef) (p : Penalty) : Prop :=
  ∀ ref ∈ refs, Clear b input avoid (.trees ref) p

theorem clear_down : Down (Clear b input avoid goal) := fun less h =>
  ⟨Nat.le_trans less h.cheap, fun other member q path => Nat.lt_of_le_of_lt less (h.apart other member q path)⟩

theorem clearBelow_down : Down (ClearBelow b input avoid goal) := fun less h =>
  ⟨Nat.le_trans less h.cheap, fun edge le => h.next edge (Nat.le_trans le less)⟩

theorem clearAll_down {refs : List ItemRef} : Down (ClearAll b input avoid refs) := fun less h ref member =>
  clear_down less (h ref member)

theorem Clear.antitone {more : Set Goal} {p : Penalty} (h : Clear b input more goal p) (sub : avoid ⊆ more) :
    Clear b input avoid goal p :=
  ⟨h.cheap, fun other member => h.apart other (sub member)⟩

theorem ClearBelow.antitone {more : Set Goal} {p : Penalty} (h : ClearBelow b input more goal p) (sub : avoid ⊆ more) :
    ClearBelow b input avoid goal p :=
  ⟨h.cheap, fun edge le => (h.next edge le).antitone sub⟩

theorem Clear.not_mem {p : Penalty} (h : Clear b input avoid goal p) : goal ∉ avoid :=
  fun member => absurd (h.apart goal member 0 .here) (Nat.not_lt_zero _)

theorem within_clear_eq_nil (member : goal ∈ avoid) (xs : List Stem) :
    within Stem.penalty (Clear b input avoid goal) xs = [] :=
  within_eq_nil fun _ _ clear => clear.not_mem member

/-- What is clear of some goals is clear of them and of the goal itself after every step, as a way back is too dear. -/
theorem Clear.below (above : CyclesAbove b.grammar input b.states b.maxPenalty) {p : Penalty}
    (h : Clear b input avoid goal p) : ClearBelow b input (insert goal avoid) goal p := by
  refine ⟨h.cheap, fun {other e q} edge le => ⟨?_, fun last member c path => ?_⟩⟩
  · refine Nat.le_trans ?_ (Nat.le_trans le h.cheap)
    rw [Penalty.add_comm]
    exact Penalty.le_add_right _ _
  · have dear : p < e + c := by
      rcases Set.mem_insert_iff.mp member with rfl | old
      · exact Nat.lt_of_le_of_lt h.cheap (above edge path)
      · exact h.apart last old _ (.step edge path)
    refine Nat.lt_of_not_le fun less => absurd dear (Nat.not_lt_of_le ?_)
    exact Nat.le_trans (Penalty.add_le_add (Nat.le_refl _) less) le

/-- Both searches avoid a goal once they work on it. -/
theorem Clear.pushed (above : CyclesAbove b.grammar input b.states b.maxPenalty) {active other : Active}
    (fits : active.Valid b.grammar b.states) {cut : Option Nat} {p : Penalty}
    (h : Clear b input (avoided active (outerCut active.depth cut) ∪ other.goals) goal p) :
    ClearBelow b input (avoided (active.push goal) cut ∪ (other.push goal).goals) goal p := by
  refine (h.below above).antitone ?_
  rw [Active.goals_push, ← Set.insert_union]
  refine Set.union_subset ((avoided_push fits goal cut).trans Set.subset_union_left) ?_
  exact Set.insert_subset_iff.mpr ⟨.inl (Set.mem_insert _ _), Set.subset_union_right⟩

/-- Before anything is worked on, all that is cheap enough is clear. -/
theorem clear_none {cut : Option Nat} {p : Penalty} (cheap : p ≤ b.maxPenalty) :
    Clear b input (avoided .none cut ∪ Active.none.goals) goal p := by
  refine ⟨cheap, ?_⟩
  rintro other (⟨least, d, -, found, -⟩ | ⟨d, found⟩) <;> simp at found

theorem within_trees {bound : Penalty → Prop} {trees trees' : List Tree}
    (same : within Stem.penalty bound (trees.map .single) = within Stem.penalty bound (trees'.map .single)) :
    within Tree.penalty bound trees = within Tree.penalty bound trees' := by
  rw [within_map, within_map] at same
  exact List.map_injective_iff.mpr (fun _ _ => Stem.single_inj) same

/-- Lists that agree within a bound are equal if all of them is within it. -/
theorem eq_of_within {bound : Penalty → Prop} {xs ys : List Tree}
    (same : within Stem.penalty bound (xs.map .single) = within Stem.penalty bound (ys.map .single))
    (hx : ∀ x ∈ xs.map Stem.single, bound x.penalty) (hy : ∀ y ∈ ys.map Stem.single, bound y.penalty) : xs = ys := by
  rw [within_eq_self hx, within_eq_self hy] at same
  exact List.map_injective_iff.mpr (fun _ _ => Stem.single_inj) same

theorem within_addStems {bound : Penalty → Prop} (down : Down bound) {xs xs' ys ys' : List Stem}
    (hx : Ranked Stem.penalty xs) (hx' : Ranked Stem.penalty xs') (hy : Ranked Stem.penalty ys)
    (hy' : Ranked Stem.penalty ys') (old : within Stem.penalty bound xs = within Stem.penalty bound xs')
    (new : within Stem.penalty bound ys = within Stem.penalty bound ys') :
    within Stem.penalty bound (b.addStems xs ys) = within Stem.penalty bound (b.addStems xs' ys') := by
  rw [Source.addStems, Source.addStems, within_cheapest down hx hy, within_cheapest down hx' hy', old, new]

theorem within_addTrees {bound : Penalty → Prop} (down : Down bound) {xs xs' ys ys' : List Tree}
    (hx : Ranked Stem.penalty (xs.map .single)) (hx' : Ranked Stem.penalty (xs'.map .single))
    (hy : Ranked Stem.penalty (ys.map .single)) (hy' : Ranked Stem.penalty (ys'.map .single))
    (old : within Stem.penalty bound (xs.map .single) = within Stem.penalty bound (xs'.map .single))
    (new : within Stem.penalty bound (ys.map .single) = within Stem.penalty bound (ys'.map .single)) :
    within Stem.penalty bound ((b.addTrees xs ys).map .single) =
      within Stem.penalty bound ((b.addTrees xs' ys').map .single) := by
  rw [addTrees_single, addTrees_single, within_cheapest down hx hy, within_cheapest down hx' hy', old, new]

/-- Finished items agree where their stems do. -/
theorem within_finish {ref : ItemRef} {item : Item} {target : Target} (place : itemAt b.states ref = some item)
    (done : item.key.op = .complete target) {xs ys : List Stem}
    (same : within Stem.penalty (Clear b input avoid (.stems ref)) xs =
      within Stem.penalty (Clear b input avoid (.stems ref)) ys) :
    within Stem.penalty (ClearBelow b input avoid (.trees ref)) ((b.finish ref xs).map .single) =
      within Stem.penalty (ClearBelow b input avoid (.trees ref)) ((b.finish ref ys).map .single) := by
  let cost (s : Stem) : Penalty := s.penalty + b.grammar.targetPenalty item.key.owner.target
  let tree (s : Stem) : Tree := nodeOf b.grammar item.key ref.state s.penalty s.children
  have finish (zs : List Stem) : b.finish ref zs = (within cost (· ≤ b.maxPenalty) zs).map tree := by
    rw [Source.finish, show b.item? ref = some item from place, within_eq_filter]
    exact filterMap_ite ..
  have cheap (zs : List Stem) : within cost (ClearBelow b input avoid (.trees ref))
      (within Stem.penalty (Clear b input avoid (.stems ref)) zs) =
        within cost (ClearBelow b input avoid (.trees ref)) (within cost (· ≤ b.maxPenalty) zs) := by
    have first (s : Stem) (clear : ClearBelow b input avoid (.trees ref) (cost s)) :
        Clear b input avoid (.stems ref) s.penalty := by
      refine clear.next (.tree place done) ?_
      rw [Penalty.add_comm]
      exact Nat.le_refl _
    exact (within_within fun s _ => first s).trans (within_within fun s _ clear => clear.cheap).symm
  rw [finish, finish, List.map_map, List.map_map, within_map, within_map]
  exact congrArg _ ((cheap xs).symm.trans ((congrArg _ same).trans (cheap ys)))

structure Listed (b : Source) (input : List Token) (goal : Goal) (xs : List Stem) : Prop where
  sound : ∀ x ∈ xs, Sound b.grammar input b.states goal x
  ranked : Ranked Stem.penalty xs

theorem Concluded.listed {active : Active} {results : List Stem} {cut : Option Nat} {memo : Memo}
    (h : Concluded b input active goal results cut memo) : Listed b input goal results :=
  ⟨h.results.ok, h.results.ranked⟩

theorem Answers.Valid.child {fuel : Nat} {answers : Answers} (valid : answers.Valid b input fuel) {active : Active}
    {memo : Memo} (fits : active.Valid b.grammar b.states) (enough : b.goalBound ≤ fuel + active.depth)
    (known : MemoValid b input memo) {j : Nat} {child : Child} (posed : Posed b.grammar b.states goal)
    (asks : childGoal j child = some goal) :
    Listed b input goal ((answers.child active memo j child).results.map .single) := by
  cases child with
  | completed c =>
    cases asks
    exact (valid.trees fits enough known posed).listed
  | null target =>
    cases asks
    exact (valid.nulls fits enough known posed).listed
  | token => cases asks
  | empty => cases asks

theorem ranked_through {ref : ItemRef} {link : Link} {stems : List Stem} {trees : List Tree}
    (first : Listed b input (.stems link.previous) stems)
    (inner : ∀ goal, childGoal ref.state link.child = some goal → Listed b input goal (trees.map .single)) :
    Ranked Stem.penalty (b.through ref link stems trees) := by
  rw [Source.through]
  cases child : link.child with
  | empty => exact first.ranked
  | token =>
    cases b.leaf? ref.state with
    | none => exact .nil
    | some leaf => exact (pairs_top first.ranked (by simp [Ranked])).ranked
  | completed c => exact (pairs_top first.ranked (ranked_single (inner (.trees c) (by rw [child]; rfl)).ranked)).ranked
  | null target =>
    exact (pairs_top first.ranked (ranked_single (inner (.nulls ref.state target) (by rw [child]; rfl)).ranked)).ranked

/-- What a link leads to agrees where the stems before it and the trees it stepped over do. -/
theorem within_through {ref : ItemRef} {item : Item} {link : Link} (place : itemAt b.states ref = some item)
    (member : link ∈ item.links) {stems stems' : List Stem} {trees trees' : List Tree}
    (first : Listed b input (.stems link.previous) stems) (first' : Listed b input (.stems link.previous) stems')
    (before : within Stem.penalty (Clear b input avoid (.stems link.previous)) stems =
      within Stem.penalty (Clear b input avoid (.stems link.previous)) stems')
    (inner : ∀ goal, childGoal ref.state link.child = some goal → Listed b input goal (trees.map .single) ∧
      Listed b input goal (trees'.map .single) ∧
      within Stem.penalty (Clear b input avoid goal) (trees.map .single) =
        within Stem.penalty (Clear b input avoid goal) (trees'.map .single)) :
    within Stem.penalty (ClearBelow b input avoid (.stems ref)) (b.through ref link stems trees) =
      within Stem.penalty (ClearBelow b input avoid (.stems ref)) (b.through ref link stems' trees') := by
  have pair (goal : Goal) (asks : childGoal ref.state link.child = some goal) :
      within Stem.penalty (ClearBelow b input avoid (.stems ref)) (pairs b.limit b.maxPenalty stems trees) =
        within Stem.penalty (ClearBelow b input avoid (.stems ref)) (pairs b.limit b.maxPenalty stems' trees') := by
    obtain ⟨second, second', same⟩ := inner goal asks
    have parts {xs : List Stem} {us : List Tree} (hx : Listed b input (.stems link.previous) xs)
        (hu : Listed b input goal (us.map .single)) : ∀ s ∈ xs, ∀ t ∈ us,
        ClearBelow b input avoid (.stems ref) (s.penalty + t.penalty) →
          Clear b input avoid (.stems link.previous) s.penalty ∧ Clear b input avoid goal t.penalty := by
      intro s stem t tree clear
      refine ⟨clear.next (.before place member asks (hu.sound _ (List.mem_map_of_mem tree))) ?_,
        clear.next (.child place member asks (hx.sound s stem)) (Nat.le_refl _)⟩
      rw [Penalty.add_comm]
      exact Nat.le_refl _
    rw [within_pairs clearBelow_down clear_down clear_down first.ranked (ranked_single second.ranked)
      (parts first second), within_pairs clearBelow_down clear_down clear_down first'.ranked
      (ranked_single second'.ranked) (parts first' second'), before, within_trees same]
  rw [Source.through, Source.through]
  cases child : link.child with
  | empty => exact within_narrow (fun p clear => clear.next (.pass place member child) (by simp)) before
  | token =>
    cases b.leaf? ref.state with
    | none => rfl
    | some leaf =>
      have parts (xs : List Stem) : ∀ s ∈ xs, ∀ t ∈ [leaf],
          ClearBelow b input avoid (.stems ref) (s.penalty + t.penalty) →
            Clear b input avoid (.stems link.previous) s.penalty ∧ True := by
        intro s _ t _ clear
        refine ⟨clear.next (.scan place member child) ?_, trivial⟩
        rw [Penalty.zero_add]
        exact Penalty.le_add_right _ _
      have alone : Ranked Tree.penalty [leaf] := by simp [Ranked]
      have any : Down fun _ => True := fun _ _ => trivial
      dsimp only
      rw [within_pairs clearBelow_down clear_down any first.ranked alone (parts stems),
        within_pairs clearBelow_down clear_down any first'.ranked alone (parts stems'), before]
  | completed c => exact pair (.trees c) (by rw [child]; rfl)
  | null target => exact pair (.nulls ref.state target) (by rw [child]; rfl)

end Earley.Forest
