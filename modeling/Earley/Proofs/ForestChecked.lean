import Earley.Forest.Checked
import Earley.Proofs.ChartChecked
import Earley.Proofs.ForestSearch

/-!
# The search for trees never goes wrong

A goal that is posed is about a state and a target that there are, and leads to such goals only. No more goals are
nested than there are, so the fuel suffices. So the search that checks every access has the same result as the search
that does not.
-/

namespace Earley.Forest.Checked

open Chart Chart.Checked

variable {fits : Nat → Bool} {b : Source} {start : RuleId} {input : List Token}

theorem foldlM_eq {α β : Type} {step : β → α → Option β} {next : β → α → β} {as : List α}
    (same : ∀ a ∈ as, ∀ acc, step acc a = some (next acc a)) (acc : β) :
    as.foldlM step acc = some (as.foldl next acc) := by
  induction as generalizing acc with
  | nil => rfl
  | cons a as ih =>
    obtain ⟨first, others⟩ := List.forall_mem_cons.mp same
    simp [first, ih others]

/-- With at most `fuel` goals left, the checked answers to goals that are posed are the unchecked ones. -/
structure Answers.Agrees (b : Source) (fuel : Nat) (checked : Answers) (answers : Forest.Answers) : Prop where
  stems : ∀ {active ref}, active.Valid b.grammar b.states → b.goalBound ≤ fuel + active.depth →
    Posed b.grammar b.states (.stems ref) → ∀ memo, checked.stems active memo ref = some (answers.stems active memo ref)
  trees : ∀ {active ref}, active.Valid b.grammar b.states → b.goalBound ≤ fuel + active.depth →
    Posed b.grammar b.states (.trees ref) → ∀ memo, checked.trees active memo ref = some (answers.trees active memo ref)
  nulls : ∀ {active j target}, active.Valid b.grammar b.states → b.goalBound ≤ fuel + active.depth →
    Posed b.grammar b.states (.nulls j target) →
    ∀ memo, checked.nulls active memo j target = some (answers.nulls active memo j target)

theorem finish_eq (h : b.Valid start input) {ref : ItemRef} (posed : Posed b.grammar b.states (.trees ref))
    (stems : List Stem) : finish b ref stems = some (b.finish ref stems) := by
  obtain ⟨item, target, found, -⟩ := posed
  have place : b.item? ref = some item := found
  simp [finish, place, targetPenalty_eq (h.charted.valid.itemAt found).key.known_owner]

theorem leaf?_eq (i : Nat) : leaf? b (i + 1) = some (b.leaf? (i + 1)) := by
  unfold leaf? Source.leaf?
  cases b.states[i + 1]?.bind (·.token) <;> rfl

variable {fuel : Nat} {checked : Answers} {answers : Forest.Answers} {active : Active}

theorem treesWith_eq (h : b.Valid start input) (agrees : checked.Agrees b fuel answers) {ref : ItemRef}
    (valid : active.Valid b.grammar b.states) (enough : b.goalBound ≤ fuel + 1 + active.depth)
    (posed : Posed b.grammar b.states (.trees ref)) (memo : Memo) :
    treesWith b checked active memo ref = some (b.treesWith answers active memo ref) := by
  have ⟨item, target, found, done⟩ := posed
  obtain ⟨s, state, -⟩ := Option.bind_eq_some_iff.mp found
  simp only [treesWith, Source.treesWith, state, Option.bind_eq_bind, Option.bind_some]
  cases memo.trees.find? (.trees ref) with
  | some hit => rfl
  | none =>
    cases idle : active.depth? (.trees ref) with
    | some d => rfl
    | none =>
      have inner := agrees.stems (valid.push posed idle) (by simp only [Active.push]; omega) ⟨item, found⟩ memo
      simp only [inner, finish_eq h posed, Option.bind_some]
      cases outerCut active.depth (answers.stems (active.push (.trees ref)) memo ref).cut <;> rfl

theorem followLink_eq (h : b.Valid start input) (agrees : checked.Agrees b fuel answers)
    (valid : active.Valid b.grammar b.states) (enough : b.goalBound ≤ fuel + active.depth) {ref : ItemRef} {item : Item}
    (place : itemAt b.states ref = some item) {link : Link} (member : link ∈ item.links) (found : Found Stem) :
    followLink b checked active ref found link = some (b.followLink answers active ref found link) := by
  obtain ⟨before, posed⟩ := posed_link h place member
  obtain ⟨previous, linked⟩ := (h.charted.valid.itemAt place).link member
  have consumed := linked.child
  simp only [followLink, Source.followLink, agrees.stems valid enough before, Option.bind_eq_bind, Option.bind_some]
  split
  · rfl
  · cases child : link.child with
    | empty => rfl
    | token =>
      rw [child] at consumed
      cases consumed with
      | token next =>
        -- The token was read in the state before, so this one is not the first.
        simp only [← next, leaf?_eq, Option.bind_some]
        cases b.leaf? (link.previous.state + 1) <;> rfl
    | completed c =>
      simp only [agrees.trees valid enough (posed _ (by rw [child]; rfl)), Option.bind_some]
      rfl
    | null target =>
      simp only [agrees.nulls valid enough (posed _ (by rw [child]; rfl)), Option.bind_some]
      rfl

theorem stemsWith_eq (h : b.Valid start input) (agrees : checked.Agrees b fuel answers) {ref : ItemRef}
    (valid : active.Valid b.grammar b.states) (enough : b.goalBound ≤ fuel + 1 + active.depth)
    (posed : Posed b.grammar b.states (.stems ref)) (memo : Memo) :
    stemsWith b checked active memo ref = some (b.stemsWith answers active memo ref) := by
  have ⟨item, found⟩ := posed
  have place : b.item? ref = some item := found
  obtain ⟨s, state, -⟩ := Option.bind_eq_some_iff.mp found
  simp only [stemsWith, Source.stemsWith, state, place, Option.bind_eq_bind, Option.bind_some]
  cases memo.stems.find? ref with
  | some hit => rfl
  | none =>
    dsimp only
    split
    · rfl
    · cases idle : active.depth? (.stems ref) with
      | some d => rfl
      | none =>
        -- One goal more is being worked on, and one unit of fuel less is left.
        have enough' : b.goalBound ≤ fuel + (active.push (.stems ref)).depth := by simp only [Active.push]; omega
        have links := foldlM_eq (fun link member => followLink_eq h agrees (valid.push posed idle) enough' found
          (Array.mem_toList_iff.mp member)) ⟨[], none, memo⟩
        rw [Array.foldl_toList] at links
        simp only [links, Option.bind_some]
        generalize item.links.foldl _ _ = inner
        cases outerCut active.depth inner.cut <;> rfl

theorem followCompletion_eq (agrees : checked.Agrees b fuel answers) (valid : active.Valid b.grammar b.states)
    (enough : b.goalBound ≤ fuel + active.depth) {ref : ItemRef} (posed : Posed b.grammar b.states (.trees ref))
    (found : Found Tree) :
    followCompletion b checked active found ref = some (b.followCompletion answers active found ref) := by
  simp only [followCompletion, Source.followCompletion, agrees.trees valid enough posed, Option.bind_eq_bind,
    Option.bind_some]
  rfl

theorem nullsWith_eq (fit : ChartFits fits b.states) (agrees : checked.Agrees b fuel answers)
    {j : Nat} {target : Target} (valid : active.Valid b.grammar b.states)
    (enough : b.goalBound ≤ fuel + 1 + active.depth) (posed : Posed b.grammar b.states (.nulls j target))
    (memo : Memo) :
    nullsWith fits b checked active memo j target = some (b.nullsWith answers active memo j target) := by
  have ⟨bound, known⟩ := posed
  simp only [nullsWith, Source.nullsWith, Array.getElem?_eq_getElem bound, Option.bind_eq_bind, Option.bind_some]
  cases memo.trees.find? (.nulls j target) with
  | some hit => rfl
  | none =>
    cases idle : active.depth? (.nulls j target) with
    | some d => rfl
    | none =>
      have enough' : b.goalBound ≤ fuel + (active.push (.nulls j target)).depth := by simp only [Active.push]; omega
      have there : ∀ ref ∈ b.emptyCompletions j target, Posed b.grammar b.states (.trees ref) := by
        intro ref member
        obtain ⟨item, found, -, done, -⟩ := mem_emptyCompletions.mp member
        exact ⟨item, target, found, done⟩
      have numbers := refsTo_eq fit fun ref member => by
        obtain ⟨item, _, found, _⟩ := there ref member
        exact ⟨item, found⟩
      have completions := foldlM_eq (fun ref member => followCompletion_eq agrees (valid.push posed idle) enough'
        (there ref member)) ⟨[], none, memo⟩
      simp only [numbers, completions, targetPenalty_eq known, Option.bind_some]
      generalize (b.emptyCompletions j target).foldl _ _ = inner
      cases outerCut active.depth inner.cut <;> rfl

/-- With enough fuel, checking makes no difference. -/
theorem answers_agree (h : b.Valid start input) (fit : ChartFits fits b.states) (fuel : Nat) :
    (Checked.answers fits b fuel).Agrees b fuel ⟨b.stems fuel, b.trees fuel, b.nulls fuel⟩ := by
  induction fuel with
  | zero =>
    exact ⟨fun valid enough => absurd enough valid.not_exhausted, fun valid enough => absurd enough valid.not_exhausted,
      fun valid enough => absurd enough valid.not_exhausted⟩
  | succ fuel ih =>
    refine ⟨fun valid enough posed memo => ?_, fun valid enough posed memo => ?_, fun valid enough posed memo => ?_⟩
    · dsimp only
      rw [Source.stems]
      exact stemsWith_eq h ih valid enough posed memo
    · dsimp only
      rw [Source.trees]
      exact treesWith_eq h ih valid enough posed memo
    · dsimp only
      rw [Source.nulls]
      exact nullsWith_eq fit ih valid enough posed memo

theorem treesOf_eq (h : b.Valid start input) (fit : ChartFits fits b.states) {refs : List ItemRef}
    (posed : ∀ ref ∈ refs, Posed b.grammar b.states (.trees ref)) : treesOf fits b refs = some (b.treesOf refs) := by
  have all := foldlM_eq (fun ref member => followCompletion_eq (answers_agree h fit b.goalBound) Active.none_valid
    (by simp [Active.none]) (posed ref member)) ⟨[], none, .blank⟩
  simp only [treesOf, all, Option.bind_eq_bind, Option.bind_some]
  rfl

theorem emptyTrees_eq (h : b.Valid start input) (fit : ChartFits fits b.states) {r : RuleId}
    (posed : Posed b.grammar b.states (.nulls 0 (.rule r))) : emptyTrees fits b r = some (b.emptyTrees r) := by
  have found := (answers_agree h fit b.goalBound).nulls Active.none_valid (by simp [Active.none]) posed .blank
  simp only [emptyTrees, found, Option.bind_eq_bind, Option.bind_some]
  rfl

end Earley.Forest.Checked
