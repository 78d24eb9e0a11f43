import Earley.Proofs.ForestClear
import Earley.Proofs.ForestExactness
import Earley.Proofs.ForestUncached

/-!
# Memory that changes nothing

As far as a list of results is clear of the goals it was cut at, it does not depend on what was being worked on. Where
every way from a goal back to itself is too dear, a search therefore finds the same trees in the same order whether it
remembers any or not (`forest_eq_uncachedForest`). Where rules derive each other for free it need not: what is
remembered can contain the goal below which it is used.
-/

namespace Earley

namespace Forest

open Chart

variable {b : Source} {start : RuleId} {input : List Token} {avoid : Set Goal} {goal : Goal}

def Source.unaided (b : Source) (fuel : Nat) (active : Active) : Goal → List Stem
  | .stems ref => ((b.uncached fuel).forgetful.stems active .blank ref).results
  | .trees ref => ((b.uncached fuel).forgetful.trees active .blank ref).results.map .single
  | .nulls j target => ((b.uncached fuel).forgetful.nulls active .blank j target).results.map .single

theorem unaided_trees {fuel : Nat} {active : Active} {ref : ItemRef} (idle : active.depth? (.trees ref) = none) :
    b.unaided (fuel + 1) active (.trees ref) =
      (b.finish ref (b.unaided fuel (active.push (.trees ref)) (.stems ref))).map .single := by
  rcases treesWith_cases b (b.uncached fuel).forgetful active .blank ref with
    ⟨hit, found, -⟩ | ⟨d, busy, -⟩ | ⟨-, result⟩
  · simp [Memo.blank] at found
  · cases idle.symm.trans busy
  · change ((b.treesWith (b.uncached fuel).forgetful active .blank ref).results).map Stem.single = _
    rw [result, results_settled]
    rfl

theorem unaided_stems {fuel : Nat} {active : Active} {ref : ItemRef} {item : Item} (place : b.item? ref = some item)
    (linked : item.links ≠ #[]) (idle : active.depth? (.stems ref) = none) :
    b.unaided (fuel + 1) active (.stems ref) = (item.links.toList.foldl
      (b.followLink (b.uncached fuel).forgetful (active.push (.stems ref)) ref) ⟨[], none, .blank⟩).results := by
  rcases stemsWith_cases b (b.uncached fuel).forgetful active .blank place with
    ⟨hit, found, -⟩ | ⟨opening, -⟩ | ⟨-, d, busy, -⟩ | ⟨-, -, result⟩
  · simp [Memo.blank] at found
  · exact absurd opening linked
  · cases idle.symm.trans busy
  · change (b.stemsWith (b.uncached fuel).forgetful active .blank ref).results = _
    rw [result, results_settled, Array.foldl_toList]

theorem unaided_opening {fuel : Nat} {active : Active} {ref : ItemRef} {item : Item} (place : b.item? ref = some item)
    (opening : item.links = #[]) : b.unaided (fuel + 1) active (.stems ref) = [.empty] := by
  rcases stemsWith_cases b (b.uncached fuel).forgetful active .blank place with
    ⟨hit, found, -⟩ | ⟨-, result⟩ | ⟨linked, -⟩ | ⟨linked, -⟩
  · simp [Memo.blank] at found
  · exact congrArg Found.results result
  · exact absurd opening linked
  · exact absurd opening linked

theorem unaided_nulls {fuel : Nat} {active : Active} {j : Nat} {target : Target}
    (idle : active.depth? (.nulls j target) = none) :
    b.unaided (fuel + 1) active (.nulls j target) = (b.addTrees ((b.emptyCompletions j target).foldl
      (b.followCompletion (b.uncached fuel).forgetful (active.push (.nulls j target))) ⟨[], none, .blank⟩).results
      (b.bareTrees j target)).map .single := by
  rcases nullsWith_cases b (b.uncached fuel).forgetful active .blank j target with
    ⟨hit, found, -⟩ | ⟨d, busy, -⟩ | ⟨-, result⟩
  · simp [Memo.blank] at found
  · cases idle.symm.trans busy
  · change ((b.nullsWith (b.uncached fuel).forgetful active .blank j target).results).map Stem.single = _
    rw [result, results_settled]

/-- As far as it is clear of the goals to be avoided, the list is what is found without memory, whatever else is being
worked on. -/
def Agrees (b : Source) (input : List Token) (avoid : Set Goal) (goal : Goal) (xs : List Stem) : Prop :=
  ∀ (fuel : Nat) (active : Active), active.Valid b.grammar b.states → b.goalBound ≤ fuel + active.depth →
    within Stem.penalty (Clear b input (avoid ∪ active.goals) goal) xs =
      within Stem.penalty (Clear b input (avoid ∪ active.goals) goal) (b.unaided fuel active goal)

theorem Agrees.antitone {more : Set Goal} {xs : List Stem} (h : Agrees b input avoid goal xs) (sub : avoid ⊆ more) :
    Agrees b input more goal xs := fun fuel active fits enough =>
  within_narrow (fun _ clear => clear.antitone (Set.union_subset_union_left _ sub)) (h fuel active fits enough)

/-- Only a search that is not yet working on the goal has to be considered. -/
theorem agrees_of_idle {xs : List Stem}
    (step : ∀ (fuel : Nat) (active : Active), active.Valid b.grammar b.states → b.goalBound ≤ fuel + 1 + active.depth →
      active.depth? goal = none → within Stem.penalty (Clear b input (avoid ∪ active.goals) goal) xs =
        within Stem.penalty (Clear b input (avoid ∪ active.goals) goal) (b.unaided (fuel + 1) active goal)) :
    Agrees b input avoid goal xs := by
  intro fuel active fits enough
  cases idle : active.depth? goal with
  | some d =>
    have member : goal ∈ avoid ∪ active.goals := .inr ⟨d, idle⟩
    rw [within_clear_eq_nil member, within_clear_eq_nil member]
  | none =>
    cases fuel with
    | zero => exact absurd enough fits.not_exhausted
    | succ fuel => exact step fuel active fits enough idle

theorem agrees_of_mem (member : goal ∈ avoid) (xs : List Stem) : Agrees b input avoid goal xs := by
  intro fuel active _ _
  rw [within_clear_eq_nil (.inl member), within_clear_eq_nil (.inl member)]

structure MemoAgrees (b : Source) (input : List Token) (memo : Memo) : Prop where
  stems : ∀ {ref hit}, memo.stems.find? ref = some hit → Agrees b input ∅ (.stems ref) hit
  trees : ∀ {goal hit}, memo.trees.find? goal = some hit → Agrees b input ∅ goal (hit.map .single)

/-- The results for a goal are what is found without memory, as far as they were not cut. -/
structure Matched (b : Source) (input : List Token) (active : Active) (goal : Goal) (results : List Stem)
    (cut : Option Nat) (memo : Memo) : Prop where
  memo : MemoAgrees b input memo
  results : Agrees b input (avoided active cut) goal results

/-- Answers as they are found without memory while no more goals than `fuel` are left. -/
structure Answers.Faithful (b : Source) (input : List Token) (fuel : Nat) (answers : Answers) : Prop where
  stems : ∀ {active memo ref}, active.Valid b.grammar b.states → b.goalBound ≤ fuel + active.depth →
    MemoValid b input memo → MemoAgrees b input memo → Posed b.grammar b.states (.stems ref) →
    Matched b input active (.stems ref) (answers.stems active memo ref).results (answers.stems active memo ref).cut
      (answers.stems active memo ref).memo
  trees : ∀ {active memo ref}, active.Valid b.grammar b.states → b.goalBound ≤ fuel + active.depth →
    MemoValid b input memo → MemoAgrees b input memo → Posed b.grammar b.states (.trees ref) →
    Matched b input active (.trees ref) ((answers.trees active memo ref).results.map .single)
      (answers.trees active memo ref).cut (answers.trees active memo ref).memo
  nulls : ∀ {active memo j target}, active.Valid b.grammar b.states → b.goalBound ≤ fuel + active.depth →
    MemoValid b input memo → MemoAgrees b input memo → Posed b.grammar b.states (.nulls j target) →
    Matched b input active (.nulls j target) ((answers.nulls active memo j target).results.map .single)
      (answers.nulls active memo j target).cut (answers.nulls active memo j target).memo

theorem blank_agrees : MemoAgrees b input .blank :=
  ⟨by simp [Memo.blank], by simp [Memo.blank]⟩

theorem MemoAgrees.keepStems {memo : Memo} (h : MemoAgrees b input memo) {ref : ItemRef} {found : List Stem}
    (new : Agrees b input ∅ (.stems ref) found) : MemoAgrees b input (memo.keepStems ref found) := by
  refine ⟨fun {other hit} here => ?_, h.trees⟩
  rw [Memo.keepStems, Index.find?_insert] at here
  split at here
  case isTrue same =>
    cases here
    exact same ▸ new
  case isFalse => exact h.stems here

theorem MemoAgrees.keepTrees {memo : Memo} (h : MemoAgrees b input memo) {found : List Tree}
    (new : Agrees b input ∅ goal (found.map .single)) : MemoAgrees b input (memo.keepTrees goal found) := by
  refine ⟨h.stems, fun {other hit} here => ?_⟩
  rw [Memo.keepTrees, Index.find?_insert] at here
  split at here
  case isTrue same =>
    cases here
    exact same ▸ new
  case isFalse => exact h.trees here

theorem matched_hit {active : Active} {memo : Memo} {found : List Stem} (h : MemoAgrees b input memo)
    (hit : Agrees b input ∅ goal found) : Matched b input active goal found none memo :=
  ⟨h, by rwa [avoided_none]⟩

theorem matched_cut {active : Active} {memo : Memo} {d : Nat} (h : MemoAgrees b input memo)
    (busy : active.depth? goal = some d) : Matched b input active goal [] (some d) memo :=
  ⟨h, agrees_of_mem (show goal ∈ avoided active (some d) from ⟨d, d, rfl, busy, Nat.le_refl d⟩) []⟩

theorem matched_settled_trees {active : Active} {memo : Memo} {found : List Tree} {cut : Option Nat}
    (h : MemoAgrees b input memo)
    (new : Agrees b input (avoided active (outerCut active.depth cut)) goal (found.map .single)) :
    let result := settled active.depth (·.keepTrees goal) found cut memo
    Matched b input active goal (result.results.map .single) result.cut result.memo := by
  rw [settled]
  generalize outerCut active.depth cut = outer at *
  cases outer with
  | none => exact ⟨h.keepTrees (by rwa [avoided_none] at new), new⟩
  | some d => exact ⟨h, new⟩

theorem matched_settled_stems {active : Active} {memo : Memo} {ref : ItemRef} {found : List Stem} {cut : Option Nat}
    (h : MemoAgrees b input memo)
    (new : Agrees b input (avoided active (outerCut active.depth cut)) (.stems ref) found) :
    let result := settled active.depth (·.keepStems ref) found cut memo
    Matched b input active (.stems ref) result.results result.cut result.memo := by
  rw [settled]
  generalize outerCut active.depth cut = outer at *
  cases outer with
  | none => exact ⟨h.keepStems (by rwa [avoided_none] at new), new⟩
  | some d => exact ⟨h, new⟩

/-- A search that remembers nothing finds what it should. -/
theorem uncached_valid (h : b.Valid start input) (fuel : Nat) :
    (b.uncached fuel).forgetful.Valid b input fuel := by
  induction fuel with
  | zero =>
    exact ⟨fun fits enough => absurd enough fits.not_exhausted, fun fits enough => absurd enough fits.not_exhausted,
      fun fits enough => absurd enough fits.not_exhausted⟩
  | succ fuel ih =>
    exact ⟨fun fits enough _ => stemsWith_concluded h ih fits enough blank_valid,
      fun fits enough _ => treesWith_concluded h ih fits enough blank_valid,
      fun fits enough _ => nullsWith_concluded h ih fits enough blank_valid⟩

theorem treesWith_matched (above : CyclesAbove b.grammar input b.states b.maxPenalty) {fuel : Nat} {answers : Answers}
    (faithful : answers.Faithful b input fuel) {active : Active} {memo : Memo} {ref : ItemRef}
    (fits : active.Valid b.grammar b.states) (enough : b.goalBound ≤ fuel + 1 + active.depth)
    (known : MemoValid b input memo) (kept : MemoAgrees b input memo) (posed : Posed b.grammar b.states (.trees ref)) :
    Matched b input active (.trees ref) ((b.treesWith answers active memo ref).results.map .single)
      (b.treesWith answers active memo ref).cut (b.treesWith answers active memo ref).memo := by
  obtain ⟨item, target, place, done⟩ := id posed
  rcases treesWith_cases b answers active memo ref with ⟨hit, found, result⟩ | ⟨d, busy, result⟩ | ⟨idle, result⟩
  · rw [result]
    exact matched_hit kept (kept.trees found)
  · rw [result]
    exact matched_cut kept busy
  · rw [result]
    have inner := faithful.stems (fits.push posed idle) (by simp only [Active.push]; omega) known kept ⟨item, place⟩
    refine matched_settled_trees inner.memo (agrees_of_idle fun fuel' active' fits' enough' idle' => ?_)
    have same := inner.results fuel' _ (fits'.push posed idle') (by simp only [Active.push]; omega)
    rw [unaided_trees idle']
    exact within_narrow (fun _ clear => clear.pushed above fits) (within_finish place done same)

structure Followed (b : Source) (input : List Token) (active : Active) (ref : ItemRef) (links : List Link)
    (found : Found Stem) : Prop where
  gathered : Gathered b input active ref links found
  memo : MemoAgrees b input found.memo
  agrees : ∀ (fuel : Nat) (other : Active), other.Valid b.grammar b.states → b.goalBound ≤ fuel + other.depth →
    let unaided := links.foldl (b.followLink (b.uncached fuel).forgetful other ref) ⟨[], none, .blank⟩
    Gathered b input other ref links unaided ∧
      within Stem.penalty (ClearBelow b input (avoided active found.cut ∪ other.goals) (.stems ref)) found.results =
        within Stem.penalty (ClearBelow b input (avoided active found.cut ∪ other.goals) (.stems ref)) unaided.results

theorem Answers.Faithful.child {fuel : Nat} {answers : Answers} (faithful : answers.Faithful b input fuel)
    {active : Active} {memo : Memo} (fits : active.Valid b.grammar b.states)
    (enough : b.goalBound ≤ fuel + active.depth) (known : MemoValid b input memo) (kept : MemoAgrees b input memo)
    {j : Nat} {child : Child}
    (posed : ∀ goal, childGoal j child = some goal → Posed b.grammar b.states goal) :
    let second := answers.child active memo j child
    MemoAgrees b input second.memo ∧ ∀ goal, childGoal j child = some goal →
      Agrees b input (avoided active second.cut) goal (second.results.map .single) := by
  cases child with
  | completed c =>
    have inner := faithful.trees fits enough known kept (posed _ rfl)
    refine ⟨inner.memo, fun goal asks => ?_⟩
    cases asks
    exact inner.results
  | null target =>
    have inner := faithful.nulls fits enough known kept (posed _ rfl)
    refine ⟨inner.memo, fun goal asks => ?_⟩
    cases asks
    exact inner.results
  | token => exact ⟨kept, fun goal asks => by cases asks⟩
  | empty => exact ⟨kept, fun goal asks => by cases asks⟩

theorem unaided_child {fuel : Nat} {active : Active} {memo : Memo} {j : Nat} {child : Child}
    (asks : childGoal j child = some goal) :
    ((b.uncached fuel).forgetful.child active memo j child).results.map .single = b.unaided fuel active goal := by
  cases child <;> cases asks <;> rfl

/-- One more link followed, with memory and without. -/
theorem followed_next (h : b.Valid start input) {fuel : Nat} {answers : Answers} (valid : answers.Valid b input fuel)
    (faithful : answers.Faithful b input fuel) {active : Active} (fits : active.Valid b.grammar b.states)
    (enough : b.goalBound ≤ fuel + active.depth) {ref : ItemRef} {item : Item} {links : List Link} {link : Link}
    {found : Found Stem} (place : itemAt b.states ref = some item)
    (inside : ∀ other ∈ links ++ [link], other ∈ item.links) (fresh : link ∉ links)
    (now : Followed b input active ref links found) :
    Followed b input active ref (links ++ [link]) (b.followLink answers active ref found link) := by
  have member := inside link (by simp)
  obtain ⟨previous, child⟩ := posed_link h place member
  have first := valid.stems fits enough now.gathered.memo previous
  have agreed := faithful.stems fits enough now.gathered.memo now.memo previous
  obtain ⟨kept, agreed'⟩ := faithful.child fits enough first.memo agreed.memo child
  have short := now.gathered.results.short
  refine ⟨gathered_next h valid fits enough place inside fresh now.gathered, ?_, fun fuel' other fits' enough' => ?_⟩
  · rcases followLink_cases b answers active ref link short with ⟨-, same⟩ | same
    · rw [same]
      exact agreed.memo
    · rw [same]
      exact kept
  · have valid' := uncached_valid h fuel'
    obtain ⟨gathered, same⟩ := now.agrees fuel' other fits' enough'
    rw [List.foldl_concat]
    refine ⟨gathered_next h valid' fits' enough' place inside fresh gathered, ?_⟩
    generalize links.foldl _ _ = before at *
    have first' := valid'.stems fits' enough' gathered.memo previous
    have second' (goal : Goal) (asks : childGoal ref.state link.child = some goal) :=
      valid'.child fits' enough' first'.memo (child goal asks) asks
    have older {cut : Option Nat} (sub : avoided active found.cut ⊆ avoided active cut) := within_narrow
      (fun _ (clear : ClearBelow b input _ (.stems ref) _) => clear.antitone (Set.union_subset_union_left _ sub)) same
    have left := avoided_shallower_left active found.cut (answers.stems active found.memo link.previous).cut
    have right := avoided_shallower_right active found.cut (answers.stems active found.memo link.previous).cut
    rw [results_followLink b _ other ref link gathered.results.short]
    rcases followLink_cases b answers active ref link short with ⟨none, result⟩ | result
    · -- There are no stems to pair, so any trees will do, those without memory for one.
      rw [result]
      have first := first.listed
      have agreed := agreed.results.antitone right fuel' other fits' enough'
      rw [none] at first agreed
      refine Eq.trans (congrArg _ ?_) (within_addStems clearBelow_down now.gathered.results.ranked
        gathered.results.ranked (ranked_through first second') (ranked_through first'.listed second') (older left)
        (within_through place member first first'.listed agreed
          fun goal asks => ⟨second' goal asks, second' goal asks, rfl⟩))
      rw [through_nil, addStems_nil b short]
    · rw [result]
      have second (goal : Goal) (asks : childGoal ref.state link.child = some goal) :=
        valid.child fits enough first.memo (child goal asks) asks
      generalize answers.child active _ ref.state link.child = inner at *
      have left' := avoided_shallower_left active
        (shallower found.cut (answers.stems active found.memo link.previous).cut) inner.cut
      refine within_addStems clearBelow_down now.gathered.results.ranked gathered.results.ranked
        (ranked_through first.listed second) (ranked_through first'.listed second') (older (left.trans left'))
        (within_through place member first.listed first'.listed
          (agreed.results.antitone (right.trans left') fuel' other fits' enough')
          fun goal asks => ⟨second goal asks, second' goal asks, ?_⟩)
      rw [unaided_child asks]
      exact (agreed' goal asks).antitone (avoided_shallower_right ..) fuel' other fits' enough'

theorem followed_all (h : b.Valid start input) {fuel : Nat} {answers : Answers} (valid : answers.Valid b input fuel)
    (faithful : answers.Faithful b input fuel) {active : Active} {memo : Memo} (fits : active.Valid b.grammar b.states)
    (enough : b.goalBound ≤ fuel + active.depth) (known : MemoValid b input memo) (kept : MemoAgrees b input memo)
    {ref : ItemRef} {item : Item} (place : itemAt b.states ref = some item) :
    Followed b input active ref item.links.toList
      (item.links.foldl (b.followLink answers active ref) ⟨[], none, memo⟩) := by
  rw [← Array.foldl_toList]
  apply foldl_done (h.charted.valid.itemAt place).distinct
  · intro done link found inside fresh now
    exact followed_next h valid faithful fits enough place
      (fun other member => Array.mem_toList_iff.mp (inside other member)) fresh now
  · exact ⟨⟨known, best_nil (by simp)⟩, kept, fun _ _ _ _ => ⟨⟨blank_valid, best_nil (by simp)⟩, rfl⟩⟩

theorem stemsWith_matched (h : b.Valid start input) (above : CyclesAbove b.grammar input b.states b.maxPenalty)
    {fuel : Nat} {answers : Answers} (valid : answers.Valid b input fuel) (faithful : answers.Faithful b input fuel)
    {active : Active} {memo : Memo} {ref : ItemRef} (fits : active.Valid b.grammar b.states)
    (enough : b.goalBound ≤ fuel + 1 + active.depth) (known : MemoValid b input memo) (kept : MemoAgrees b input memo)
    (posed : Posed b.grammar b.states (.stems ref)) :
    Matched b input active (.stems ref) (b.stemsWith answers active memo ref).results
      (b.stemsWith answers active memo ref).cut (b.stemsWith answers active memo ref).memo := by
  obtain ⟨item, place⟩ := id posed
  have place' : b.item? ref = some item := place
  rcases stemsWith_cases b answers active memo place' with
    ⟨hit, found, result⟩ | ⟨opening, result⟩ | ⟨-, d, busy, result⟩ | ⟨linked, idle, result⟩
  · rw [result]
    exact matched_hit kept (kept.stems found)
  · rw [result]
    have alone : Agrees b input ∅ (.stems ref) [.empty] := agrees_of_idle fun fuel' other _ _ _ => by
      rw [unaided_opening place' opening]
    exact ⟨kept.keepStems alone, by rwa [avoided_none]⟩
  · rw [result]
    exact matched_cut kept busy
  · rw [result]
    have inner := followed_all h valid faithful (fits.push posed idle) (by simp only [Active.push]; omega) known kept
      place
    refine matched_settled_stems inner.memo (agrees_of_idle fun fuel' other fits' enough' idle' => ?_)
    obtain ⟨-, same⟩ := inner.agrees fuel' _ (fits'.push posed idle') (by simp only [Active.push]; omega)
    rw [unaided_stems place' linked idle']
    exact within_narrow (fun _ clear => clear.pushed above fits) same

structure Tallied (b : Source) (input : List Token) (active : Active) (refs : List ItemRef) (found : Found Tree) :
    Prop where
  collected : Collected b input active refs found
  memo : MemoAgrees b input found.memo
  agrees : ∀ (fuel : Nat) (other : Active), other.Valid b.grammar b.states → b.goalBound ≤ fuel + other.depth →
    let unaided := refs.foldl (b.followCompletion (b.uncached fuel).forgetful other) ⟨[], none, .blank⟩
    Collected b input other refs unaided ∧
      within Stem.penalty (ClearAll b input (avoided active found.cut ∪ other.goals) refs) (found.results.map .single) =
        within Stem.penalty (ClearAll b input (avoided active found.cut ∪ other.goals) refs)
          (unaided.results.map .single)

/-- The trees of one more completed item, with memory and without. -/
theorem tallied_next (h : b.Valid start input) {fuel : Nat} {answers : Answers} (valid : answers.Valid b input fuel)
    (faithful : answers.Faithful b input fuel) {active : Active} (fits : active.Valid b.grammar b.states)
    (enough : b.goalBound ≤ fuel + active.depth) {refs : List ItemRef} {ref : ItemRef} {found : Found Tree}
    (now : Tallied b input active refs found) (posed : Posed b.grammar b.states (.trees ref)) (new : ref ∉ refs)
    (level : ∀ other ∈ refs, other.state = ref.state) :
    Tallied b input active (refs ++ [ref]) (b.followCompletion answers active found ref) := by
  have inner := valid.trees fits enough now.collected.memo posed
  have agreed := faithful.trees fits enough now.collected.memo now.memo posed
  refine ⟨collected_next h valid fits enough now.collected posed new level, agreed.memo,
    fun fuel' other fits' enough' => ?_⟩
  have valid' := uncached_valid h fuel'
  obtain ⟨collected, same⟩ := now.agrees fuel' other fits' enough'
  rw [List.foldl_concat]
  refine ⟨collected_next h valid' fits' enough' collected posed new level, ?_⟩
  generalize refs.foldl _ _ = before at *
  have inner' := valid'.trees fits' enough' collected.memo posed
  refine within_addTrees clearAll_down now.collected.results.ranked collected.results.ranked inner.results.ranked
    inner'.results.ranked (within_narrow (fun p clear other member => ?_) same)
    (within_narrow (fun p clear => clear ref (by simp))
      (agreed.results.antitone (avoided_shallower_right ..) fuel' other fits' enough'))
  exact (clear other (List.mem_append_left _ member)).antitone
    (Set.union_subset_union_left _ (avoided_shallower_left ..))

theorem tallied_all (h : b.Valid start input) {fuel : Nat} {answers : Answers} (valid : answers.Valid b input fuel)
    (faithful : answers.Faithful b input fuel) {active : Active} {memo : Memo} (fits : active.Valid b.grammar b.states)
    (enough : b.goalBound ≤ fuel + active.depth) (known : MemoValid b input memo) (kept : MemoAgrees b input memo)
    {refs : List ItemRef} {j : Nat} (distinct : refs.Nodup)
    (posed : ∀ ref ∈ refs, ref.state = j ∧ Posed b.grammar b.states (.trees ref)) :
    Tallied b input active refs (refs.foldl (b.followCompletion answers active) ⟨[], none, memo⟩) := by
  apply foldl_done distinct
  · intro done ref found inside fresh now
    have here := posed ref (inside ref (by simp))
    refine tallied_next h valid faithful fits enough now here.2 fresh fun other member => ?_
    exact (posed other (inside other (List.mem_append_left _ member))).1.trans here.1.symm
  · exact ⟨⟨known, best_nil (by simp)⟩, kept, fun _ _ _ _ => ⟨⟨blank_valid, best_nil (by simp)⟩, rfl⟩⟩

theorem nullsWith_matched (h : b.Valid start input) (above : CyclesAbove b.grammar input b.states b.maxPenalty)
    {fuel : Nat} {answers : Answers} (valid : answers.Valid b input fuel) (faithful : answers.Faithful b input fuel)
    {active : Active} {memo : Memo} {j : Nat} {target : Target} (fits : active.Valid b.grammar b.states)
    (enough : b.goalBound ≤ fuel + 1 + active.depth) (known : MemoValid b input memo) (kept : MemoAgrees b input memo)
    (posed : Posed b.grammar b.states (.nulls j target)) :
    Matched b input active (.nulls j target) ((b.nullsWith answers active memo j target).results.map .single)
      (b.nullsWith answers active memo j target).cut (b.nullsWith answers active memo j target).memo := by
  rcases nullsWith_cases b answers active memo j target with ⟨hit, found, result⟩ | ⟨d, busy, result⟩ | ⟨idle, result⟩
  · rw [result]
    exact matched_hit kept (kept.trees found)
  · rw [result]
    exact matched_cut kept busy
  · rw [result]
    have inner := tallied_all h valid faithful (fits.push posed idle) (by simp only [Active.push]; omega) known kept
      (nodup_emptyCompletions b j target) (j := j) fun ref member => by
        obtain ⟨item, found, state, done, -⟩ := mem_emptyCompletions.mp member
        exact ⟨state, item, target, found, done⟩
    refine matched_settled_trees inner.memo (agrees_of_idle fun fuel' other fits' enough' idle' => ?_)
    obtain ⟨collected, same⟩ := inner.agrees fuel' _ (fits'.push posed idle') (by simp only [Active.push]; omega)
    have bare := (bareTrees_best h j target).ranked
    rw [unaided_nulls idle']
    refine within_addTrees clear_down inner.collected.results.ranked collected.results.ranked bare bare
      (within_narrow (fun p clear ref member => ?_) same) rfl
    obtain ⟨item, place, rfl, done, narrow⟩ := mem_emptyCompletions.mp member
    exact (clear.pushed above fits).next (.completion place done narrow) (by simp)

/-- Where every way back to a goal is too dear, all answers are what is found without memory. -/
theorem answers_faithful (h : b.Valid start input) (above : CyclesAbove b.grammar input b.states b.maxPenalty)
    (fuel : Nat) : Answers.Faithful b input fuel ⟨b.stems fuel, b.trees fuel, b.nulls fuel⟩ := by
  induction fuel with
  | zero =>
    exact ⟨fun fits enough => absurd enough fits.not_exhausted, fun fits enough => absurd enough fits.not_exhausted,
      fun fits enough => absurd enough fits.not_exhausted⟩
  | succ fuel ih =>
    have valid := answers_valid h fuel
    refine ⟨fun fits enough known kept posed => ?_, fun fits enough known kept posed => ?_,
      fun fits enough known kept posed => ?_⟩
    · dsimp only
      rw [Source.stems]
      exact stemsWith_matched h above valid ih fits enough known kept posed
    · dsimp only
      rw [Source.trees]
      exact treesWith_matched above ih fits enough known kept posed
    · dsimp only
      rw [Source.nulls]
      exact nullsWith_matched h above valid ih fits enough known kept posed

theorem treesOf_eq_uncachedTreesOf (h : b.Valid start input)
    (above : CyclesAbove b.grammar input b.states b.maxPenalty) {refs : List ItemRef} {j : Nat} (distinct : refs.Nodup)
    (posed : ∀ ref ∈ refs, ref.state = j ∧ Posed b.grammar b.states (.trees ref)) :
    b.treesOf refs = b.uncachedTreesOf refs := by
  have all := tallied_all h (answers_valid h b.goalBound) (answers_faithful h above b.goalBound) Active.none_valid
    (by simp [Active.none]) blank_valid blank_agrees distinct posed
  obtain ⟨collected, same⟩ := all.agrees b.goalBound .none Active.none_valid (by simp [Active.none])
  refine eq_of_within same (fun x member ref _ => ?_) (fun x member ref _ => ?_)
  · exact clear_none (all.collected.results.cheap x member)
  · exact clear_none (collected.results.cheap x member)

theorem emptyTrees_eq_uncachedEmptyTrees (h : b.Valid start input)
    (above : CyclesAbove b.grammar input b.states b.maxPenalty) {r : RuleId}
    (posed : Posed b.grammar b.states (.nulls 0 (.rule r))) : b.emptyTrees r = b.uncachedEmptyTrees r := by
  have enough : b.goalBound ≤ b.goalBound + Active.none.depth := Nat.le_add_right ..
  have all := (answers_faithful h above b.goalBound).nulls Active.none_valid enough blank_valid blank_agrees posed
  have cached := (answers_valid h b.goalBound).nulls Active.none_valid enough blank_valid posed
  have uncached := (uncached_valid h b.goalBound).nulls Active.none_valid enough blank_valid posed
  refine eq_of_within (all.results b.goalBound .none Active.none_valid enough) (fun x member => ?_) (fun x member => ?_)
  · exact clear_none (cached.results.cheap x member)
  · exact clear_none (uncached.results.cheap x member)

end Forest

namespace Parser

open Chart Forest

/-- Where every derivation of a rule from itself, in a context that derives nothing, costs more than the settings
allow, the forest is what a search finds that remembers nothing, and no rule node lies inside one of the same rule,
production and span. -/
theorem forest_eq_uncachedForest (p p' : Parser) (start : RuleId) (tokens : List Token) (outcome : Recognition)
    (reachable : Reachable p.grammar) (fresh : p.states = #[]) (starts : p.grammar.start = some start)
    (ran : (run tokens).run p = .ok outcome p') (config : Config)
    (dear : ∀ r c, p.grammar.Encloses (.symbol (.rule r)) (.symbol (.rule r)) c → config.maxPenalty < c) :
    let q := { p' with config := config }
    q.forest = q.uncachedForest ∧ ∀ t ∈ q.forest, t.Unnested := by
  intro q
  have unnested := uncachedForest_unnested reachable fresh starts ran config
  suffices same : q.forest = q.uncachedForest from ⟨same, by rwa [same]⟩
  obtain ⟨same, noted, failed, charted, ends, result⟩ := run_charted reachable fresh starts ran
  rw [← same] at charted reachable starts dear
  let b : Source := ⟨p'.grammar, p'.states, max config.maxTrees 1, config.maxPenalty⟩
  have valid : b.Valid start (tokens.takeWhile (!·.isFinish)) := ⟨charted, reachable.inScope, by simp [b]⟩
  have above : CyclesAbove b.grammar (tokens.takeWhile (!·.isFinish)) b.states b.maxPenalty :=
    cyclesAbove_of_encloses reachable.inScope charted.valid dear
  have starts' : q.grammar.start = some start := starts
  simp only [forest, cheapestTrees, uncachedForest, starts']
  split
  · rfl
  · split
    · obtain ⟨s, state, -⟩ := charted.begun
      exact emptyTrees_eq_uncachedEmptyTrees valid above
        ⟨(Array.getElem?_eq_some_iff.mp state).1, reachable.inScope.start starts⟩
    · refine treesOf_eq_uncachedTreesOf valid above (nodup_acceptingRefs q.states start) (j := q.states.size - 1)
        fun ref member => ?_
      obtain ⟨item, found, last, -, done⟩ := mem_acceptingRefs.mp member
      exact ⟨by omega, item, _, found, done⟩

theorem forest_loopGrammar_eq_uncachedForest :
    ∃ outcome p', (run [.ofChar 'a']).run (.new loopGrammar .exact) = .ok outcome p' ∧
      { p' with config := .exact }.forest = [loopTree] ∧
      { p' with config := .exact }.forest = { p' with config := .exact }.uncachedForest ∧ loopTree.Unnested := by
  obtain ⟨outcome, p', ran, single⟩ := run_loopGrammar_forest
  obtain ⟨same, unnested⟩ := forest_eq_uncachedForest (.new loopGrammar .exact) p' ⟨2⟩ [.ofChar 'a'] outcome
    loopGrammar_reachable rfl loopGrammar_start ran .exact loopGrammar_dear
  refine ⟨outcome, p', ran, single, same, unnested loopTree ?_⟩
  rw [single]
  exact List.mem_cons_self

/-- A grammar whose start rule derives a letter through either of two rules that derive each other for free. -/
def knotGrammar : Grammar :=
  let calls : List Call := [.rule "start", .rule "left", .rule "right", .addProduction ⟨2⟩ [.rule ⟨3⟩],
    .addProduction ⟨2⟩ [.rule ⟨4⟩], .addProduction ⟨3⟩ [.rule ⟨4⟩],
    .addProduction ⟨3⟩ [.usage (.terminal (.ofChar 'a'))], .addProduction ⟨4⟩ [.rule ⟨3⟩], .setStart ⟨2⟩]
  calls.foldl (fun g c => c.after g) (.empty false)

theorem knotGrammar_reachable : Reachable knotGrammar :=
  reachable_foldl (.empty false) _

theorem knotGrammar_start : knotGrammar.start = some ⟨2⟩ := by decide +kernel

def leftTree (below : Tree) (k : Nat) : Tree := .node (.rule ⟨3⟩ (some k)) ⟨0, 1⟩ 0 [below]

def rightTree (below : Tree) : Tree := .node (.rule ⟨4⟩ (some 0)) ⟨0, 1⟩ 0 [below]

/-- A tree in which the second rule lies below itself. -/
def knottedTree : Tree :=
  .node (.rule ⟨2⟩ (some 1)) ⟨0, 1⟩ 0 [rightTree (leftTree (rightTree (leftTree (.leaf (.ofChar 'a') 0) 1)) 0)]

theorem knottedTree_nested : ¬ knottedTree.Unnested := by
  intro h
  refine h (rightTree (leftTree (rightTree (leftTree (.leaf (.ofChar 'a') 0) 1)) 0)) ?_ ⟨4⟩ (some 0) rfl
    (leftTree (rightTree (leftTree (.leaf (.ofChar 'a') 0) 1)) 0) ?_ (rightTree (leftTree (.leaf (.ofChar 'a') 0) 1)) ?_
    rfl rfl <;> decide

/-- Where rules derive each other for free, memory changes the forest: the trees of the first rule are remembered from
before the second is worked on, and used below it although they contain it. -/
theorem forest_knotGrammar_nested :
    Reachable knotGrammar ∧ ∃ outcome p', (run [.ofChar 'a']).run (.new knotGrammar {}) = .ok outcome p' ∧
      p'.forest ≠ p'.uncachedForest ∧ knottedTree ∈ p'.forest ∧ ¬ knottedTree.Unnested := by
  refine ⟨knotGrammar_reachable, _, _, run_eq (.new knotGrammar {}) [.ofChar 'a'] rfl knotGrammar_start, ?_⟩
  have one_more : ∀ found unaided : List Tree, found = unaided ++ [knottedTree] →
      found ≠ unaided ∧ knottedTree ∈ found ∧ ¬ knottedTree.Unnested := by
    rintro found unaided rfl
    exact ⟨by simp, by simp, knottedTree_nested⟩
  apply one_more
  decide +kernel

end Parser

end Earley
