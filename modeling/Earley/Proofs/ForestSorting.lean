import Earley.Forest.Sorting
import Earley.Proofs.CheapestPairs

/-!
# Sorting once

Merging sorted lists one after another, each time cut to the limit, comes to the same as sorting all of them at the end,
as neither changes the order of what costs the same. All lists of the search are sorted, so it does not matter either
how the pairs of a link are found: the search that sorts once finds the same trees (`sortedTrees_eq`).
-/

namespace Earley

namespace Forest

open Chart

section Lists

variable {α : Type} {cost : α → Penalty} {limit : Nat} {as bs : List α}

theorem filter_mergeHead {a : α} {rest : List α → List α} {k : Penalty}
    (same : ∀ bs, (rest bs).filter (cost · = k) = as.filter (cost · = k) ++ bs.filter (cost · = k))
    (least : ∀ c ∈ a :: as, cost a ≤ cost c) (bs : List α) :
    (mergeHead cost a rest bs).filter (cost · = k) = (a :: as).filter (cost · = k) ++ bs.filter (cost · = k) := by
  induction bs with
  | nil => by_cases here : cost a = k <;> simp [mergeHead, here, same]
  | cons b bs ih =>
    unfold mergeHead
    split
    · by_cases here : cost a = k <;> simp [here, same]
    case isFalse less =>
      by_cases here : cost b = k
      · -- Nothing of the first list is as cheap as what goes before it.
        have none : (a :: as).filter (cost · = k) = [] := by
          refine List.filter_eq_nil_iff.mpr fun c member equal => less ?_
          rw [here, ← of_decide_eq_true equal]
          exact least c member
        simp [none, here, ih]
      · rw [List.filter_cons_of_neg (a := b) (by simpa using here), ih,
          List.filter_cons_of_neg (a := b) (by simpa using here)]

/-- Merging keeps those of one cost in order, those of the first list first. -/
theorem filter_merge (ha : Ranked cost as) (k : Penalty) (bs : List α) :
    (merge cost as bs).filter (cost · = k) = as.filter (cost · = k) ++ bs.filter (cost · = k) := by
  induction as generalizing bs with
  | nil => rfl
  | cons a as ih =>
    obtain ⟨least, rest⟩ := List.pairwise_cons.mp ha
    exact filter_mergeHead (ih rest) (List.forall_mem_cons.mpr ⟨Nat.le_refl _, least⟩) bs

/-- A sorted list is known by what it holds of each cost. -/
theorem Ranked.eq_of_filter (ha : Ranked cost as) (hb : Ranked cost bs)
    (same : ∀ k, as.filter (cost · = k) = bs.filter (cost · = k)) : as = bs := by
  induction as generalizing bs with
  | nil =>
    have none : ∀ b ∈ bs, cost b ≠ cost b := by simpa [eq_comm (a := []), List.filter_eq_nil_iff] using same
    exact (List.eq_nil_iff_forall_not_mem.mpr fun b member => none b member rfl).symm
  | cons a as ih =>
    cases bs with
    | nil => simpa using same (cost a)
    | cons b bs =>
      obtain ⟨least, rest⟩ := List.pairwise_cons.mp ha
      obtain ⟨least', rest'⟩ := List.pairwise_cons.mp hb
      have mem (c : α) : c ∈ a :: as ↔ c ∈ b :: bs := by simpa using congrArg (c ∈ ·) (same (cost c))
      have first : ∀ c ∈ a :: as, cost a ≤ cost c := List.forall_mem_cons.mpr ⟨Nat.le_refl _, least⟩
      have first' : ∀ c ∈ b :: bs, cost b ≤ cost c := List.forall_mem_cons.mpr ⟨Nat.le_refl _, least'⟩
      have le := first b ((mem b).mpr List.mem_cons_self)
      have ge := first' a ((mem a).mp List.mem_cons_self)
      have equal : cost b = cost a := Penalty.ext (Nat.le_antisymm ge le)
      obtain ⟨rfl, -⟩ : a = b ∧ _ := by simpa [equal] using same (cost a)
      refine congrArg (a :: ·) (ih rest rest' fun k => ?_)
      have same := same k
      by_cases here : cost a = k <;> simpa [here] using same

/-- Merging with a sorted list comes to sorting it together with all the others. -/
theorem merge_mergeSort (all : List α) (hb : Ranked cost bs) :
    merge cost (all.mergeSort fun a b => cost a ≤ cost b) bs = (all ++ bs).mergeSort fun a b => cost a ≤ cost b := by
  refine (merge_ranked (ranked_mergeSort cost all) hb).eq_of_filter (ranked_mergeSort cost _) fun k => ?_
  rw [filter_merge (ranked_mergeSort cost all), filter_mergeSort_cost, filter_mergeSort_cost, List.filter_append]

theorem cheapest_firstOf (all : List α) (hb : Ranked cost bs) :
    cheapest cost limit (firstOf cost limit all) bs = firstOf cost limit (all ++ bs) := by
  let sorted := all.mergeSort fun a b => cost a ≤ cost b
  -- What is left out of the first list early would be left out at the end as well.
  calc cheapest cost limit (sorted.take limit) bs
      = (cheapest cost limit (sorted.take limit) bs).take limit :=
        (List.take_of_length_le (length_cheapest_le ..)).symm
    _ = cheapest cost limit ((sorted.take limit).take limit) (bs.take limit) :=
        (take_cheapest (Nat.le_refl limit) _ _).symm
    _ = cheapest cost limit (sorted.take limit) (bs.take limit) := by rw [List.take_take, Nat.min_self]
    _ = (cheapest cost limit sorted bs).take limit := take_cheapest (Nat.le_refl limit) _ _
    _ = cheapest cost limit sorted bs := List.take_of_length_le (length_cheapest_le ..)
    _ = firstOf cost limit (all ++ bs) := by rw [cheapest, merge_mergeSort all hb, firstOf]

structure Tidy (cost : α → Penalty) (limit : Nat) (as : List α) : Prop where
  ranked : Ranked cost as
  short : as.length ≤ limit

theorem tidy_nil (cost : α → Penalty) (limit : Nat) : Tidy cost limit [] := ⟨.nil, Nat.zero_le _⟩

theorem tidy_firstOf (cost : α → Penalty) (limit : Nat) (all : List α) : Tidy cost limit (firstOf cost limit all) :=
  ⟨(ranked_mergeSort cost all).sublist (List.take_sublist _ _), List.length_take_le _ _⟩

theorem Tidy.firstOf_eq (h : Tidy cost limit as) : firstOf cost limit as = as := by
  rw [firstOf, List.mergeSort_of_pairwise (h.ranked.imp decide_eq_true), List.take_of_length_le h.short]

end Lists

section Search

variable {b : Source} {answers answers' : Answers}

structure Memo.Tidy (limit : Nat) (memo : Memo) : Prop where
  stems : ∀ {ref hit}, memo.stems.find? ref = some hit → Forest.Tidy Stem.penalty limit hit
  trees : ∀ {goal hit}, memo.trees.find? goal = some hit → Forest.Tidy Tree.penalty limit hit

/-- The same answer, sorted and no longer than the limit. -/
structure Found.Agrees {α : Type} (cost : α → Penalty) (limit : Nat) (found found' : Found α) : Prop where
  same : found' = found
  results : Tidy cost limit found.results
  memo : found.memo.Tidy limit

/-- Answers that agree as long as what is remembered is sorted and no longer than the limit. -/
structure Answers.Agree (limit : Nat) (answers answers' : Answers) : Prop where
  stems : ∀ active ref {memo}, memo.Tidy limit →
    (answers.stems active memo ref).Agrees Stem.penalty limit (answers'.stems active memo ref)
  trees : ∀ active ref {memo}, memo.Tidy limit →
    (answers.trees active memo ref).Agrees Tree.penalty limit (answers'.trees active memo ref)
  nulls : ∀ active state target {memo}, memo.Tidy limit →
    (answers.nulls active memo state target).Agrees Tree.penalty limit (answers'.nulls active memo state target)

/-- What is kept so far is the first of what has been collected so far. -/
structure Found.Collects {α : Type} (cost : α → Penalty) (limit : Nat) (kept all : Found α) : Prop where
  results : kept.results = firstOf cost limit all.results
  cut : kept.cut = all.cut
  memo : kept.memo = all.memo
  tidy : kept.memo.Tidy limit

variable {memo : Memo} {limit : Nat}

theorem tidy_finish (b : Source) (ref : ItemRef) {stems : List Stem} (h : Tidy Stem.penalty limit stems) :
    Tidy Tree.penalty limit (b.finish ref stems) := by
  refine ⟨ranked_finish b ref h.ranked, Nat.le_trans ?_ h.short⟩
  unfold Source.finish
  split
  · exact List.length_filterMap_le _ _
  · exact Nat.zero_le _

theorem blank_tidy (limit : Nat) : Memo.blank.Tidy limit := by
  constructor <;> simp [Memo.blank]

theorem Memo.Tidy.keepStems (h : memo.Tidy limit) (ref : ItemRef) {found : List Stem}
    (tidy : Forest.Tidy Stem.penalty limit found) : (memo.keepStems ref found).Tidy limit := by
  refine ⟨fun {other hit} known => ?_, h.trees⟩
  simp only [Memo.keepStems, Index.find?_insert] at known
  split at known
  · cases known
    exact tidy
  · exact h.stems known

theorem Memo.Tidy.keepTrees (h : memo.Tidy limit) (goal : Goal) {found : List Tree}
    (tidy : Forest.Tidy Tree.penalty limit found) : (memo.keepTrees goal found).Tidy limit := by
  refine ⟨h.stems, fun {other hit} known => ?_⟩
  simp only [Memo.keepTrees, Index.find?_insert] at known
  split at known
  · cases known
    exact tidy
  · exact h.trees known

theorem nothing_agrees {α : Type} (cost : α → Penalty) (known : memo.Tidy limit) (cut : Option Nat) :
    (⟨[], cut, memo⟩ : Found α).Agrees cost limit ⟨[], cut, memo⟩ :=
  ⟨rfl, tidy_nil .., known⟩

/-- What is remembered in the end is the same. -/
theorem Found.Collects.settled {α : Type} {cost : α → Penalty} {kept all : Found α} (h : kept.Collects cost limit all)
    (depth : Nat) {keep : Memo → List α → Memo}
    (keeps : ∀ {memo : Memo} {found}, memo.Tidy limit → Tidy cost limit found → (keep memo found).Tidy limit) :
    (Forest.settled depth keep kept.results kept.cut kept.memo).Agrees cost limit
      (Forest.settled depth keep (firstOf cost limit all.results) all.cut all.memo) := by
  have tidy := tidy_firstOf cost limit all.results
  rw [← h.results] at tidy
  rw [← h.results, ← h.cut, ← h.memo, Forest.settled]
  split
  · exact ⟨rfl, tidy, keeps h.tidy tidy⟩
  · exact ⟨rfl, tidy, h.tidy⟩

theorem Found.Collects.add {α : Type} {cost : α → Penalty} {kept all : Found α} (h : kept.Collects cost limit all)
    {new : List α} (ranked : Ranked cost new) {cut cut' : Option Nat} (sameCut : cut = cut')
    {memo memo' : Memo} (sameMemo : memo = memo') (known : memo.Tidy limit) :
    Collects cost limit ⟨cheapest cost limit kept.results new, cut, memo⟩ ⟨all.results ++ new, cut', memo'⟩ :=
  ⟨by rw [h.results, cheapest_firstOf _ ranked], sameCut, sameMemo, known⟩

theorem Found.Collects.addPairs {kept all : Found Stem} (h : kept.Collects Stem.penalty b.limit all) {stems : List Stem}
    {trees : List Tree} (hs : Ranked Stem.penalty stems) (ht : Ranked Tree.penalty trees) (cut : Option Nat)
    (known : memo.Tidy b.limit) :
    Collects Stem.penalty b.limit ⟨b.addStems kept.results (pairs b.limit b.maxPenalty stems trees), cut, memo⟩
      ⟨all.results ++ walkPairs stems trees b.limit b.maxPenalty, cut, memo⟩ := by
  rw [walkPairs_eq_pairs hs ht]
  exact h.add (pairs_top hs ht).ranked rfl rfl known

theorem Tidy.collects {α : Type} {cost : α → Penalty} {as : List α} (h : Tidy cost limit as) (cut : Option Nat)
    (known : memo.Tidy limit) : Found.Collects cost limit ⟨as, cut, memo⟩ ⟨as, cut, memo⟩ :=
  ⟨h.firstOf_eq.symm, rfl, rfl, known⟩

/-- A link leads to the same stems, whether their pairs are found by merging rows or by walking. -/
theorem followLink_collects (agree : answers.Agree b.limit answers') (active : Active) (ref : ItemRef) (link : Link)
    {kept all : Found Stem} (h : kept.Collects Stem.penalty b.limit all) :
    (b.followLink answers active ref kept link).Collects Stem.penalty b.limit
      (b.collectLink answers' active ref all link) := by
  obtain ⟨same, stems, known⟩ := agree.stems active link.previous h.tidy
  simp only [Source.followLink, Source.collectLink, ← h.memo, ← h.cut, same]
  split
  · exact ⟨h.results, rfl, rfl, known⟩
  · cases link.child with
    | empty => exact h.add stems.ranked rfl rfl known
    | token =>
      cases b.leaf? ref.state with
      | none => exact ⟨h.results, rfl, rfl, known⟩
      | some leaf => exact h.addPairs stems.ranked (List.pairwise_singleton _ _) _ known
    | completed child =>
      obtain ⟨same, trees, known⟩ := agree.trees active child known
      simp only [same]
      exact h.addPairs stems.ranked trees.ranked _ known
    | null target =>
      obtain ⟨same, trees, known⟩ := agree.nulls active ref.state target known
      simp only [same]
      exact h.addPairs stems.ranked trees.ranked _ known

theorem stemsWith_agrees (positive : 0 < b.limit) (agree : answers.Agree b.limit answers') (active : Active)
    (ref : ItemRef) (known : memo.Tidy b.limit) :
    (b.stemsWith answers active memo ref).Agrees Stem.penalty b.limit
      (b.sortedStemsWith answers' active memo ref) := by
  simp only [Source.stemsWith, Source.sortedStemsWith]
  cases hit : memo.stems.find? ref with
  | some found => exact ⟨rfl, known.stems hit, known⟩
  | none =>
    cases b.item? ref with
    | none => exact nothing_agrees _ known _
    | some item =>
      dsimp only
      split
      · have single : Tidy Stem.penalty b.limit [.empty] := ⟨List.pairwise_singleton _ _, positive⟩
        exact ⟨rfl, single, known.keepStems ref single⟩
      · cases active.depth? (.stems ref) with
        | some d => exact nothing_agrees _ known _
        | none =>
          have inner : Found.Collects Stem.penalty b.limit (item.links.foldl _ _) (item.links.foldl _ _) :=
            Array.foldl_rel ((tidy_nil ..).collects none known) fun link _ _ _ =>
              followLink_collects agree (active.push (.stems ref)) ref link
          exact inner.settled active.depth (·.keepStems ref)

theorem treesWith_agrees (agree : answers.Agree b.limit answers') (active : Active) (ref : ItemRef)
    (known : memo.Tidy b.limit) :
    (b.treesWith answers active memo ref).Agrees Tree.penalty b.limit
      (b.sortedTreesWith answers' active memo ref) := by
  simp only [Source.treesWith, Source.sortedTreesWith]
  cases hit : memo.trees.find? (.trees ref) with
  | some found => exact ⟨rfl, known.trees hit, known⟩
  | none =>
    cases active.depth? (.trees ref) with
    | some d => exact nothing_agrees _ known _
    | none =>
      obtain ⟨same, stems, known⟩ := agree.stems (active.push (.trees ref)) ref known
      simp only [same]
      exact ((tidy_finish b ref stems).collects _ known).settled active.depth (·.keepTrees (.trees ref))

theorem followCompletion_collects (agree : answers.Agree b.limit answers') (active : Active) (ref : ItemRef)
    {kept all : Found Tree} (h : kept.Collects Tree.penalty b.limit all) :
    (b.followCompletion answers active kept ref).Collects Tree.penalty b.limit
      (answers'.collectCompletion active all ref) := by
  obtain ⟨same, trees, known⟩ := agree.trees active ref h.tidy
  simp only [Source.followCompletion, Answers.collectCompletion, ← h.memo, ← h.cut, same]
  exact h.add trees.ranked rfl rfl known

theorem nullsWith_agrees (agree : answers.Agree b.limit answers') (active : Active) (state : Nat) (target : Target)
    (known : memo.Tidy b.limit) :
    (b.nullsWith answers active memo state target).Agrees Tree.penalty b.limit
      (b.sortedNullsWith answers' active memo state target) := by
  simp only [Source.nullsWith, Source.sortedNullsWith]
  cases hit : memo.trees.find? (.nulls state target) with
  | some found => exact ⟨rfl, known.trees hit, known⟩
  | none =>
    cases active.depth? (.nulls state target) with
    | some d => exact nothing_agrees _ known _
    | none =>
      have inner : Found.Collects Tree.penalty b.limit ((b.emptyCompletions state target).foldl _ _)
          ((b.emptyCompletions state target).foldl _ _) :=
        List.foldl_rel ((tidy_nil ..).collects none known) fun ref _ _ _ =>
          followCompletion_collects agree (active.push (.nulls state target)) ref
      have all := inner.add (ranked_bareTrees b state target) inner.cut inner.memo inner.tidy
      exact all.settled active.depth (·.keepTrees (.nulls state target))

/-- The search that sorts once gives the same answers. -/
theorem sorted_agree (positive : 0 < b.limit) (fuel : Nat) :
    Answers.Agree b.limit ⟨b.stems fuel, b.trees fuel, b.nulls fuel⟩ (b.sorted fuel) := by
  induction fuel with
  | zero => exact ⟨fun _ _ _ known => nothing_agrees _ known _, fun _ _ _ known => nothing_agrees _ known _,
      fun _ _ _ _ known => nothing_agrees _ known _⟩
  | succ fuel ih =>
    constructor
    · intro active ref memo known
      exact stemsWith_agrees positive ih active ref known
    · intro active ref memo known
      exact treesWith_agrees ih active ref known
    · intro active state target memo known
      exact nullsWith_agrees ih active state target known

theorem sortedTreesOf_eq (positive : 0 < b.limit) (refs : List ItemRef) : b.sortedTreesOf refs = b.treesOf refs := by
  have all : Found.Collects Tree.penalty b.limit (refs.foldl _ _) (refs.foldl _ _) :=
    List.foldl_rel ((tidy_nil ..).collects none (blank_tidy _)) fun ref _ _ _ =>
      followCompletion_collects (sorted_agree positive b.goalBound) .none ref
  exact all.results.symm

theorem sortedEmptyTrees_eq (positive : 0 < b.limit) (r : RuleId) : b.sortedEmptyTrees r = b.emptyTrees r :=
  congrArg Found.results ((sorted_agree positive b.goalBound).nulls .none 0 (.rule r) (blank_tidy _)).same

end Search

end Forest

/-- The trees of the input can as well be found by walking over grids and sorting once: the same trees in the same
order. -/
theorem Parser.sortedTrees_eq (p : Parser) (limit : Nat) : p.sortedTrees limit = p.cheapestTrees limit := by
  unfold sortedTrees cheapestTrees
  cases p.grammar.start with
  | none => rfl
  | some start =>
    let b : Forest.Source := ⟨p.grammar, p.states, max limit 1, p.config.maxPenalty⟩
    have positive : 0 < b.limit := Nat.le_max_right limit 1
    dsimp only
    split
    · rfl
    · split
      · exact Forest.sortedEmptyTrees_eq (b := b) positive start
      · exact Forest.sortedTreesOf_eq (b := b) positive _

end Earley
