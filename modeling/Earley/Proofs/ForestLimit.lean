import Earley.Proofs.ForestTransparency

/-!
# A lower limit keeps the first trees

Every list of the search is cut to the number of trees that is asked for. What comes first in such a list depends only
on what comes first in the lists it is made of, and neither what is cut as being worked on nor what is remembered
depends on the limit. So a search with a lower limit finds the first trees of a search with a higher one, also where
rules derive each other for free (`forest_take`).
-/

namespace Earley

namespace Forest

open Chart

section Lists

variable {α : Type} {cost : α → Penalty}

theorem take_cons_take (n : Nat) (a : α) (as : List α) : (a :: as.take n).take n = (a :: as).take n := by
  cases n with
  | zero => rfl
  | succ n => simp [List.take_take]

theorem isEmpty_take {n : Nat} (positive : 0 < n) (as : List α) : (as.take n).isEmpty = as.isEmpty := by
  obtain ⟨n, rfl⟩ : ∃ k, n = k + 1 := ⟨n - 1, by omega⟩
  cases as <;> rfl

/-- The first elements of a merged list come from the first elements of both lists. -/
theorem take_merge (n : Nat) (as bs : List α) :
    (merge cost (as.take n) (bs.take n)).take n = (merge cost as bs).take n := by
  induction n generalizing as bs with
  | zero => simp
  | succ n ih =>
    -- Both sides go on with lists that have the same first `n` elements.
    have again (cs cs' ds ds' : List α) (left : cs.take n = cs'.take n) (right : ds.take n = ds'.take n) :
        (merge cost cs ds).take n = (merge cost cs' ds').take n := by
      rw [← ih cs ds, ← ih cs' ds', left, right]
    cases as with
    | nil => simp [merge]
    | cons a as =>
      cases bs with
      | nil =>
        simp only [List.take_succ_cons, List.take_nil, merge, mergeHead, List.cons.injEq, true_and]
        exact again (as.take n) as [] [] (by simp) rfl
      | cons b bs =>
        simp only [List.take_succ_cons, merge, mergeHead]
        split
        · simp only [List.take_succ_cons, List.cons.injEq, true_and]
          exact again (as.take n) as (b :: bs.take n) (b :: bs) (by simp) (take_cons_take n b bs)
        · simp only [List.take_succ_cons, List.cons.injEq, true_and]
          exact again (a :: as.take n) (a :: as) (bs.take n) bs (take_cons_take n a as) (by simp)

theorem take_cheapest {n limit : Nat} (le : n ≤ limit) (as bs : List α) :
    cheapest cost n (as.take n) (bs.take n) = (cheapest cost limit as bs).take n := by
  simp only [cheapest, take_merge, List.take_take, Nat.min_eq_left le]

end Lists

namespace Row

/-- Rows that agree in their next `count` pairs. -/
structure Agrees (count : Nat) (r r' : Row) : Prop where
  position : r.position = r'.position
  stem : r.stem = r'.stem
  children : (r.next :: r.rest).take count = (r'.next :: r'.rest).take count

variable {count n : Nat} {r r' : Row} {rows rows' : List Row}

theorem Agrees.next (h : Agrees (count + 1) r r') : r.next = r'.next ∧ r.rest.take count = r'.rest.take count := by
  simpa using h.children

theorem Agrees.fewer (h : Agrees (count + 1) r r') : Agrees count r r' := by
  refine ⟨h.position, h.stem, ?_⟩
  have first := congrArg (List.take count) h.children
  simpa [take_cons_take] using first

theorem Agrees.cost_eq (h : Agrees (count + 1) r r') : r.cost = r'.cost := by
  simp only [cost, h.stem, h.next.1]

/-- Rows that are inserted where they belong stay in step as far as is looked at. -/
theorem Agrees.insert (h : Agrees (count + 1) r r')
    (others : List.Forall₂ (Agrees (count + 1)) (rows.take n) (rows'.take n)) :
    List.Forall₂ (Agrees (count + 1)) ((r.insert rows).take n) ((r'.insert rows').take n) := by
  induction n generalizing rows rows' with
  | zero => simp
  | succ n ih =>
    cases rows with
    | nil =>
      cases rows' with
      | nil => simpa [Row.insert] using h
      | cons a' rows' => simp at others
    | cons a rows =>
      cases rows' with
      | nil => simp at others
      | cons a' rows' =>
        simp only [List.take_succ_cons, List.forall₂_cons] at others
        obtain ⟨first, later⟩ := others
        have same : r.precedes a = r'.precedes a' := by
          simp only [precedes, h.cost_eq, first.cost_eq, h.position, first.position]
        simp only [Row.insert, same]
        split
        · simp only [List.take_succ_cons, List.forall₂_cons]
          refine ⟨h, ?_⟩
          cases n with
          | zero => simp
          | succ n =>
            simp only [List.take_succ_cons, List.forall₂_cons]
            refine ⟨first, ?_⟩
            have shorter := List.forall₂_take n later
            simpa [List.take_take] using shorter
        · simp only [List.take_succ_cons, List.forall₂_cons]
          exact ⟨first, ih later⟩

/-- What is left after a pair is drawn agrees in one pair less. -/
theorem Agrees.drop (h : Agrees (count + 1) r r')
    (others : List.Forall₂ (Agrees (count + 1)) (rows.take count) (rows'.take count)) :
    List.Forall₂ (Agrees count) ((r.drop rows).take count) ((r'.drop rows').take count) := by
  cases count with
  | zero => simp
  | succ count =>
    have fewer := others.imp fun a a' (agree : Agrees (count + 2) a a') => agree.fewer
    obtain ⟨-, rest⟩ := h.next
    unfold Row.drop
    cases more : r.rest with
    | nil =>
      cases more' : r'.rest with
      | nil => exact fewer
      | cons t' ts' => simp [more, more'] at rest
    | cons t ts =>
      cases more' : r'.rest with
      | nil => simp [more, more'] at rest
      | cons t' ts' =>
        have next : Agrees (count + 1) { r with next := t, rest := ts } { r' with next := t', rest := ts' } :=
          ⟨h.position, h.stem, by simpa [more, more'] using rest⟩
        exact next.insert fewer

end Row

/-- Drawing so many pairs looks at no more than so many rows, and at no more than so many pairs of each. -/
theorem drawPairs_congr (most : Penalty) {count : Nat} {rows rows' : List Row}
    (agree : List.Forall₂ (Row.Agrees count) (rows.take count) (rows'.take count)) :
    drawPairs most count rows = drawPairs most count rows' := by
  induction count generalizing rows rows' with
  | zero => rfl
  | succ count ih =>
    cases rows with
    | nil =>
      cases rows' with
      | nil => rfl
      | cons r' rows' => simp at agree
    | cons r rows =>
      cases rows' with
      | nil => simp at agree
      | cons r' rows' =>
        simp only [List.take_succ_cons, List.forall₂_cons] at agree
        obtain ⟨first, later⟩ := agree
        simp only [drawPairs, first.cost_eq, first.stem, first.next.1, ih (first.drop later)]

theorem take_drawPairs (most : Penalty) {n count : Nat} (le : n ≤ count) (rows : List Row) :
    (drawPairs most count rows).take n = drawPairs most n rows := by
  induction n generalizing count rows with
  | zero => simp [drawPairs]
  | succ n ih =>
    obtain ⟨count, rfl⟩ : ∃ k, count = k + 1 := ⟨count - 1, by omega⟩
    cases rows with
    | nil => simp [drawPairs]
    | cons r rows =>
      simp only [drawPairs]
      split
      · simp only [List.take_succ_cons, ih (Nat.le_of_succ_le_succ le)]
      · simp

theorem take_zipIdx {α : Type} (n k : Nat) (as : List α) : (as.zipIdx k).take n = (as.take n).zipIdx k := by
  induction as generalizing n k with
  | nil => simp
  | cons a as ih =>
    cases n with
    | zero => rfl
    | succ n => simp [ih]

theorem rowsFrom_take (n k : Nat) (stems : List Stem) (trees : List Tree) :
    List.Forall₂ (Row.Agrees n) ((rowsFrom k (stems.take n) (trees.take n)).take n)
      ((rowsFrom k stems trees).take n) := by
  cases n with
  | zero => simp
  | succ n =>
    cases trees with
    | nil => simp [rowsFrom]
    | cons t ts =>
      simp only [List.take_succ_cons, rowsFrom, ← List.map_take, take_zipIdx, List.take_take, Nat.min_self,
        List.forall₂_map_left_iff, List.forall₂_map_right_iff, List.forall₂_same]
      intro x _
      exact ⟨rfl, rfl, by simp⟩

/-- The first pairs of some stems and trees are pairs of the first of both. -/
theorem take_pairs {n limit : Nat} (le : n ≤ limit) (most : Penalty) (stems : List Stem) (trees : List Tree) :
    pairs n most (stems.take n) (trees.take n) = (pairs limit most stems trees).take n := by
  rw [pairs_eq_drawPairs, pairs_eq_drawPairs, take_drawPairs most le]
  exact drawPairs_congr most (rowsFrom_take n 0 stems trees)

section Search

variable {b : Source} {n : Nat}

/-- The first stems of a sorted list are finished to the first trees. -/
theorem take_finish (b : Source) (ref : ItemRef) {stems : List Stem} (ranked : Ranked Stem.penalty stems) (n : Nat) :
    b.finish ref (stems.take n) = (b.finish ref stems).take n := by
  unfold Source.finish
  split
  case h_1 item _ =>
    let cost (s : Stem) : Penalty := s.penalty + b.grammar.targetPenalty item.key.owner.target
    have dearer : Ranked cost stems := ranked.imp fun le => Penalty.add_le_add le (Nat.le_refl _)
    have down : Down (· ≤ b.maxPenalty) := fun le inside => Nat.le_trans le inside
    have kept := within_take down dearer n
    simp only [within_eq_filter] at kept
    simp only [filterMap_ite, ← List.map_take]
    exact congrArg _ kept
  case h_2 => simp

theorem ranked_finish (b : Source) (ref : ItemRef) {stems : List Stem} (ranked : Ranked Stem.penalty stems) :
    Ranked Tree.penalty (b.finish ref stems) := by
  unfold Source.finish
  split
  case h_1 item _ =>
    simp only [filterMap_ite]
    apply List.pairwise_map.mpr
    apply (ranked.sublist List.filter_sublist).imp
    intro s s' le
    exact Penalty.add_le_add le (Nat.le_refl _)
  case h_2 => exact .nil

def Source.upTo (b : Source) (n : Nat) : Source := { b with limit := n }

/-- The second memory holds the first `n` of everything that the first one holds, all of it sorted. -/
structure Memo.Cut (n : Nat) (memo memo' : Memo) : Prop where
  stems : ∀ ref, memo'.stems.find? ref = (memo.stems.find? ref).map (·.take n)
  trees : ∀ goal, memo'.trees.find? goal = (memo.trees.find? goal).map (·.take n)
  rankedStems : ∀ {ref found}, memo.stems.find? ref = some found → Ranked Stem.penalty found
  rankedTrees : ∀ {goal found}, memo.trees.find? goal = some found → Ranked Tree.penalty found

/-- The second search found the first `n` results of the first, and was cut where that was. -/
structure Found.Cut {α : Type} (cost : α → Penalty) (n : Nat) (found found' : Found α) : Prop where
  results : found'.results = found.results.take n
  ranked : Ranked cost found.results
  cut : found'.cut = found.cut
  memo : found.memo.Cut n found'.memo

/-- Answers that agree up to the limit as long as what they remember does. -/
structure Answers.Cut (n : Nat) (answers answers' : Answers) : Prop where
  stems : ∀ active ref {memo memo'}, Memo.Cut n memo memo' →
    (answers.stems active memo ref).Cut Stem.penalty n (answers'.stems active memo' ref)
  trees : ∀ active ref {memo memo'}, Memo.Cut n memo memo' →
    (answers.trees active memo ref).Cut Tree.penalty n (answers'.trees active memo' ref)
  nulls : ∀ active state target {memo memo'}, Memo.Cut n memo memo' →
    (answers.nulls active memo state target).Cut Tree.penalty n (answers'.nulls active memo' state target)

variable {memo memo' : Memo}

theorem blank_cut (n : Nat) : Memo.blank.Cut n .blank := by
  constructor <;> simp [Memo.blank]

theorem Memo.Cut.keepStems (h : memo.Cut n memo') (ref : ItemRef) {found : List Stem}
    (ranked : Ranked Stem.penalty found) : (memo.keepStems ref found).Cut n (memo'.keepStems ref (found.take n)) := by
  refine ⟨fun other => ?_, h.trees, fun {other _} known => ?_, h.rankedTrees⟩
  · simp only [Memo.keepStems, Index.find?_insert, h.stems]
    split <;> rfl
  · simp only [Memo.keepStems, Index.find?_insert] at known
    split at known
    · cases known
      exact ranked
    · exact h.rankedStems known

theorem Memo.Cut.keepTrees (h : memo.Cut n memo') (goal : Goal) {found : List Tree}
    (ranked : Ranked Tree.penalty found) :
    (memo.keepTrees goal found).Cut n (memo'.keepTrees goal (found.take n)) := by
  refine ⟨h.stems, fun other => ?_, h.rankedStems, fun {other _} known => ?_⟩
  · simp only [Memo.keepTrees, Index.find?_insert, h.trees]
    split <;> rfl
  · simp only [Memo.keepTrees, Index.find?_insert] at known
    split at known
    · cases known
      exact ranked
    · exact h.rankedTrees known

/-- Whether results are remembered does not depend on how many there are. -/
theorem settled_cut {α : Type} {cost : α → Penalty} {results results' : List α} {cut cut' : Option Nat}
    (keep : Memo → List α → Memo) (depth : Nat) (same : results' = results.take n) (ranked : Ranked cost results)
    (same' : cut' = cut) (kept : memo.Cut n memo')
    (keeps : (keep memo results).Cut n (keep memo' (results.take n))) :
    (settled depth keep results cut memo).Cut cost n (settled depth keep results' cut' memo') := by
  subst same same'
  unfold settled
  split
  · exact ⟨rfl, ranked, rfl, keeps⟩
  · exact ⟨rfl, ranked, rfl, kept⟩

variable {answers answers' : Answers}

theorem treesWith_cut (cut : answers.Cut n answers') (known : memo.Cut n memo') (active : Active) (ref : ItemRef) :
    (b.treesWith answers active memo ref).Cut Tree.penalty n ((b.upTo n).treesWith answers' active memo' ref) := by
  have inner := cut.stems (active.push (.trees ref)) ref known
  simp only [Source.treesWith, known.trees]
  cases hit : memo.trees.find? (.trees ref) with
  | some found => exact ⟨rfl, known.rankedTrees hit, rfl, known⟩
  | none =>
    cases active.depth? (.trees ref) with
    | some d => exact ⟨by simp, .nil, rfl, known⟩
    | none =>
      have ranked := ranked_finish b ref inner.ranked
      refine settled_cut (·.keepTrees (.trees ref)) active.depth ?_ ranked inner.cut inner.memo
        (inner.memo.keepTrees _ ranked)
      simp only [inner.results]
      exact take_finish b ref inner.ranked n

/-- Adding what one link leads to. -/
theorem followLink_cut (positive : 0 < n) (le : n ≤ b.limit) (cut : answers.Cut n answers') (active : Active)
    (ref : ItemRef) (link : Link) {found found' : Found Stem} (h : found.Cut Stem.penalty n found') :
    (b.followLink answers active ref found link).Cut Stem.penalty n
      ((b.upTo n).followLink answers' active ref found' link) := by
  have first := cut.stems active link.previous h.memo
  have leaves : (b.upTo n).leaf? ref.state = b.leaf? ref.state := rfl
  have barren : (answers'.stems active found'.memo link.previous).results.isEmpty =
      (answers.stems active found.memo link.previous).results.isEmpty := by
    simp only [first.results, isEmpty_take positive]
  have cuts : shallower found'.cut (answers'.stems active found'.memo link.previous).cut =
      shallower found.cut (answers.stems active found.memo link.previous).cut := by
    rw [h.cut, first.cut]
  have add {more more' : List Stem} (same : more' = more.take n) :
      (b.upTo n).addStems found'.results more' = (b.addStems found.results more).take n := by
    simp only [Source.addStems, Source.upTo, h.results, same, take_cheapest le]
  simp only [Source.followLink, barren, leaves]
  split
  · exact ⟨h.results, h.ranked, cuts, first.memo⟩
  · cases link.child with
    | empty => exact ⟨add first.results, cheapest_ranked h.ranked first.ranked, cuts, first.memo⟩
    | token =>
      cases b.leaf? ref.state with
      | none => exact ⟨h.results, h.ranked, cuts, first.memo⟩
      | some leaf =>
        have ranked : Ranked Tree.penalty [leaf] := List.pairwise_singleton _ _
        refine ⟨add ?_, cheapest_ranked h.ranked (pairs_top first.ranked ranked).ranked, cuts, first.memo⟩
        rw [first.results, ← take_pairs le, List.take_of_length_le (l := [leaf]) positive]
        rfl
    | completed child =>
      have second := cut.trees active child first.memo
      refine ⟨add ?_, cheapest_ranked h.ranked (pairs_top first.ranked second.ranked).ranked, ?_, second.memo⟩
      · rw [first.results, second.results]
        exact take_pairs le _ _ _
      · simp only [cuts, second.cut]
    | null target =>
      have second := cut.nulls active ref.state target first.memo
      refine ⟨add ?_, cheapest_ranked h.ranked (pairs_top first.ranked second.ranked).ranked, ?_, second.memo⟩
      · rw [first.results, second.results]
        exact take_pairs le _ _ _
      · simp only [cuts, second.cut]

theorem nothing_cut {α : Type} (cost : α → Penalty) (known : memo.Cut n memo') (cut : Option Nat) :
    (⟨[], cut, memo⟩ : Found α).Cut cost n ⟨[], cut, memo'⟩ := ⟨by simp, .nil, rfl, known⟩

theorem stemsWith_cut (positive : 0 < n) (le : n ≤ b.limit) (cut : answers.Cut n answers') (known : memo.Cut n memo')
    (active : Active) (ref : ItemRef) :
    (b.stemsWith answers active memo ref).Cut Stem.penalty n ((b.upTo n).stemsWith answers' active memo' ref) := by
  have place : (b.upTo n).item? ref = b.item? ref := rfl
  simp only [Source.stemsWith, known.stems, place]
  cases hit : memo.stems.find? ref with
  | some found => exact ⟨rfl, known.rankedStems hit, rfl, known⟩
  | none =>
    cases b.item? ref with
    | none => exact nothing_cut _ known _
    | some item =>
      simp only [Option.map_none]
      split
      · have ranked : Ranked Stem.penalty [.empty] := List.pairwise_singleton _ _
        have whole : [Stem.empty].take n = [.empty] := List.take_of_length_le positive
        exact ⟨whole.symm, ranked, rfl, by simpa only [whole] using known.keepStems ref ranked⟩
      · cases active.depth? (.stems ref) with
        | some d => exact nothing_cut _ known _
        | none =>
          have inner : Found.Cut Stem.penalty n (item.links.foldl _ _) (item.links.foldl _ _) :=
            Array.foldl_rel (nothing_cut _ known none) fun link _ _ _ =>
              followLink_cut positive le cut (active.push (.stems ref)) ref link
          exact settled_cut (·.keepStems ref) active.depth inner.results inner.ranked inner.cut inner.memo
            (inner.memo.keepStems ref inner.ranked)

/-- Adding the trees of a completed item. -/
theorem followCompletion_cut (le : n ≤ b.limit) (cut : answers.Cut n answers') (active : Active) (ref : ItemRef)
    {found found' : Found Tree} (h : found.Cut Tree.penalty n found') :
    (b.followCompletion answers active found ref).Cut Tree.penalty n
      ((b.upTo n).followCompletion answers' active found' ref) := by
  have trees := cut.trees active ref h.memo
  refine ⟨?_, cheapest_ranked h.ranked trees.ranked, ?_, trees.memo⟩
  · simp only [Source.followCompletion, Source.addTrees, h.results, trees.results]
    exact take_cheapest le _ _
  · simp only [Source.followCompletion, h.cut, trees.cut]

theorem length_bareTrees_le (b : Source) (state : Nat) (target : Target) : (b.bareTrees state target).length ≤ 1 := by
  unfold Source.bareTrees
  split
  · split
    · split <;> simp
    · simp
  · simp

theorem ranked_bareTrees (b : Source) (state : Nat) (target : Target) :
    Ranked Tree.penalty (b.bareTrees state target) := by
  have short := length_bareTrees_le b state target
  match b.bareTrees state target, short with
  | [], _ => exact .nil
  | [t], _ => exact List.pairwise_singleton _ _

theorem nullsWith_cut (positive : 0 < n) (le : n ≤ b.limit) (cut : answers.Cut n answers') (known : memo.Cut n memo')
    (active : Active) (state : Nat) (target : Target) :
    (b.nullsWith answers active memo state target).Cut Tree.penalty n
      ((b.upTo n).nullsWith answers' active memo' state target) := by
  have completions : (b.upTo n).emptyCompletions state target = b.emptyCompletions state target := rfl
  have bare : (b.upTo n).bareTrees state target = (b.bareTrees state target).take n := by
    symm
    exact List.take_of_length_le (Nat.le_trans (length_bareTrees_le b state target) positive)
  simp only [Source.nullsWith, known.trees, completions, bare]
  cases hit : memo.trees.find? (.nulls state target) with
  | some found => exact ⟨rfl, known.rankedTrees hit, rfl, known⟩
  | none =>
    cases active.depth? (.nulls state target) with
    | some d => exact nothing_cut _ known _
    | none =>
      have inner : Found.Cut Tree.penalty n ((b.emptyCompletions state target).foldl _ _)
          ((b.emptyCompletions state target).foldl _ _) :=
        List.foldl_rel (nothing_cut _ known none) fun ref _ _ _ =>
          followCompletion_cut le cut (active.push (.nulls state target)) ref
      have all : Ranked Tree.penalty (b.addTrees _ _) := cheapest_ranked inner.ranked (ranked_bareTrees b state target)
      refine settled_cut (·.keepTrees (.nulls state target)) active.depth ?_ all inner.cut inner.memo
        (inner.memo.keepTrees _ all)
      simp only [Source.addTrees, inner.results]
      exact take_cheapest le _ _

/-- All answers agree up to the lower limit. -/
theorem answers_cut (positive : 0 < n) (le : n ≤ b.limit) (fuel : Nat) :
    Answers.Cut n ⟨b.stems fuel, b.trees fuel, b.nulls fuel⟩
      ⟨(b.upTo n).stems fuel, (b.upTo n).trees fuel, (b.upTo n).nulls fuel⟩ := by
  induction fuel with
  | zero => exact ⟨fun _ _ _ _ known => nothing_cut _ known _, fun _ _ _ _ known => nothing_cut _ known _,
      fun _ _ _ _ _ known => nothing_cut _ known _⟩
  | succ fuel ih =>
    constructor
    · intro active ref memo memo' known
      exact stemsWith_cut positive le ih known active ref
    · intro active ref memo memo' known
      exact treesWith_cut ih known active ref
    · intro active state target memo memo' known
      exact nullsWith_cut positive le ih known active state target

theorem treesOf_upTo (positive : 0 < n) (le : n ≤ b.limit) (refs : List ItemRef) :
    (b.upTo n).treesOf refs = (b.treesOf refs).take n := by
  have all : Found.Cut Tree.penalty n (refs.foldl _ _) (refs.foldl _ _) :=
    List.foldl_rel (nothing_cut _ (blank_cut n) none) fun ref _ _ _ =>
      followCompletion_cut le (answers_cut positive le b.goalBound) .none ref
  exact all.results

theorem emptyTrees_upTo (positive : 0 < n) (le : n ≤ b.limit) (r : RuleId) :
    (b.upTo n).emptyTrees r = (b.emptyTrees r).take n :=
  ((answers_cut positive le b.goalBound).nulls .none 0 (.rule r) (blank_cut n)).results

end Search

end Forest

namespace Parser

open Chart Forest

/-- Fewer trees are asked for than are known to be found first. -/
theorem take_cheapestTrees (p : Parser) {n m : Nat} (positive : 1 ≤ n) (le : n ≤ m) :
    p.cheapestTrees n = (p.cheapestTrees m).take n := by
  unfold cheapestTrees
  cases p.grammar.start with
  | none => simp
  | some start =>
    let b : Source := ⟨p.grammar, p.states, max m 1, p.config.maxPenalty⟩
    have least : max n 1 = n := Nat.max_eq_left positive
    have fewer : n ≤ b.limit := Nat.le_trans le (Nat.le_max_left m 1)
    simp only [least]
    split
    · simp
    · split
      · exact emptyTrees_upTo (b := b) positive fewer start
      · exact treesOf_upTo (b := b) positive fewer _

/-- With a lower limit the forest holds the first trees that it holds with a higher one, in the same order. Whatever
the limit, the best tree is the first of the forest, and there is none just when the forest is empty. -/
theorem forest_take (p : Parser) :
    (∀ n m, 1 ≤ n → n ≤ m → { p with config := { p.config with maxTrees := n } }.forest =
      { p with config := { p.config with maxTrees := m } }.forest.take n) ∧
    ∀ limit, let q := { p with config := { p.config with maxTrees := limit } }
      q.bestTree = q.forest.head? ∧ (q.bestTree = none ↔ q.forest = []) := by
  constructor
  · intro n m positive le
    exact take_cheapestTrees { p with config := { p.config with maxTrees := m } } positive le
  · intro limit q
    have first : q.bestTree = q.forest.head? := by
      rcases Nat.eq_zero_or_pos limit with rfl | positive
      · rfl
      · have one := take_cheapestTrees q (Nat.le_refl 1) positive
        simp only [bestTree, one, List.head?_take]
        rfl
    exact ⟨first, by rw [first, List.head?_eq_none_iff]⟩

/-- Rules that derive each other for free: of the four trees that are found, a limit of three keeps the first three. -/
theorem forest_knotGrammar_take :
    ∃ outcome p', (run [.ofChar 'a']).run (.new knotGrammar {}) = .ok outcome p' ∧
      { p' with config := { p'.config with maxTrees := 3 } }.forest =
        { p' with config := { p'.config with maxTrees := 256 } }.forest.take 3 ∧
      { p' with config := { p'.config with maxTrees := 256 } }.forest.length = 4 := by
  have ran := run_eq (.new knotGrammar {}) [.ofChar 'a'] rfl knotGrammar_start
  refine ⟨_, _, ran, (forest_take _).1 3 256 (by decide) (by decide), ?_⟩
  decide +kernel

end Parser

end Earley
