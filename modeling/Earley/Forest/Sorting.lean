import Earley.Forest.Frontier
import Earley.Parser

/-!
# Search that sorts once

The same search, where all that the links of an item or the completed items of a target lead to is put together first
and then sorted and cut to the number of trees that is asked for. The pairs of a link are found by a walk over their
grid.
-/

namespace Earley

open Chart

namespace Forest

/-- The cheapest `limit` of some candidates. Equally cheap ones stay in order. -/
def firstOf (cost : α → Penalty) (limit : Nat) (all : List α) : List α :=
  (all.mergeSort fun a b => cost a ≤ cost b).take limit

def Answers.collectCompletion (answers : Answers) (active : Active) (found : Found Tree) (ref : ItemRef) : Found Tree :=
  let ⟨results, cut, memo⟩ := found
  let ⟨trees, treeCut, memo⟩ := answers.trees active memo ref
  ⟨results ++ trees, shallower cut treeCut, memo⟩

namespace Source

def sortStems (b : Source) (all : List Stem) : List Stem := firstOf Stem.penalty b.limit all

def sortTrees (b : Source) (all : List Tree) : List Tree := firstOf Tree.penalty b.limit all

def collectLink (b : Source) (answers : Answers) (active : Active) (ref : ItemRef) (found : Found Stem)
    (link : Link) : Found Stem :=
  let ⟨results, cut, memo⟩ := found
  let ⟨stems, stemCut, memo⟩ := answers.stems active memo link.previous
  let cut := shallower cut stemCut
  if stems.isEmpty then ⟨results, cut, memo⟩
  else
    match link.child with
    | .empty => ⟨results ++ stems, cut, memo⟩
    | .token => match b.leaf? ref.state with
      | some leaf => ⟨results ++ walkPairs stems [leaf] b.limit b.maxPenalty, cut, memo⟩
      | none => ⟨results, cut, memo⟩
    | .completed child =>
      let ⟨trees, treeCut, memo⟩ := answers.trees active memo child
      ⟨results ++ walkPairs stems trees b.limit b.maxPenalty, shallower cut treeCut, memo⟩
    | .null target =>
      let ⟨trees, treeCut, memo⟩ := answers.nulls active memo ref.state target
      ⟨results ++ walkPairs stems trees b.limit b.maxPenalty, shallower cut treeCut, memo⟩

def sortedStemsWith (b : Source) (answers : Answers) (active : Active) (memo : Memo) (ref : ItemRef) : Found Stem :=
  match memo.stems.find? ref with
  | some hit => ⟨hit, none, memo⟩
  | none =>
    match b.item? ref with
    | none => ⟨[], none, memo⟩
    | some item =>
      if item.links.isEmpty then ⟨[.empty], none, memo.keepStems ref [.empty]⟩
      else
        match active.depth? (.stems ref) with
        | some depth => ⟨[], some depth, memo⟩
        | none =>
          let ⟨all, cut, memo⟩ :=
            item.links.foldl (b.collectLink answers (active.push (.stems ref)) ref) ⟨[], none, memo⟩
          let stems := b.sortStems all
          match outerCut active.depth cut with
          | none => ⟨stems, none, memo.keepStems ref stems⟩
          | cut => ⟨stems, cut, memo⟩

def sortedTreesWith (b : Source) (answers : Answers) (active : Active) (memo : Memo) (ref : ItemRef) : Found Tree :=
  match memo.trees.find? (.trees ref) with
  | some hit => ⟨hit, none, memo⟩
  | none =>
    match active.depth? (.trees ref) with
    | some depth => ⟨[], some depth, memo⟩
    | none =>
      let ⟨stems, cut, memo⟩ := answers.stems (active.push (.trees ref)) memo ref
      let trees := b.sortTrees (b.finish ref stems)
      match outerCut active.depth cut with
      | none => ⟨trees, none, memo.keepTrees (.trees ref) trees⟩
      | cut => ⟨trees, cut, memo⟩

def sortedNullsWith (b : Source) (answers : Answers) (active : Active) (memo : Memo) (state : Nat)
    (target : Target) : Found Tree :=
  match memo.trees.find? (.nulls state target) with
  | some hit => ⟨hit, none, memo⟩
  | none =>
    match active.depth? (.nulls state target) with
    | some depth => ⟨[], some depth, memo⟩
    | none =>
      let ⟨all, cut, memo⟩ := (b.emptyCompletions state target).foldl
        (answers.collectCompletion (active.push (.nulls state target))) ⟨[], none, memo⟩
      let trees := b.sortTrees (all ++ b.bareTrees state target)
      match outerCut active.depth cut with
      | none => ⟨trees, none, memo.keepTrees (.nulls state target) trees⟩
      | cut => ⟨trees, cut, memo⟩

def sorted (b : Source) : (fuel : Nat) → Answers
  | 0 => ⟨fun _ memo _ => ⟨[], none, memo⟩, fun _ memo _ => ⟨[], none, memo⟩, fun _ memo _ _ => ⟨[], none, memo⟩⟩
  | fuel + 1 =>
    let inner := b.sorted fuel
    ⟨b.sortedStemsWith inner, b.sortedTreesWith inner, b.sortedNullsWith inner⟩

def sortedTreesOf (b : Source) (refs : List ItemRef) : List Tree :=
  b.sortTrees (refs.foldl ((b.sorted b.goalBound).collectCompletion .none) ⟨[], none, .blank⟩).results

def sortedEmptyTrees (b : Source) (r : RuleId) : List Tree :=
  ((b.sorted b.goalBound).nulls .none .blank 0 (.rule r)).results

end Source

end Forest

def Parser.sortedTrees (p : Parser) (limit : Nat) : List Tree :=
  match p.grammar.start with
  | some start =>
    let source : Forest.Source := ⟨p.grammar, p.states, max limit 1, p.config.maxPenalty⟩
    if !p.hasParse then []
    else if startsEmpty p.grammar p.states start then source.sortedEmptyTrees start
    else source.sortedTreesOf (acceptingRefs p.states start)
  | none => []

end Earley
