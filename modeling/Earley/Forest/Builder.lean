import Earley.Chart.Recognition
import Earley.Forest.Pairing
import Earley.Forest.Ranking

/-!
# Building trees

Trees are found by following links back from completed items. A completed item has one tree for each way of
reaching it. Every list of results is sorted by penalty and cut to the number of trees that is asked for, since
no tree can use more than that many alternatives of one part.

A grammar with cycles leads back to a goal that is still being worked on. Such a branch is cut. A result that
was cut on behalf of a goal further out is not remembered, because it is incomplete from any other point of view.
-/

namespace Earley.Forest

open Chart

/-- What trees are built from: a chart, the grammar it was made with, and how many and how dear trees may be. -/
structure Source where
  grammar : Grammar
  states : Array State
  limit : Nat
  maxPenalty : Penalty

inductive Goal where
  /-- Derivations of what lies before the dot of an item. -/
  | stems (ref : ItemRef)
  /-- Trees of a completed item. -/
  | trees (ref : ItemRef)
  /-- Trees of a target that derives nothing, at a state. -/
  | nulls (state : Nat) (target : Target)
  deriving DecidableEq

instance : Addressed Goal where
  address
    | .stems ref => 3 * Addressed.address ref
    | .trees ref => 3 * Addressed.address ref + 1
    | .nulls state target => 3 * (65536 * state + Addressed.address target) + 2

/-- The goals being worked on, each with its depth: how many were being worked on before it. -/
structure Active where
  depth : Nat
  depths : Index Goal Nat

namespace Active

def none : Active := ⟨0, .empty⟩

def depth? (a : Active) (goal : Goal) : Option Nat := a.depths.find? goal

def push (a : Active) (goal : Goal) : Active := ⟨a.depth + 1, a.depths.insert goal a.depth⟩

@[simp] theorem depth?_none (goal : Goal) : none.depth? goal = .none := by
  simp [depth?, none]

theorem depth?_push (a : Active) (goal other : Goal) :
    (a.push goal).depth? other = if goal = other then some a.depth else a.depth? other := by
  simp [depth?, push, Index.find?_insert]

end Active

/-- Results that hold whatever is being worked on. -/
structure Memo where
  stems : Index ItemRef (List Stem)
  /-- Trees of completed items, and of targets that derive nothing. -/
  trees : Index Goal (List Tree)

namespace Memo

def blank : Memo := ⟨.empty, .empty⟩

def keepStems (m : Memo) (ref : ItemRef) (found : List Stem) : Memo :=
  { m with stems := m.stems.insert ref found }

def keepTrees (m : Memo) (goal : Goal) (found : List Tree) : Memo :=
  { m with trees := m.trees.insert goal found }

end Memo

/-- What a goal yields: its results, and the least depth of the goals it was cut at. -/
structure Found (α : Type) where
  results : List α
  cut : Option Nat
  memo : Memo

/-- The lesser of two depths, where `none` is no cut. -/
def shallower : Option Nat → Option Nat → Option Nat
  | some a, some b => some (min a b)
  | some a, none => some a
  | none, b => b

/-- The cuts that remain once the goal at `depth` is done: those on behalf of goals further out. -/
def outerCut (depth : Nat) (cut : Option Nat) : Option Nat := cut.filter (· < depth)

structure Answers where
  stems : Active → Memo → ItemRef → Found Stem
  trees : Active → Memo → ItemRef → Found Tree
  nulls : Active → Memo → Nat → Target → Found Tree

end Forest

def Chart.Owner.nodeKind : Chart.Owner → NodeKind
  | .rule r p => .rule r (some p)
  | .group k => .group k
  | .iteration k => .iteration k

namespace Forest.Source

open Chart

def item? (b : Source) (ref : ItemRef) : Option Item := b.states[ref.state]?.bind (·.items[ref.index]?)

def leaf? (b : Source) (state : Nat) : Option Tree :=
  (b.states[state]?.bind (·.token)).map fun t => .leaf t (state - 1)

def addStems (b : Source) (earlier later : List Stem) : List Stem :=
  cheapest Stem.penalty b.limit earlier later

def addTrees (b : Source) (earlier later : List Tree) : List Tree :=
  cheapest Tree.penalty b.limit earlier later

/-- A completed item as a tree for each stem that is cheap enough. -/
def finish (b : Source) (ref : ItemRef) (stems : List Stem) : List Tree :=
  match b.item? ref with
  | some item =>
    let owner := item.key.owner
    stems.filterMap fun stem =>
      let penalty := stem.penalty + b.grammar.targetPenalty owner.target
      if penalty ≤ b.maxPenalty then
        some (.node owner.nodeKind ⟨item.key.origin, ref.state⟩ penalty stem.children)
      else none
  | none => []

def emptyCompletions (b : Source) (state : Nat) (target : Target) : List ItemRef :=
  match b.states[state]? with
  | some s => s.items.toList.zipIdx.filterMap fun (item, i) =>
      if item.key.op = .complete target ∧ item.key.origin = state then some ⟨state, i⟩ else none
  | none => []

/-- The tree of a rule without productions, for which no item stands. -/
def bareTrees (b : Source) (state : Nat) : Target → List Tree
  | .rule r => match b.grammar.rule? r with
    | some d =>
      if d.productions.isEmpty ∧ d.penalty ≤ b.maxPenalty then
        [.node (.rule r none) ⟨state, state⟩ d.penalty []]
      else []
    | none => []
  | _ => []

def treesWith (b : Source) (answers : Answers) (active : Active) (memo : Memo) (ref : ItemRef) : Found Tree :=
  match memo.trees.find? (.trees ref) with
  | some hit => ⟨hit, none, memo⟩
  | none =>
    match active.depth? (.trees ref) with
    | some depth => ⟨[], some depth, memo⟩
    | none =>
      let ⟨stems, cut, memo⟩ := answers.stems (active.push (.trees ref)) memo ref
      let trees := b.finish ref stems
      match outerCut active.depth cut with
      | none => ⟨trees, none, memo.keepTrees (.trees ref) trees⟩
      | cut => ⟨trees, cut, memo⟩

def followLink (b : Source) (answers : Answers) (active : Active) (ref : ItemRef) (found : Found Stem)
    (link : Link) : Found Stem :=
  let ⟨results, cut, memo⟩ := found
  let ⟨stems, stemCut, memo⟩ := answers.stems active memo link.previous
  let cut := shallower cut stemCut
  if stems.isEmpty then ⟨results, cut, memo⟩
  else
    match link.child with
    | .empty => ⟨b.addStems results stems, cut, memo⟩
    | .token => match b.leaf? ref.state with
      | some leaf => ⟨b.addStems results (pairs b.limit b.maxPenalty stems [leaf]), cut, memo⟩
      | none => ⟨results, cut, memo⟩
    | .completed child =>
      let ⟨trees, treeCut, memo⟩ := answers.trees active memo child
      ⟨b.addStems results (pairs b.limit b.maxPenalty stems trees), shallower cut treeCut, memo⟩
    | .null target =>
      let ⟨trees, treeCut, memo⟩ := answers.nulls active memo ref.state target
      ⟨b.addStems results (pairs b.limit b.maxPenalty stems trees), shallower cut treeCut, memo⟩

def stemsWith (b : Source) (answers : Answers) (active : Active) (memo : Memo) (ref : ItemRef) : Found Stem :=
  match memo.stems.find? ref with
  | some hit => ⟨hit, none, memo⟩
  | none =>
    match b.item? ref with
    | none => ⟨[], none, memo⟩
    | some item =>
      if item.links.isEmpty then ⟨[.empty], none, memo.keepStems ref [.empty]⟩
      else
        match active.depth? (.stems ref) with
        | some depth => ⟨[], some depth, memo⟩
        | none =>
          let ⟨stems, cut, memo⟩ :=
            item.links.foldl (b.followLink answers (active.push (.stems ref)) ref) ⟨[], none, memo⟩
          match outerCut active.depth cut with
          | none => ⟨stems, none, memo.keepStems ref stems⟩
          | cut => ⟨stems, cut, memo⟩

def followCompletion (b : Source) (answers : Answers) (active : Active) (found : Found Tree) (ref : ItemRef) :
    Found Tree :=
  let ⟨results, cut, memo⟩ := found
  let ⟨trees, treeCut, memo⟩ := answers.trees active memo ref
  ⟨b.addTrees results trees, shallower cut treeCut, memo⟩

def nullsWith (b : Source) (answers : Answers) (active : Active) (memo : Memo) (state : Nat)
    (target : Target) : Found Tree :=
  match memo.trees.find? (.nulls state target) with
  | some hit => ⟨hit, none, memo⟩
  | none =>
    match active.depth? (.nulls state target) with
    | some depth => ⟨[], some depth, memo⟩
    | none =>
      let ⟨results, cut, memo⟩ := (b.emptyCompletions state target).foldl
        (b.followCompletion answers (active.push (.nulls state target))) ⟨[], none, memo⟩
      let trees := b.addTrees results (b.bareTrees state target)
      match outerCut active.depth cut with
      | none => ⟨trees, none, memo.keepTrees (.nulls state target) trees⟩
      | cut => ⟨trees, cut, memo⟩

mutual

/-- Derivations of what lies before the dot of an item; `fuel` bounds how deep goals are nested. -/
def stems (b : Source) : (fuel : Nat) → Active → Memo → ItemRef → Found Stem
  | 0, _, memo, _ => ⟨[], none, memo⟩
  | fuel + 1, active, memo, ref =>
    b.stemsWith ⟨b.stems fuel, b.trees fuel, b.nulls fuel⟩ active memo ref

def trees (b : Source) : (fuel : Nat) → Active → Memo → ItemRef → Found Tree
  | 0, _, memo, _ => ⟨[], none, memo⟩
  | fuel + 1, active, memo, ref =>
    b.treesWith ⟨b.stems fuel, b.trees fuel, b.nulls fuel⟩ active memo ref

def nulls (b : Source) : (fuel : Nat) → Active → Memo → Nat → Target → Found Tree
  | 0, _, memo, _, _ => ⟨[], none, memo⟩
  | fuel + 1, active, memo, state, target =>
    b.nullsWith ⟨b.stems fuel, b.trees fuel, b.nulls fuel⟩ active memo state target

end

/-- One more than there are goals. No goal is worked on twice at once, so goals are never nested deeper. -/
def goalBound (b : Source) : Nat :=
  2 * total (·.items.size) b.states.toList
    + b.states.size * (b.grammar.rules.size + 2 * b.grammar.groups.size) + 1

def treesOf (b : Source) (refs : List ItemRef) : List Tree :=
  (refs.foldl (b.followCompletion ⟨b.stems b.goalBound, b.trees b.goalBound, b.nulls b.goalBound⟩ .none)
    ⟨[], none, .blank⟩).results

def nullTrees (b : Source) (state : Nat) (target : Target) : List Tree :=
  (b.nulls b.goalBound .none .blank state target).results

def emptyTrees (b : Source) (r : RuleId) : List Tree :=
  (b.nulls b.goalBound .none .blank 0 (.rule r)).results

end Forest.Source

end Earley
