import Earley.Chart.Checked
import Earley.Forest.Builder

/-!
# Search for trees, with every access checked

What the search remembers is kept by state, so a goal has to be about a state that there is. What it reads in the
tables of the grammar has to be there, the numbers of the items that it finds have to fit, and a leaf is of the token
before a state that is not the first. A search without fuel left has no result.
-/

namespace Earley.Forest.Checked

open Chart Chart.Checked

structure Answers where
  stems : Active → Memo → ItemRef → Option (Found Stem)
  trees : Active → Memo → ItemRef → Option (Found Tree)
  nulls : Active → Memo → Nat → Target → Option (Found Tree)

section

variable (b : Source)

def leaf? (state : Nat) : Option (Option Tree) :=
  match b.states[state]?.bind (·.token), state with
  | none, _ => some none
  | some t, i + 1 => some (some (.leaf t i))
  | some _, 0 => none

def finish (ref : ItemRef) (stems : List Stem) : Option (List Tree) :=
  match b.item? ref with
  | some item => do
    let _ ← targetPenalty b.grammar item.key.owner.target
    return b.finish ref stems
  | none => return []

def treesWith (answers : Answers) (active : Active) (memo : Memo) (ref : ItemRef) : Option (Found Tree) := do
  let _ ← b.states[ref.state]?
  match memo.trees.find? (.trees ref) with
  | some hit => return ⟨hit, none, memo⟩
  | none =>
    match active.depth? (.trees ref) with
    | some depth => return ⟨[], some depth, memo⟩
    | none => do
      let ⟨stems, cut, memo⟩ ← answers.stems (active.push (.trees ref)) memo ref
      let trees ← finish b ref stems
      match outerCut active.depth cut with
      | none => return ⟨trees, none, memo.keepTrees (.trees ref) trees⟩
      | cut => return ⟨trees, cut, memo⟩

def followLink (answers : Answers) (active : Active) (ref : ItemRef) (found : Found Stem) (link : Link) :
    Option (Found Stem) := do
  let ⟨results, cut, memo⟩ := found
  let ⟨stems, stemCut, memo⟩ ← answers.stems active memo link.previous
  let cut := shallower cut stemCut
  if stems.isEmpty then return ⟨results, cut, memo⟩
  else
    match link.child with
    | .empty => return ⟨b.addStems results stems, cut, memo⟩
    | .token => do
      match ← leaf? b ref.state with
      | some leaf => return ⟨b.addStems results (pairs b.limit b.maxPenalty stems [leaf]), cut, memo⟩
      | none => return ⟨results, cut, memo⟩
    | .completed child => do
      let ⟨trees, treeCut, memo⟩ ← answers.trees active memo child
      return ⟨b.addStems results (pairs b.limit b.maxPenalty stems trees), shallower cut treeCut, memo⟩
    | .null target => do
      let ⟨trees, treeCut, memo⟩ ← answers.nulls active memo ref.state target
      return ⟨b.addStems results (pairs b.limit b.maxPenalty stems trees), shallower cut treeCut, memo⟩

def stemsWith (answers : Answers) (active : Active) (memo : Memo) (ref : ItemRef) : Option (Found Stem) := do
  let _ ← b.states[ref.state]?
  match memo.stems.find? ref with
  | some hit => return ⟨hit, none, memo⟩
  | none =>
    match b.item? ref with
    | none => return ⟨[], none, memo⟩
    | some item =>
      if item.links.isEmpty then return ⟨[.empty], none, memo.keepStems ref [.empty]⟩
      else
        match active.depth? (.stems ref) with
        | some depth => return ⟨[], some depth, memo⟩
        | none => do
          let ⟨stems, cut, memo⟩ ←
            item.links.toList.foldlM (followLink b answers (active.push (.stems ref)) ref) ⟨[], none, memo⟩
          match outerCut active.depth cut with
          | none => return ⟨stems, none, memo.keepStems ref stems⟩
          | cut => return ⟨stems, cut, memo⟩

def followCompletion (answers : Answers) (active : Active) (found : Found Tree) (ref : ItemRef) :
    Option (Found Tree) := do
  let ⟨results, cut, memo⟩ := found
  let ⟨trees, treeCut, memo⟩ ← answers.trees active memo ref
  return ⟨b.addTrees results trees, shallower cut treeCut, memo⟩

end

section

variable (fits : Nat → Bool) (b : Source)

def nullsWith (answers : Answers) (active : Active) (memo : Memo) (state : Nat) (target : Target) :
    Option (Found Tree) := do
  let _ ← b.states[state]?
  match memo.trees.find? (.nulls state target) with
  | some hit => return ⟨hit, none, memo⟩
  | none =>
    match active.depth? (.nulls state target) with
    | some depth => return ⟨[], some depth, memo⟩
    | none => do
      let refs ← (b.emptyCompletions state target).mapM fun ref => refTo fits ref.state ref.index
      let ⟨results, cut, memo⟩ ←
        refs.foldlM (followCompletion b answers (active.push (.nulls state target))) ⟨[], none, memo⟩
      let _ ← targetPenalty b.grammar target
      let trees := b.addTrees results (b.bareTrees state target)
      match outerCut active.depth cut with
      | none => return ⟨trees, none, memo.keepTrees (.nulls state target) trees⟩
      | cut => return ⟨trees, cut, memo⟩

/-- The answers of a search in which at most `fuel` goals are nested. -/
def answers : (fuel : Nat) → Answers
  | 0 => ⟨fun _ _ _ => none, fun _ _ _ => none, fun _ _ _ _ => none⟩
  | fuel + 1 => ⟨stemsWith b (answers fuel), treesWith b (answers fuel), nullsWith fits b (answers fuel)⟩

def treesOf (refs : List ItemRef) : Option (List Tree) := do
  let found ← refs.foldlM (followCompletion b (answers fits b b.goalBound) .none) ⟨[], none, .blank⟩
  return found.results

def emptyTrees (r : RuleId) : Option (List Tree) := do
  let found ← (answers fits b b.goalBound).nulls .none .blank 0 (.rule r)
  return found.results

end

end Earley.Forest.Checked
