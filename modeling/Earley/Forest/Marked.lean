import Earley.Parser

/-!
# Search that marks its goals

The same search with the goals being worked on in one table: a goal is written down before its parts are asked for and
struck out afterwards. The recursion is taken as it stands. Nothing counts down, and a search that goes on for ever has
no result. Every table that comes up is noted, to tell what was being worked on at the same time.
-/

namespace Earley.Forest.Marked

open Chart

structure Work where
  /-- The goals being worked on, the latest first, each with the number of those before it. -/
  active : List (Goal × Nat)
  memo : Memo
  /-- All tables of goals so far, the latest first. -/
  tables : List (List (Goal × Nat))

namespace Work

def idle (memo : Memo) : Work := ⟨[], memo, []⟩

/-- Writes a goal down, or tells its depth if it is down already. -/
def enter (w : Work) (goal : Goal) : Except Nat Work :=
  match w.active.lookup goal with
  | some depth => .error depth
  | none =>
    let active := (goal, w.active.length) :: w.active
    .ok ⟨active, w.memo, active :: w.tables⟩

def leave (w : Work) (goal : Goal) : Work := { w with active := w.active.filter fun x => x.1 ≠ goal }

end Work

structure Outcome (α : Type) where
  results : List α
  cut : Option Nat
  work : Work

/-- Ends the work on a goal that was entered at some depth. What was not cut on behalf of a goal further out is kept. -/
def settle {α : Type} (goal : Goal) (depth : Nat) (keep : Memo → List α → Memo) (results : List α) (cut : Option Nat)
    (work : Work) : Outcome α :=
  match outerCut depth cut with
  | none => ⟨results, none, { work.leave goal with memo := keep work.memo results }⟩
  | cut => ⟨results, cut, work.leave goal⟩

mutual

def Work.stems (b : Source) (work : Work) (ref : ItemRef) : Option (Outcome Stem) :=
  match work.memo.stems.find? ref with
  | some hit => some ⟨hit, none, work⟩
  | none =>
    match b.item? ref with
    | none => some ⟨[], none, work⟩
    | some item =>
      if item.links.isEmpty then some ⟨[.empty], none, { work with memo := work.memo.keepStems ref [.empty] }⟩
      else
        match work.enter (.stems ref) with
        | .error depth => some ⟨[], some depth, work⟩
        | .ok entered => do
          let out ← item.links.toList.foldlM (fun (out : Outcome Stem) link => out |>.followLink b ref link)
            ⟨[], none, entered⟩
          return settle (.stems ref) work.active.length (·.keepStems ref) out.results out.cut out.work
partial_fixpoint

def Outcome.followLink (b : Source) (ref : ItemRef) (out : Outcome Stem) (link : Link) : Option (Outcome Stem) := do
  let before ← out.work |>.stems b link.previous
  let cut := shallower out.cut before.cut
  if before.results.isEmpty then return ⟨out.results, cut, before.work⟩
  else
    match link.child with
    | .empty => return ⟨b.addStems out.results before.results, cut, before.work⟩
    | .token => match b.leaf? ref.state with
      | some leaf =>
        return ⟨b.addStems out.results (pairs b.limit b.maxPenalty before.results [leaf]), cut, before.work⟩
      | none => return ⟨out.results, cut, before.work⟩
    | .completed child => do
      let inner ← before.work |>.trees b child
      return ⟨b.addStems out.results (pairs b.limit b.maxPenalty before.results inner.results),
        shallower cut inner.cut, inner.work⟩
    | .null target => do
      let inner ← before.work |>.nulls b ref.state target
      return ⟨b.addStems out.results (pairs b.limit b.maxPenalty before.results inner.results),
        shallower cut inner.cut, inner.work⟩
partial_fixpoint

def Work.trees (b : Source) (work : Work) (ref : ItemRef) : Option (Outcome Tree) :=
  match work.memo.trees.find? (.trees ref) with
  | some hit => some ⟨hit, none, work⟩
  | none =>
    match work.enter (.trees ref) with
    | .error depth => some ⟨[], some depth, work⟩
    | .ok entered => do
      let out ← entered |>.stems b ref
      return settle (.trees ref) work.active.length (·.keepTrees (.trees ref)) (b.finish ref out.results) out.cut
        out.work
partial_fixpoint

def Outcome.followCompletion (b : Source) (out : Outcome Tree) (ref : ItemRef) : Option (Outcome Tree) := do
  let inner ← out.work |>.trees b ref
  return ⟨b.addTrees out.results inner.results, shallower out.cut inner.cut, inner.work⟩
partial_fixpoint

def Work.nulls (b : Source) (work : Work) (state : Nat) (target : Target) : Option (Outcome Tree) :=
  match work.memo.trees.find? (.nulls state target) with
  | some hit => some ⟨hit, none, work⟩
  | none =>
    match work.enter (.nulls state target) with
    | .error depth => some ⟨[], some depth, work⟩
    | .ok entered => do
      let out ← (b.emptyCompletions state target).foldlM
        (fun (out : Outcome Tree) ref => out |>.followCompletion b ref) ⟨[], none, entered⟩
      return settle (.nulls state target) work.active.length (·.keepTrees (.nulls state target))
        (b.addTrees out.results (b.bareTrees state target)) out.cut out.work
partial_fixpoint

end

def treesOf (b : Source) (refs : List ItemRef) : Option (Outcome Tree) :=
  refs.foldlM (fun (out : Outcome Tree) ref => out.followCompletion b ref) ⟨[], none, .idle .blank⟩

def emptyTrees (b : Source) (r : RuleId) : Option (Outcome Tree) := (Work.idle .blank).nulls b 0 (.rule r)

/-- How the work on a goal ends that was begun while there was no other. -/
def search (b : Source) (memo : Memo) : Goal → Option Work
  | .stems ref => ((Work.idle memo).stems b ref).map (·.work)
  | .trees ref => ((Work.idle memo).trees b ref).map (·.work)
  | .nulls state target => ((Work.idle memo).nulls b state target).map (·.work)

end Earley.Forest.Marked

/-- The cheapest trees of the input, by the search that marks its goals. -/
def Earley.Parser.markedTrees (p : Parser) (limit : Nat) : Option (List Tree) :=
  match p.grammar.start with
  | some start =>
    let source : Forest.Source := ⟨p.grammar, p.states, max limit 1, p.config.maxPenalty⟩
    if !p.hasParse then some []
    else if Chart.startsEmpty p.grammar p.states start then (Forest.Marked.emptyTrees source start).map (·.results)
    else (Forest.Marked.treesOf source (Chart.acceptingRefs p.states start)).map (·.results)
  | none => some []
