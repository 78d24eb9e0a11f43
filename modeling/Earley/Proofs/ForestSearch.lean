import Earley.Proofs.ForestBuilder

/-!
# Steps of the search

A goal is answered from memory, or cut as it is being worked on already, or worked on. Working on it asks for other
goals and puts their answers together. What a goal yields is said here in these terms once and for all.
-/

namespace Earley.Forest

open Chart

variable {b : Source} {start : RuleId} {input : List Token}

def Active.goals (active : Active) : Set Goal := { goal | ∃ d, active.depth? goal = some d }

theorem Active.goals_push (active : Active) (goal : Goal) : (active.push goal).goals = insert goal active.goals := by
  ext other
  simp only [goals, Set.mem_ofPred_eq, depth?_push, Set.mem_insert_iff]
  by_cases same : goal = other
  · simp [same]
  · simp [same, Ne.symm same]

theorem Active.not_mem_goals {active : Active} {goal : Goal} (idle : active.depth? goal = .none) :
    goal ∉ active.goals := by
  rintro ⟨d, found⟩
  rw [idle] at found
  cases found

/-- What a goal yields once it is worked on: its results are remembered unless they were cut. -/
def settled {α : Type} (depth : Nat) (keep : Memo → List α → Memo) (results : List α) (cut : Option Nat) (memo : Memo) :
    Found α :=
  match outerCut depth cut with
  | none => ⟨results, none, keep memo results⟩
  | cut => ⟨results, cut, memo⟩

@[simp] theorem results_settled {α : Type} (depth : Nat) (keep : Memo → List α → Memo) (results : List α)
    (cut : Option Nat) (memo : Memo) : (settled depth keep results cut memo).results = results := by
  rw [settled]
  split <;> rfl

/-- The trees of an item are remembered, or being worked on, or its stems are finished. -/
theorem treesWith_cases (b : Source) (answers : Answers) (active : Active) (memo : Memo) (ref : ItemRef) :
    (∃ hit, memo.trees.find? (.trees ref) = some hit ∧ b.treesWith answers active memo ref = ⟨hit, none, memo⟩) ∨
    (∃ d, active.depth? (.trees ref) = some d ∧ b.treesWith answers active memo ref = ⟨[], some d, memo⟩) ∨
    (active.depth? (.trees ref) = none ∧
      let inner := answers.stems (active.push (.trees ref)) memo ref
      b.treesWith answers active memo ref =
        settled active.depth (·.keepTrees (.trees ref)) (b.finish ref inner.results) inner.cut inner.memo) := by
  rw [Source.treesWith]
  cases memo.trees.find? (.trees ref) with
  | some hit => exact .inl ⟨hit, rfl, rfl⟩
  | none =>
    cases active.depth? (.trees ref) with
    | some d => exact .inr (.inl ⟨d, rfl, rfl⟩)
    | none => exact .inr (.inr ⟨rfl, rfl⟩)

/-- The stems of an item are remembered, or there is nothing behind it, or they are being worked on, or its links are
followed. -/
theorem stemsWith_cases (b : Source) (answers : Answers) (active : Active) (memo : Memo) {ref : ItemRef} {item : Item}
    (place : b.item? ref = some item) :
    (∃ hit, memo.stems.find? ref = some hit ∧ b.stemsWith answers active memo ref = ⟨hit, none, memo⟩) ∨
    (item.links = #[] ∧ b.stemsWith answers active memo ref = ⟨[.empty], none, memo.keepStems ref [.empty]⟩) ∨
    (item.links ≠ #[] ∧ ∃ d, active.depth? (.stems ref) = some d ∧
      b.stemsWith answers active memo ref = ⟨[], some d, memo⟩) ∨
    (item.links ≠ #[] ∧ active.depth? (.stems ref) = none ∧
      let inner := item.links.foldl (b.followLink answers (active.push (.stems ref)) ref) ⟨[], none, memo⟩
      b.stemsWith answers active memo ref =
        settled active.depth (·.keepStems ref) inner.results inner.cut inner.memo) := by
  rw [Source.stemsWith]
  cases memo.stems.find? ref with
  | some hit => exact .inl ⟨hit, rfl, rfl⟩
  | none =>
    dsimp only
    rw [place]
    by_cases opening : item.links = #[]
    · exact .inr (.inl ⟨opening, by simp [opening]⟩)
    · have linked : item.links.isEmpty = false := by simpa using opening
      dsimp only
      rw [linked]
      cases active.depth? (.stems ref) with
      | some d => exact .inr (.inr (.inl ⟨opening, d, rfl, rfl⟩))
      | none => exact .inr (.inr (.inr ⟨opening, rfl, rfl⟩))

/-- The trees of a target that derives nothing are remembered, or being worked on, or those of all completed items. -/
theorem nullsWith_cases (b : Source) (answers : Answers) (active : Active) (memo : Memo) (j : Nat) (target : Target) :
    (∃ hit, memo.trees.find? (.nulls j target) = some hit ∧
      b.nullsWith answers active memo j target = ⟨hit, none, memo⟩) ∨
    (∃ d, active.depth? (.nulls j target) = some d ∧ b.nullsWith answers active memo j target = ⟨[], some d, memo⟩) ∨
    (active.depth? (.nulls j target) = none ∧
      let inner := (b.emptyCompletions j target).foldl
        (b.followCompletion answers (active.push (.nulls j target))) ⟨[], none, memo⟩
      b.nullsWith answers active memo j target = settled active.depth (·.keepTrees (.nulls j target))
        (b.addTrees inner.results (b.bareTrees j target)) inner.cut inner.memo) := by
  rw [Source.nullsWith]
  cases memo.trees.find? (.nulls j target) with
  | some hit => exact .inl ⟨hit, rfl, rfl⟩
  | none =>
    cases active.depth? (.nulls j target) with
    | some d => exact .inr (.inl ⟨d, rfl, rfl⟩)
    | none => exact .inr (.inr ⟨rfl, rfl⟩)

def Answers.child (answers : Answers) (active : Active) (memo : Memo) (state : Nat) : Child → Found Tree
  | .completed ref => answers.trees active memo ref
  | .null target => answers.nulls active memo state target
  | _ => ⟨[], none, memo⟩

def Source.through (b : Source) (ref : ItemRef) (link : Link) (stems : List Stem) (trees : List Tree) : List Stem :=
  match link.child with
  | .empty => stems
  | .token => match b.leaf? ref.state with
    | some leaf => pairs b.limit b.maxPenalty stems [leaf]
    | none => []
  | _ => pairs b.limit b.maxPenalty stems trees

theorem shallower_none (cut : Option Nat) : shallower cut none = cut := by
  cases cut <;> rfl

theorem addStems_nil (b : Source) {stems : List Stem} (short : stems.length ≤ b.limit) :
    b.addStems stems [] = stems := by
  have whole : ∀ as : List Stem, merge Stem.penalty as [] = as := fun as => by
    induction as with
    | nil => rfl
    | cons a as ih => rw [merge, mergeHead, ih]
  rw [Source.addStems, cheapest, whole, List.take_of_length_le short]

theorem through_nil (b : Source) (ref : ItemRef) (link : Link) (trees : List Tree) :
    b.through ref link [] trees = [] := by
  have none (us : List Tree) : pairs b.limit b.maxPenalty [] us = [] := by
    cases us <;> simp [pairs, drawPairs]
  rw [Source.through]
  split
  · rfl
  · split
    · exact none _
    · rfl
  · exact none _

/-- A link leads nowhere, or to what its stems and its child come to. -/
theorem followLink_cases (b : Source) (answers : Answers) (active : Active) (ref : ItemRef) (link : Link)
    {found : Found Stem} (short : found.results.length ≤ b.limit) :
    let first := answers.stems active found.memo link.previous
    let second := answers.child active first.memo ref.state link.child
    (first.results = [] ∧
      b.followLink answers active ref found link = ⟨found.results, shallower found.cut first.cut, first.memo⟩) ∨
    b.followLink answers active ref found link =
      ⟨b.addStems found.results (b.through ref link first.results second.results),
        shallower (shallower found.cut first.cut) second.cut, second.memo⟩ := by
  obtain ⟨results, cut, memo⟩ := found
  intro first second
  rw [Source.followLink]
  by_cases none : first.results = []
  · exact .inl ⟨none, if_pos (List.isEmpty_iff.mpr none)⟩
  · right
    refine (if_neg (fun empty => none (List.isEmpty_iff.mp empty))).trans ?_
    simp only [second, Source.through]
    cases link.child with
    | empty => simp only [Answers.child, shallower_none, first]
    | token =>
      cases b.leaf? ref.state with
      | some leaf => simp only [Answers.child, shallower_none, first]
      | none => simp only [Answers.child, shallower_none, first, addStems_nil b short]
    | completed c => rfl
    | null target => rfl

/-- What a link adds, whether its child is asked for or there are no stems to pair it with. -/
theorem results_followLink (b : Source) (answers : Answers) (active : Active) (ref : ItemRef) (link : Link)
    {found : Found Stem} (short : found.results.length ≤ b.limit) :
    let first := answers.stems active found.memo link.previous
    let second := answers.child active first.memo ref.state link.child
    (b.followLink answers active ref found link).results =
      b.addStems found.results (b.through ref link first.results second.results) := by
  intro first second
  rcases followLink_cases b answers active ref link short with ⟨none, same⟩ | same
  · rw [same, none, through_nil, addStems_nil b short]
  · rw [same]

/-- The goals that a link leads to. -/
theorem posed_link (h : b.Valid start input) {ref : ItemRef} {item : Item} {link : Link}
    (place : itemAt b.states ref = some item) (member : link ∈ item.links) :
    Posed b.grammar b.states (.stems link.previous) ∧
      ∀ goal, childGoal ref.state link.child = some goal → Posed b.grammar b.states goal := by
  obtain ⟨previous, linked⟩ := (h.charted.valid.itemAt place).link member
  obtain ⟨s, state, -⟩ := Option.bind_eq_some_iff.mp place
  obtain ⟨before, there, -⟩ := id linked.has
  exact ⟨⟨before, there⟩, fun goal => posed_child h linked (Array.getElem?_eq_some_iff.mp state).1⟩

end Earley.Forest
