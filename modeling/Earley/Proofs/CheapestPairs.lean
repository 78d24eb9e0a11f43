import Earley.Forest.Frontier
import Earley.Proofs.ForestLimit
import Earley.Proofs.GridOrder

/-!
# The cheapest pairs in order

Every cell of the grid that is to come has a cell of the frontier above and to the left of it, and while rows are merged
it has the next cell of its own row. So the walk over the grid and the merge of its rows both draw the cells in the
order in which they are due, and sorting the pairs of all cells gives that order too (`pairs_eq_sortedPairs`).
-/

namespace Earley.Forest

namespace Frontier

open Cell

variable {rows columns : Nat} {cost : Cell rows columns → Penalty} {f : Frontier rows columns} {a : Cell rows columns}
  {drawn rest : List (Cell rows columns)}

/-- Among the cells that are to come, those that have been seen are those that wait. -/
structure Sound (cost : Cell rows columns → Penalty) (f : Frontier rows columns) (rest : List (Cell rows columns)) :
    Prop extends Waits cost f.waiting rest where
  seen : ∀ a ∈ f.waiting, a ∈ f.seen
  kept : ∀ a ∈ rest, a ∈ f.seen → a ∈ f.waiting

theorem mem_reach {place? : Option (Cell rows columns)} (member : a ∈ f.waiting) :
    a ∈ (f.reach cost place?).waiting := by
  unfold reach
  split
  · exact member
  · split
    · exact member
    · exact mem_insert.mpr (.inr member)

/-- What is reached waits afterwards, unless it has been drawn. -/
theorem Sound.mem_reach_self (h : f.Sound cost rest) (member : a ∈ rest) : a ∈ (f.reach cost (some a)).waiting := by
  by_cases old : a ∈ f.seen
  · simpa [Frontier.reach, old] using h.kept a member old
  · simpa [Frontier.reach, old] using mem_insert.mpr (.inl rfl)

theorem Sound.reach (h : f.Sound cost rest) {place? : Option (Cell rows columns)}
    (member : ∀ a, place? = some a → a ∈ rest) : (f.reach cost place?).Sound cost rest := by
  unfold Frontier.reach
  split
  case h_1 => exact h
  case h_2 a =>
    split
    case isTrue => exact h
    case isFalse unseen =>
      refine ⟨h.toWaits.insert (fun waits => unseen (h.seen a waits)) (member a rfl), fun b inside => ?_,
        fun b later old => ?_⟩
      · rcases mem_insert.mp inside with rfl | waits
        · exact List.mem_cons_self ..
        · exact List.mem_cons_of_mem a (h.seen b waits)
      · rcases List.mem_cons.mp old with rfl | old
        · exact mem_insert.mpr (.inl rfl)
        · exact mem_insert.mpr (.inr (h.kept b later old))

structure Valid (cost : Cell rows columns → Penalty) (f : Frontier rows columns) (rest : List (Cell rows columns)) :
    Prop extends Sound cost f rest where
  leads : ∀ b ∈ rest, ∃ a ∈ f.waiting, a.row ≤ b.row ∧ a.column ≤ b.column

/-- Drawing the next cell leaves the frontier of a walk. -/
theorem Valid.advance {waiting seen : List (Cell rows columns)} (grows : Grows cost)
    (split : drawn ++ a :: rest = due cost) (h : Valid cost ⟨a :: waiting, seen⟩ (a :: rest)) :
    Valid cost (advance cost a waiting seen) rest := by
  have order := inOrder_of_split split
  have fresh : a ∉ rest := fun member => not_precedes_self ((List.pairwise_cons.mp order).1 a member)
  have later : Sound cost ⟨waiting, seen⟩ rest := by
    refine ⟨h.toWaits.tail order, fun b waits => h.seen b (List.mem_cons_of_mem a waits), fun b member old => ?_⟩
    rcases List.mem_cons.mp (h.kept b (List.mem_cons_of_mem a member) old) with rfl | waits
    · exact absurd member fresh
    · exact waits
  have once := later.reach fun b next => below?_mem grows split next
  have twice := once.reach fun b next => right?_mem grows split next
  refine ⟨twice, fun b member => ?_⟩
  obtain ⟨c, waits, row, column⟩ := h.leads b (List.mem_cons_of_mem a member)
  rcases List.mem_cons.mp waits with rfl | waits
  · rcases eq_or_neighbour row column with rfl | ⟨d, next, row, column⟩ | ⟨d, next, row, column⟩
    · exact absurd member fresh
    · refine ⟨d, mem_reach ?_, row, column⟩
      rw [next]
      exact later.mem_reach_self (below?_mem grows split next)
    · refine ⟨d, ?_, row, column⟩
      unfold Frontier.advance
      rw [next]
      exact once.mem_reach_self (right?_mem grows split next)
  · exact ⟨c, mem_reach (mem_reach waits), row, column⟩

theorem valid_corner (cost : Cell rows columns → Penalty) : Valid cost (corner rows columns) (due cost) := by
  unfold corner
  split
  case isTrue some =>
    refine ⟨⟨⟨List.pairwise_singleton .., fun a _ => mem_due a⟩, fun a waits => waits, fun a _ old => old⟩,
      fun b _ => ⟨_, List.mem_cons_self .., ?_, ?_⟩⟩
    · exact Nat.zero_le _
    · exact Nat.zero_le _
  case isFalse none =>
    refine ⟨⟨⟨.nil, by simp⟩, by simp, by simp⟩, fun b _ => absurd ⟨?_, ?_⟩ none⟩
    · exact Nat.zero_lt_of_lt b.row.isLt
    · exact Nat.zero_lt_of_lt b.column.isLt

/-- A walk draws the cells that are to come in order. -/
theorem drawCells_eq {most : Penalty} (grows : Grows cost) (count : Nat) (split : drawn ++ rest = due cost)
    (h : f.Valid cost rest) : drawCells cost most count f = taken cost most count rest := by
  induction count generalizing drawn rest f with
  | zero => rfl
  | succ count ih =>
    obtain ⟨waiting, seen⟩ := f
    cases rest with
    | nil =>
      obtain rfl : waiting = [] := h.toWaits.eq_nil
      rfl
    | cons a rest =>
      have order := inOrder_of_split split
      obtain ⟨later, rfl⟩ : ∃ later, waiting = a :: later :=
        Leads.first grows order ⟨h.toWaits, h.leads⟩
      have later : (drawn ++ [a]) ++ rest = due cost := by simpa using split
      rw [drawCells, taken_cons count order, ih later (h.advance grows split)]

end Frontier

namespace Cell

variable {rows columns : Nat} {cost : Cell rows columns → Penalty} {a : Cell rows columns}
  {drawn rest waiting : List (Cell rows columns)}

/-- Cells that wait where every row with cells to come waits at the first of them. -/
structure RowWise (cost : Cell rows columns → Penalty) (waiting rest : List (Cell rows columns)) : Prop
    extends Waits cost waiting rest where
  apart : waiting.Pairwise fun a b => a.row ≠ b.row
  leads : ∀ b ∈ rest, ∃ a ∈ waiting, a.row = b.row ∧ a.column ≤ b.column

def shift (cost : Cell rows columns → Penalty) (a : Cell rows columns) (waiting : List (Cell rows columns)) :
    List (Cell rows columns) :=
  match a.right? with
  | none => waiting
  | some b => b.insert cost waiting

theorem mem_shift {b : Cell rows columns} :
    b ∈ a.shift cost waiting ↔ a.right? = some b ∨ b ∈ waiting := by
  unfold shift
  split
  case h_1 last => simp [last]
  case h_2 c next => rw [mem_insert, next, Option.some.injEq, eq_comm]

theorem pairwise_insert {R : Cell rows columns → Cell rows columns → Prop} (symm : ∀ {a b}, R a b → R b a)
    (apart : waiting.Pairwise R) (new : ∀ b ∈ waiting, R a b) : (a.insert cost waiting).Pairwise R := by
  induction waiting with
  | nil => exact List.pairwise_singleton ..
  | cons b waiting ih =>
    obtain ⟨first, rest⟩ := List.pairwise_cons.mp apart
    obtain ⟨here, later⟩ := List.forall_mem_cons.mp new
    unfold Cell.insert
    split
    · exact List.pairwise_cons.mpr ⟨new, apart⟩
    · refine List.pairwise_cons.mpr ⟨fun c member => ?_, ih rest later⟩
      rcases mem_insert.mp member with rfl | old
      · exact symm here
      · exact first c old

theorem RowWise.shift (grows : Grows cost) (split : drawn ++ a :: rest = due cost)
    (h : RowWise cost (a :: waiting) (a :: rest)) : RowWise cost (a.shift cost waiting) rest := by
  have order := inOrder_of_split split
  have fresh : a ∉ rest := fun member => not_precedes_self ((List.pairwise_cons.mp order).1 a member)
  have later := h.toWaits.tail order
  obtain ⟨other, others⟩ := List.pairwise_cons.mp h.apart
  have leads : ∀ b ∈ rest, ∃ c ∈ a.shift cost waiting, c.row = b.row ∧ c.column ≤ b.column := by
    intro b member
    obtain ⟨c, waits, row, column⟩ := h.leads b (List.mem_cons_of_mem a member)
    rcases List.mem_cons.mp waits with rfl | waits
    · obtain ⟨d, next, -, column⟩ : ∃ d, c.right? = some d ∧ d.row ≤ b.row ∧ d.column ≤ b.column := by
        rcases eq_or_neighbour (Nat.le_of_eq (congrArg Fin.val row)) column with rfl | ⟨d, next, below, -⟩ | right
        · exact absurd member fresh
        · have down := (below?_eq_some_iff.mp next).1
          rw [Fin.le_def, ← row] at below
          omega
        · exact right
      exact ⟨d, mem_shift.mpr (.inl next), (right?_eq_some_iff.mp next).1.trans row, column⟩
    · exact ⟨c, mem_shift.mpr (.inr waits), row, column⟩
  cases next : a.right? with
  | none =>
    have same : a.shift cost waiting = waiting := by rw [Cell.shift, next]
    exact ⟨same.symm ▸ later, same.symm ▸ others, leads⟩
  | some b =>
    have same : a.shift cost waiting = b.insert cost waiting := by rw [Cell.shift, next]
    obtain ⟨row, column⟩ := right?_eq_some_iff.mp next
    have differ : ∀ c ∈ waiting, b.row ≠ c.row := fun c waits => row.symm ▸ other c waits
    have after : b ∈ rest := right?_mem grows split next
    refine ⟨same.symm ▸ later.insert (fun waits => differ b waits rfl) after, ?_, leads⟩
    rw [same]
    exact pairwise_insert (fun h => h.symm) others differ

end Cell

namespace Row

open Cell

variable {stems : List Stem} {children : List Tree} {r : Row} {rows : List Row}
  {a : Cell stems.length children.length} {drawn rest waiting : List (Cell stems.length children.length)}

structure At (stems : List Stem) (children : List Tree) (r : Row) (a : Cell stems.length children.length) : Prop where
  position : r.position = a.row
  stem : r.stem = stems.get a.row
  left : r.next :: r.rest = children.drop a.column

theorem At.next (h : r.At stems children a) :
    r.next = children.get a.column ∧ r.rest = children.drop (a.column + 1) := by
  have left := h.left
  rw [List.drop_eq_getElem_cons a.column.isLt] at left
  exact List.cons.inj left

theorem At.cost (h : r.At stems children a) : r.cost = pairCost stems children a := by
  rw [Row.cost, pairCost, h.stem, h.next.1]

theorem At.pair (h : r.At stems children a) : r.stem.extend r.next = pairAt stems children a := by
  rw [pairAt, h.stem, h.next.1]

theorem At.insert (h : r.At stems children a) (all : List.Forall₂ (At stems children) rows waiting)
    (apart : ∀ b ∈ waiting, a.row ≠ b.row) :
    List.Forall₂ (At stems children) (r.insert rows) (a.insert (pairCost stems children) waiting) := by
  induction all with
  | nil => exact .cons h .nil
  | @cons r' b rows waiting here later ih =>
    obtain ⟨differ, others⟩ := List.forall_mem_cons.mp apart
    have same : r.precedes r' = a.precedes (pairCost stems children) b := by
      have differ : (a.row == b.row) = false := beq_false_of_ne differ
      simp [Row.precedes, Cell.precedes, h.cost, here.cost, h.position, here.position, differ]
    unfold Row.insert Cell.insert
    rw [same]
    split
    · exact .cons h (.cons here later)
    · exact .cons here (ih others)

/-- Rows go on as the cells that wait do. -/
theorem At.drop (h : r.At stems children a) (all : List.Forall₂ (At stems children) rows waiting)
    (apart : ∀ b ∈ waiting, a.row ≠ b.row) :
    List.Forall₂ (At stems children) (r.drop rows) (a.shift (pairCost stems children) waiting) := by
  obtain ⟨-, rest⟩ := h.next
  unfold Row.drop Cell.shift
  cases next : a.right? with
  | none =>
    have last : children.drop (a.column + 1) = [] := by
      apply List.drop_eq_nil_of_le
      unfold right? at next
      split at next
      · cases next
      · omega
    rw [rest, last]
    exact all
  | some b =>
    obtain ⟨row, column⟩ := right?_eq_some_iff.mp next
    rw [← column] at rest
    have more := List.drop_eq_getElem_cons b.column.isLt
    rw [rest, more]
    refine At.insert ⟨?_, ?_, more.symm⟩ all fun c waits => row.symm ▸ apart c waits
    · rw [h.position, row]
    · simp only [h.stem, row]

/-- The merge of rows draws the cells that are to come in order. -/
theorem drawPairs_eq {most : Penalty} (grows : Grows (pairCost stems children)) (count : Nat)
    (split : drawn ++ rest = due (pairCost stems children)) (all : List.Forall₂ (At stems children) rows waiting)
    (h : RowWise (pairCost stems children) waiting rest) :
    drawPairs most count rows = (taken (pairCost stems children) most count rest).map (pairAt stems children) := by
  induction count generalizing drawn rest rows waiting with
  | zero => rfl
  | succ count ih =>
    cases rest with
    | nil =>
      obtain rfl := h.toWaits.eq_nil
      cases all
      rfl
    | cons a rest =>
      have order := inOrder_of_split split
      have leads : Leads (pairCost stems children) waiting (a :: rest) :=
        ⟨h.toWaits, fun b member => (h.leads b member).imp fun c ⟨waits, row, column⟩ =>
          ⟨waits, Nat.le_of_eq (congrArg Fin.val row), column⟩⟩
      obtain ⟨later, rfl⟩ := leads.first grows order
      cases all with
      | cons here others =>
        have later : (drawn ++ [a]) ++ rest = due (pairCost stems children) := by simpa using split
        rw [drawPairs, taken_cons count order, here.cost, here.pair,
          ih later (here.drop others (List.pairwise_cons.mp h.apart).1) (h.shift grows split)]
        split <;> rfl

/-- At first every row waits at its first cell. -/
theorem rowsFrom_at (stems : List Stem) (children : List Tree) (grows : Grows (pairCost stems children)) :
    ∃ waiting, List.Forall₂ (At stems children) (rowsFrom 0 stems children) waiting ∧
      RowWise (pairCost stems children) waiting (due (pairCost stems children)) := by
  cases children with
  | nil => exact ⟨[], .nil, ⟨.nil, by simp⟩, .nil, fun b _ => absurd b.column.isLt (Nat.not_lt_zero _)⟩
  | cons t ts =>
    let first (i : Fin stems.length) : Cell stems.length (t :: ts).length := ⟨i, ⟨0, Nat.succ_pos _⟩⟩
    refine ⟨(List.finRange stems.length).map first, ?_, ⟨?_, fun b _ => mem_due b⟩, ?_, fun b _ => ?_⟩
    · rw [rowsFrom, List.forall₂_map_left_iff, List.forall₂_map_right_iff, List.forall₂_iff_get]
      refine ⟨by simp, fun i inside inside' => ⟨?_, ?_, ?_⟩⟩ <;> simp [first]
    · refine List.pairwise_map.mpr ((List.pairwise_lt_finRange _).imp fun {i j} less => ?_)
      refine grows.precedes (Nat.le_of_lt less) (Nat.le_refl _) fun same => ?_
      exact Fin.ne_of_lt less (congrArg Cell.row same)
    · exact List.pairwise_map.mpr ((List.pairwise_lt_finRange _).imp Fin.ne_of_lt)
    · exact ⟨first b.row, List.mem_map.mpr ⟨b.row, List.mem_finRange _, rfl⟩, rfl, Nat.zero_le _⟩

end Row

section Pairs

open Cell

variable {stems : List Stem} {children : List Tree}

theorem grows_pairCost (hs : Ranked Stem.penalty stems) (ht : Ranked Tree.penalty children) :
    Grows (pairCost stems children) := by
  intro a b row column
  have mono {α : Type} {cost : α → Penalty} {as : List α} (ranked : Ranked cost as) {i j : Fin as.length} (le : i ≤ j) :
      cost (as.get i) ≤ cost (as.get j) := by
    rcases Nat.lt_or_eq_of_le le with less | same
    · exact List.pairwise_iff_getElem.mp ranked i j i.isLt j.isLt less
    · rw [Fin.ext same]
      exact Nat.le_refl _
  exact Penalty.add_le_add (mono hs row) (mono ht column)

theorem map_all (stems : List Stem) (children : List Tree) :
    (all stems.length children.length).map (pairAt stems children) = grid stems children := by
  calc (all stems.length children.length).map (pairAt stems children)
      = (List.finRange stems.length).flatMap fun i =>
          (List.finRange children.length).map fun j => (stems.get i).extend (children.get j) := by
        rw [all, List.map_flatMap]
        simp only [List.map_map]
        rfl
    _ = (List.finRange stems.length).flatMap fun i => children.map (stems.get i).extend := by
        refine congrArg (List.flatMap · _) (funext fun i => ?_)
        exact (List.map_map ..).symm.trans (congrArg (List.map (stems.get i).extend) (List.map_get_finRange children))
    _ = grid stems children :=
        (List.flatMap_map ..).symm.trans
          (congrArg (List.flatMap fun s : Stem => children.map s.extend) (List.map_get_finRange stems))

/-- All pairs, sorted by penalty so that equally cheap ones stay in order, without those that are too dear, and of the
rest the first `limit`. -/
def sortedPairs (limit : Nat) (maxPenalty : Penalty) (stems : List Stem) (children : List Tree) : List Stem :=
  (((grid stems children).mergeSort fun a b => a.penalty ≤ b.penalty).filter (·.penalty ≤ maxPenalty)).take limit

theorem sortedPairs_eq (limit : Nat) (most : Penalty) (stems : List Stem) (children : List Tree) :
    sortedPairs limit most stems children =
      (taken (pairCost stems children) most limit (due (pairCost stems children))).map (pairAt stems children) := by
  have sorted : (grid stems children).mergeSort (fun a b => a.penalty ≤ b.penalty) =
      (due (pairCost stems children)).map (pairAt stems children) := by
    rw [← map_all]
    exact (List.map_mergeSort (f := pairAt stems children) fun _ _ _ _ => rfl).symm
  rw [sortedPairs, sorted, List.filter_map, ← List.map_take]
  rfl

theorem walkPairs_eq (hs : Ranked Stem.penalty stems) (ht : Ranked Tree.penalty children) (limit : Nat)
    (most : Penalty) :
    walkPairs stems children limit most = sortedPairs limit most stems children := by
  rw [sortedPairs_eq, walkPairs, Frontier.drawCells_eq (grows_pairCost hs ht) limit (List.nil_append _)
    (Frontier.valid_corner _)]

theorem pairs_eq (hs : Ranked Stem.penalty stems) (ht : Ranked Tree.penalty children) (limit : Nat) (most : Penalty) :
    pairs limit most stems children = sortedPairs limit most stems children := by
  obtain ⟨waiting, all, rowWise⟩ := Row.rowsFrom_at stems children (grows_pairCost hs ht)
  rw [sortedPairs_eq, pairs_eq_drawPairs, Row.drawPairs_eq (grows_pairCost hs ht) limit (List.nil_append _) all
    rowWise]

theorem walkPairs_eq_pairs (hs : Ranked Stem.penalty stems) (ht : Ranked Tree.penalty children) (limit : Nat)
    (most : Penalty) : walkPairs stems children limit most = pairs limit most stems children :=
  (walkPairs_eq hs ht limit most).trans (pairs_eq hs ht limit most).symm

/-- The pairs of two sorted lists, whether a walk over their grid or a merge of its rows finds them, are the first of
all pairs when these are sorted by penalty and equally cheap ones stay in order. Nothing of either list beyond its first
`limit` elements matters. -/
theorem pairs_eq_sortedPairs (limit : Nat) (maxPenalty : Penalty) (stems : List Stem) (children : List Tree)
    (hs : Ranked Stem.penalty stems) (ht : Ranked Tree.penalty children) :
    walkPairs stems children limit maxPenalty = sortedPairs limit maxPenalty stems children ∧
      pairs limit maxPenalty stems children = sortedPairs limit maxPenalty stems children ∧
      walkPairs (stems.take limit) (children.take limit) limit maxPenalty =
        sortedPairs limit maxPenalty stems children ∧
      pairs limit maxPenalty (stems.take limit) (children.take limit) =
        sortedPairs limit maxPenalty stems children := by
  have cut : pairs limit maxPenalty (stems.take limit) (children.take limit) =
      sortedPairs limit maxPenalty stems children := by
    rw [take_pairs (Nat.le_refl limit), pairs_eq hs ht, sortedPairs, List.take_take, Nat.min_self]
  have hs' : Ranked Stem.penalty (stems.take limit) := hs.sublist (List.take_sublist _ _)
  have ht' : Ranked Tree.penalty (children.take limit) := ht.sublist (List.take_sublist _ _)
  exact ⟨walkPairs_eq hs ht limit maxPenalty, pairs_eq hs ht limit maxPenalty,
    (walkPairs_eq_pairs hs' ht' limit maxPenalty).trans cut, cut⟩

def pricedTree (p : Penalty) : Tree := .node (.rule ⟨0⟩ none) ⟨0, 0⟩ p []

/-- Among the pairs of three stems and three trees are equally cheap ones, some of them only because sums saturate. -/
theorem pairs_eq_sortedPairs_ties :
    let stems : List Stem := [0, 1, .greatest].map fun p => .single (pricedTree p)
    let children : List Tree := [0, 1, .greatest].map pricedTree
    walkPairs stems children 6 .greatest = sortedPairs 6 .greatest stems children ∧
      (sortedPairs 6 .greatest stems children).map (fun s => s.children.map (·.penalty.value)) =
        [[0, 0], [0, 1], [1, 0], [1, 1], [0, 4294967295], [1, 4294967295]] := by
  intro stems children
  have hs : Ranked Stem.penalty stems := by unfold Ranked; decide
  have ht : Ranked Tree.penalty children := by unfold Ranked; decide
  obtain ⟨walk, merged, -, -⟩ := pairs_eq_sortedPairs 6 .greatest stems children hs ht
  refine ⟨walk, ?_⟩
  rw [← merged]
  decide

end Pairs

end Earley.Forest
