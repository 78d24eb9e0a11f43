import Earley.Forest.Frontier
import Earley.Proofs.ForestRanking
import Mathlib.Data.List.FinRange

/-!
# The order of a grid

All cells of a grid have an order in which they are due, by cost, then by row, then by column. In a grid whose costs
grow along its rows and down its columns, the next cell in that order is always the first of those that wait, if every
cell that is to come has one that waits above and to the left of it (`Leads.first`).
-/

namespace Earley.Forest

namespace Cell

variable {rows columns : Nat} {cost : Cell rows columns → Penalty} {a b c : Cell rows columns}

theorem precedes_iff :
    a.precedes cost b = true ↔ (cost a).value < (cost b).value ∨ (cost a).value = (cost b).value ∧
      (a.row.val < b.row.val ∨ a.row.val = b.row.val ∧ a.column.val < b.column.val) := by
  have same : cost a = cost b ↔ (cost a).value = (cost b).value := ⟨congrArg _, Penalty.ext⟩
  simp [precedes, Penalty.lt_def, same, Fin.ext_iff]

theorem precedes_trans (first : a.precedes cost b = true) (second : b.precedes cost c = true) :
    a.precedes cost c = true := by
  rw [precedes_iff] at *
  omega

theorem not_precedes_self : ¬ a.precedes cost a = true := by
  rw [precedes_iff]
  omega

theorem precedes_of_not_precedes (h : ¬ a.precedes cost b = true) (differ : a ≠ b) : b.precedes cost a = true := by
  have apart : a.row.val ≠ b.row.val ∨ a.column.val ≠ b.column.val := by
    by_contra same
    push Not at same
    exact differ (Cell.ext (Fin.ext same.1) (Fin.ext same.2))
  rw [precedes_iff] at *
  omega

def InOrder (cost : Cell rows columns → Penalty) (cells : List (Cell rows columns)) : Prop :=
  cells.Pairwise fun a b => a.precedes cost b = true

theorem mem_insert {cells : List (Cell rows columns)} : c ∈ a.insert cost cells ↔ c = a ∨ c ∈ cells := by
  induction cells with
  | nil => simp [insert]
  | cons b cells ih =>
    unfold insert
    split
    · exact List.mem_cons
    · rw [List.mem_cons, ih, List.mem_cons]
      tauto

theorem InOrder.insert {cells : List (Cell rows columns)} (h : InOrder cost cells) (fresh : a ∉ cells) :
    InOrder cost (a.insert cost cells) := by
  induction cells with
  | nil => exact List.pairwise_singleton ..
  | cons b cells ih =>
    obtain ⟨first, rest⟩ := List.pairwise_cons.mp h
    obtain ⟨differ, fresh⟩ := List.ne_and_not_mem_of_not_mem_cons fresh
    unfold Cell.insert
    split
    case isTrue before => exact List.pairwise_cons.mpr ⟨List.forall_mem_cons.mpr
        ⟨before, fun c member => precedes_trans before (first c member)⟩, h⟩
    case isFalse after =>
      refine List.pairwise_cons.mpr ⟨fun c member => ?_, ih rest fresh⟩
      rcases mem_insert.mp member with rfl | old
      · exact precedes_of_not_precedes after differ
      · exact first c old

def all (rows columns : Nat) : List (Cell rows columns) :=
  (List.finRange rows).flatMap fun i => (List.finRange columns).map fun j => ⟨i, j⟩

theorem mem_all (a : Cell rows columns) : a ∈ all rows columns :=
  List.mem_flatMap.mpr ⟨a.row, List.mem_finRange _, List.mem_map.mpr ⟨a.column, List.mem_finRange _, rfl⟩⟩

theorem pairwise_all (rows columns : Nat) :
    (all rows columns).Pairwise fun a b => a.row < b.row ∨ a.row = b.row ∧ a.column < b.column := by
  refine List.pairwise_flatMap.mpr ⟨fun i _ => ?_, ?_⟩
  · exact List.pairwise_map.mpr ((List.pairwise_lt_finRange columns).imp fun less => .inr ⟨rfl, less⟩)
  · refine (List.pairwise_lt_finRange rows).imp fun less x inside y inside' => ?_
    obtain ⟨-, -, rfl⟩ := List.mem_map.mp inside
    obtain ⟨-, -, rfl⟩ := List.mem_map.mp inside'
    exact .inl less

def due (cost : Cell rows columns → Penalty) : List (Cell rows columns) :=
  (all rows columns).mergeSort fun a b => cost a ≤ cost b

theorem mem_due (a : Cell rows columns) : a ∈ due cost := List.mem_mergeSort.mpr (mem_all a)

theorem inOrder_due (cost : Cell rows columns → Penalty) : InOrder cost (due cost) := by
  refine List.pairwise_iff_forall_sublist.mpr fun {a b} sub => ?_
  have le : cost a ≤ cost b := List.pairwise_iff_forall_sublist.mp (ranked_mergeSort cost _) sub
  rw [precedes_iff]
  rcases Nat.lt_or_eq_of_le le with less | same
  · exact .inl less
  · -- Cells of one cost are still in the order of the rows.
    have same : cost b = cost a := Penalty.ext same.symm
    have kept := sub.filter (cost · = cost a)
    rw [due, filter_mergeSort_cost] at kept
    have before := List.pairwise_iff_forall_sublist.mp (pairwise_all rows columns)
      ((by simpa [same] using kept : [a, b].Sublist _).trans List.filter_sublist)
    exact .inr ⟨congrArg Penalty.value same.symm, by simpa [Fin.ext_iff] using before⟩

/-- No cell below or to the right of another costs less. -/
def Grows (cost : Cell rows columns → Penalty) : Prop :=
  ∀ {a b : Cell rows columns}, a.row ≤ b.row → a.column ≤ b.column → cost a ≤ cost b

theorem Grows.precedes (grows : Grows cost) (row : a.row ≤ b.row) (column : a.column ≤ b.column) (differ : a ≠ b) :
    a.precedes cost b = true := by
  by_contra late
  have before := precedes_of_not_precedes late differ
  have le : cost a ≤ cost b := grows row column
  have same : a.row.val = b.row.val → a.column.val = b.column.val → False := fun row column =>
    differ (Cell.ext (Fin.ext row) (Fin.ext column))
  simp only [precedes_iff, Penalty.le_def, Fin.le_def] at *
  omega

section Waiting

variable {drawn rest waiting : List (Cell rows columns)}

/-- Whatever is due after a cell is still to come when that cell is drawn. -/
theorem mem_of_precedes (split : drawn ++ a :: rest = due cost) (h : a.precedes cost b = true) : b ∈ rest := by
  have order := inOrder_due cost
  rw [← split] at order
  obtain ⟨-, -, earlier⟩ := List.pairwise_append.mp order
  have member : b ∈ drawn ++ a :: rest := split ▸ mem_due b
  rcases List.mem_append.mp member with before | after
  · exact absurd (precedes_trans h (earlier b before a (List.mem_cons_self ..))) not_precedes_self
  · rcases List.mem_cons.mp after with rfl | after
    · exact absurd h not_precedes_self
    · exact after

/-- Cells that wait in order, each of them still to come. -/
structure Waits (cost : Cell rows columns → Penalty) (waiting rest : List (Cell rows columns)) : Prop where
  order : InOrder cost waiting
  inside : ∀ a ∈ waiting, a ∈ rest

/-- Every cell that is to come has a cell that waits above and to the left of it. -/
structure Leads (cost : Cell rows columns → Penalty) (waiting rest : List (Cell rows columns)) : Prop
    extends Waits cost waiting rest where
  leads : ∀ b ∈ rest, ∃ a ∈ waiting, a.row ≤ b.row ∧ a.column ≤ b.column

/-- The first cell that waits has been drawn. -/
theorem Waits.tail (order : InOrder cost (a :: rest)) (h : Waits cost (a :: waiting) (a :: rest)) :
    Waits cost waiting rest := by
  obtain ⟨first, others⟩ := List.pairwise_cons.mp h.order
  refine ⟨others, fun b waits => ?_⟩
  rcases List.mem_cons.mp (h.inside b (List.mem_cons_of_mem a waits)) with rfl | member
  · exact absurd (first b waits) not_precedes_self
  · exact member

theorem Waits.insert (h : Waits cost waiting rest) (fresh : a ∉ waiting) (member : a ∈ rest) :
    Waits cost (a.insert cost waiting) rest := by
  refine ⟨h.order.insert fresh, fun b waits => ?_⟩
  rcases mem_insert.mp waits with rfl | waits
  · exact member
  · exact h.inside b waits

/-- The first of the cells that wait is the next one that is due. -/
theorem Leads.first (grows : Grows cost) (order : InOrder cost (a :: rest)) (h : Leads cost waiting (a :: rest)) :
    ∃ later, waiting = a :: later := by
  have least (b : Cell rows columns) (member : b ∈ waiting) : b = a ∨ a.precedes cost b = true :=
    (List.mem_cons.mp (h.inside b member)).imp_right ((List.pairwise_cons.mp order).1 b)
  obtain ⟨b, member, row, column⟩ := h.leads a (List.mem_cons_self ..)
  have here : a ∈ waiting := by
    by_cases same : b = a
    · exact same ▸ member
    · have after := (least b member).resolve_left same
      exact absurd (precedes_trans after (grows.precedes row column same)) not_precedes_self
  cases waiting with
  | nil => simp at here
  | cons b later =>
    rcases List.mem_cons.mp here with rfl | behind
    · exact ⟨later, rfl⟩
    · have before := (List.pairwise_cons.mp h.order).1 a behind
      rcases least b (List.mem_cons_self ..) with rfl | after
      · exact ⟨later, rfl⟩
      · exact absurd (precedes_trans before after) not_precedes_self

theorem Waits.eq_nil (h : Waits cost waiting []) : waiting = [] :=
  List.eq_nil_iff_forall_not_mem.mpr fun a member => by simpa using h.inside a member

def taken (cost : Cell rows columns → Penalty) (most : Penalty) (count : Nat) (cells : List (Cell rows columns)) :
    List (Cell rows columns) :=
  (cells.filter (cost · ≤ most)).take count

theorem taken_cons {most : Penalty} (count : Nat) (order : InOrder cost (a :: rest)) :
    taken cost most (count + 1) (a :: rest) = if cost a ≤ most then a :: taken cost most count rest else [] := by
  unfold taken
  split
  case isTrue cheap => rw [List.filter_cons_of_pos (by simpa using cheap), List.take_succ_cons]
  case isFalse dear =>
    have none : (a :: rest).filter (cost · ≤ most) = [] := by
      apply List.filter_eq_nil_iff.mpr
      refine List.forall_mem_cons.mpr ⟨by simpa using dear, fun b member => ?_⟩
      have later := precedes_iff.mp ((List.pairwise_cons.mp order).1 b member)
      simp only [decide_eq_true_eq, Penalty.le_def] at *
      omega
    rw [none, List.take_nil]

theorem inOrder_of_split (split : drawn ++ rest = due cost) : InOrder cost rest := by
  have order := inOrder_due cost
  rw [← split] at order
  exact (List.pairwise_append.mp order).2.1

end Waiting

theorem below?_eq_some_iff : a.below? = some b ↔ b.row.val = a.row.val + 1 ∧ b.column = a.column := by
  unfold below?
  split
  case isTrue inside =>
    simp only [Option.some.injEq, Cell.ext_iff, Fin.ext_iff]
    omega
  case isFalse outside =>
    have := b.row.isLt
    simp only [reduceCtorEq, false_iff, not_and]
    omega

theorem right?_eq_some_iff : a.right? = some b ↔ b.row = a.row ∧ b.column.val = a.column.val + 1 := by
  unfold right?
  split
  case isTrue inside =>
    simp only [Option.some.injEq, Cell.ext_iff, Fin.ext_iff]
    omega
  case isFalse outside =>
    have := b.column.isLt
    simp only [reduceCtorEq, false_iff, not_and]
    omega

/-- A cell below and to the right of another is that cell, or is so for a neighbour of that cell. -/
theorem eq_or_neighbour (row : a.row ≤ b.row) (column : a.column ≤ b.column) :
    a = b ∨ (∃ c, a.below? = some c ∧ c.row ≤ b.row ∧ c.column ≤ b.column) ∨
      ∃ c, a.right? = some c ∧ c.row ≤ b.row ∧ c.column ≤ b.column := by
  have rowBound := b.row.isLt
  have columnBound := b.column.isLt
  simp only [Fin.le_def] at row column
  by_cases down : a.row.val < b.row.val
  · exact .inr (.inl ⟨⟨⟨a.row + 1, by omega⟩, a.column⟩, below?_eq_some_iff.mpr ⟨rfl, rfl⟩, down, column⟩)
  · by_cases across : a.column.val < b.column.val
    · exact .inr (.inr ⟨⟨a.row, ⟨a.column + 1, by omega⟩⟩, right?_eq_some_iff.mpr ⟨rfl, rfl⟩, row, across⟩)
    · exact .inl (Cell.ext (Fin.ext (by omega)) (Fin.ext (by omega)))

section Neighbours

variable {drawn rest : List (Cell rows columns)}

theorem below?_mem (grows : Grows cost) (split : drawn ++ a :: rest = due cost) (next : a.below? = some b) :
    b ∈ rest := by
  obtain ⟨row, column⟩ := below?_eq_some_iff.mp next
  refine mem_of_precedes split (grows.precedes ?_ (Nat.le_of_eq (congrArg Fin.val column.symm)) ?_)
  · rw [Fin.le_def]
    omega
  · rintro rfl
    omega

theorem right?_mem (grows : Grows cost) (split : drawn ++ a :: rest = due cost) (next : a.right? = some b) :
    b ∈ rest := by
  obtain ⟨row, column⟩ := right?_eq_some_iff.mp next
  refine mem_of_precedes split (grows.precedes (Nat.le_of_eq (congrArg Fin.val row.symm)) ?_ ?_)
  · rw [Fin.le_def]
    omega
  · rintro rfl
    omega

end Neighbours

end Cell

end Earley.Forest
