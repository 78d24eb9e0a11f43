import Earley.Forest.Pairing
import Earley.Forest.Ranking
import Earley.Proofs.Nullability
import Mathlib.Data.List.Nodup

/-!
# The cheapest of many

Both ways of cutting candidates down keep the first few of some sorted list of them all (`Top`). What such a cut
leaves out is no cheaper than anything it keeps (`Covers`).
-/

namespace Earley.Forest

variable {α : Type} {cost : α → Penalty} {limit : Nat}

/-- `kept` holds the element, or it is full of elements that cost no more. -/
def Covers (cost : α → Penalty) (limit : Nat) (kept : List α) (a : α) : Prop :=
  a ∈ kept ∨ limit ≤ kept.length ∧ ∀ b ∈ kept, cost b ≤ cost a

/-- `kept` is made of the first elements of some list of all candidates, the cheapest first. -/
def Top (cost : α → Penalty) (limit : Nat) (all kept : List α) : Prop :=
  ∃ full : List α, full.Perm all ∧ Ranked cost full ∧ kept = full.take limit

theorem Top.ranked {all kept : List α} (h : Top cost limit all kept) : Ranked cost kept := by
  obtain ⟨full, -, ranked, rfl⟩ := h
  exact ranked.sublist (List.take_sublist _ _)

theorem Top.length_le {all kept : List α} (h : Top cost limit all kept) : kept.length ≤ limit := by
  obtain ⟨full, -, -, rfl⟩ := h
  exact List.length_take_le _ _

theorem Top.nodup_map {β : Type} {f : α → β} {all kept : List α} (h : Top cost limit all kept)
    (distinct : (all.map f).Nodup) : (kept.map f).Nodup := by
  obtain ⟨full, perm, -, rfl⟩ := h
  exact ((perm.map f).nodup_iff.mpr distinct).sublist ((List.take_sublist limit full).map f)

theorem Top.mem {all kept : List α} (h : Top cost limit all kept) {a : α} (member : a ∈ kept) : a ∈ all := by
  obtain ⟨full, perm, -, rfl⟩ := h
  exact perm.mem_iff.mp (List.mem_of_mem_take member)

/-- In a sorted list, those that cost at most so much come first. -/
theorem Ranked.take_countP {as : List α} (ranked : Ranked cost as) (most : Penalty) :
    ∀ a ∈ as.take (as.countP (cost · ≤ most)), cost a ≤ most := by
  induction as with
  | nil => simp
  | cons b as ih =>
    obtain ⟨least, rest⟩ := List.pairwise_cons.mp ranked
    by_cases cheap : cost b ≤ most
    · rw [List.countP_cons_of_pos (by simpa using cheap), List.take_succ_cons]
      exact List.forall_mem_cons.mpr ⟨cheap, ih rest⟩
    · have none : as.countP (cost · ≤ most) = 0 := by
        apply List.countP_eq_zero.mpr
        intro a member
        have := least a member
        simp only [decide_eq_true_eq, Penalty.le_def] at *
        omega
      rw [List.countP_cons_of_neg (by simpa using cheap), none]
      simp

/-- A candidate is covered if it was among all, or if there were enough others that cost no more. -/
theorem Top.covers {all kept : List α} (h : Top cost limit all kept) {a : α}
    (known : a ∈ all ∨ limit ≤ all.countP (cost · ≤ cost a)) : Covers cost limit kept a := by
  obtain ⟨full, perm, ranked, rfl⟩ := h
  rcases known with member | many
  · by_cases early : a ∈ full.take limit
    · exact .inl early
    · have late : a ∈ full.drop limit := by
        have := perm.mem_iff.mpr member
        rw [← List.take_append_drop limit full] at this
        exact (List.mem_append.mp this).resolve_left early
      refine .inr ⟨?_, fun b kept => ?_⟩
      · have := List.length_pos_of_mem late
        simp only [List.length_drop, List.length_take] at *
        omega
      · have whole : Ranked cost (full.take limit ++ full.drop limit) := by rwa [List.take_append_drop]
        exact (List.pairwise_append.mp whole).2.2 b kept a late
  · rw [← perm.countP_eq] at many
    have : full.countP (cost · ≤ cost a) ≤ full.length := List.countP_le_length
    refine .inr ⟨by rw [List.length_take]; omega, fun b kept => ?_⟩
    exact ranked.take_countP (cost a) b (List.take_subset_take_left full many kept)

theorem cheapest_top {as bs : List α} (ha : Ranked cost as) (hb : Ranked cost bs) :
    Top cost limit (as ++ bs) (cheapest cost limit as bs) :=
  ⟨merge cost as bs, merge_perm as bs, merge_ranked ha hb, rfl⟩

/-- What covers an element is a candidate for covering it together with others. -/
theorem Covers.count {as bs : List α} {a : α} (h : Covers cost limit as a) (sub : as.Sublist bs) :
    a ∈ bs ∨ limit ≤ bs.countP (cost · ≤ cost a) := by
  rcases h with member | ⟨many, cheap⟩
  · exact .inl (sub.subset member)
  · refine .inr (Nat.le_trans many ?_)
    have all : as.countP (cost · ≤ cost a) = as.length := List.countP_eq_length.mpr (by simpa using cheap)
    rw [← all]
    exact sub.countP_le

theorem mergeHead_map {β : Type} (f : β → α) (a : β) {rest : List α → List α} {rest' : List β → List β}
    (same : ∀ bs, rest (bs.map f) = (rest' bs).map f) (bs : List β) :
    mergeHead cost (f a) rest (bs.map f) = (mergeHead (cost ∘ f) a rest' bs).map f := by
  induction bs with
  | nil => simpa [mergeHead] using same []
  | cons b bs ih =>
    simp only [List.map_cons, mergeHead, Function.comp_apply]
    split
    · rw [List.map_cons, ← same, List.map_cons]
    · rw [List.map_cons, ih]

/-- Merging commutes with a change of what is merged. -/
theorem merge_map {β : Type} (f : β → α) (as bs : List β) :
    merge cost (as.map f) (bs.map f) = (merge (cost ∘ f) as bs).map f := by
  induction as generalizing bs with
  | nil => rfl
  | cons a as ih => exact mergeHead_map f a ih bs

theorem cheapest_map {β : Type} (cost : α → Penalty) (limit : Nat) (f : β → α) (as bs : List β) :
    cheapest cost limit (as.map f) (bs.map f) = (cheapest (cost ∘ f) limit as bs).map f := by
  rw [cheapest, merge_map, cheapest, List.map_take]

namespace Row

def pairs (r : Row) : List Stem := (r.next :: r.rest).map r.stem.extend

structure Sorted (rows : List Row) : Prop where
  firsts : Ranked Row.cost rows
  children : ∀ r ∈ rows, Ranked Tree.penalty (r.next :: r.rest)

theorem insert_perm (r : Row) (rows : List Row) : (r.insert rows).Perm (r :: rows) := by
  induction rows with
  | nil => exact .refl _
  | cons a rows ih =>
    unfold insert
    split
    · exact .refl _
    · exact (ih.cons a).trans (.swap ..)

theorem cost_le_of_not_precedes {a b : Row} (h : ¬ a.precedes b = true) : b.cost ≤ a.cost := by
  simp only [precedes, Bool.or_eq_true, decide_eq_true_eq, not_or] at h
  simp only [Penalty.lt_def, Penalty.le_def] at *
  omega

theorem cost_le_of_precedes {a b : Row} (h : a.precedes b = true) : a.cost ≤ b.cost := by
  simp only [precedes, Bool.or_eq_true, decide_eq_true_eq, Bool.and_eq_true, beq_iff_eq] at h
  rcases h with less | ⟨same, -⟩
  · exact Nat.le_of_lt less
  · exact Nat.le_of_eq (congrArg Penalty.value same)

theorem insert_ranked (r : Row) {rows : List Row} (h : Ranked Row.cost rows) : Ranked Row.cost (r.insert rows) := by
  induction rows with
  | nil => simp [insert, Ranked]
  | cons a rows ih =>
    obtain ⟨least, rest⟩ := List.pairwise_cons.mp h
    unfold insert
    split
    case isTrue before =>
      apply List.pairwise_cons.mpr ⟨?_, h⟩
      have first := cost_le_of_precedes before
      exact List.forall_mem_cons.mpr ⟨first, fun b member => Nat.le_trans first (least b member)⟩
    case isFalse after =>
      apply List.pairwise_cons.mpr ⟨fun b member => ?_, ih rest⟩
      rcases List.mem_cons.mp ((insert_perm r rows).mem_iff.mp member) with rfl | old
      · exact cost_le_of_not_precedes after
      · exact least b old

/-- Taking the next pair of a row leaves all others. -/
theorem drop_perm (r : Row) (rows : List Row) :
    ((r :: rows).flatMap pairs).Perm (r.stem.extend r.next :: (r.drop rows).flatMap pairs) := by
  unfold drop
  split
  case h_1 last => simp [pairs, last]
  case h_2 t ts more =>
    have perm := (insert_perm { r with next := t, rest := ts } rows).flatMap_right pairs
    simpa [pairs, more] using perm.symm

theorem Sorted.drop {r : Row} {rows : List Row} (h : Sorted (r :: rows)) : Sorted (r.drop rows) := by
  obtain ⟨least, rest⟩ := List.pairwise_cons.mp h.firsts
  obtain ⟨own, others⟩ := List.forall_mem_cons.mp h.children
  unfold Row.drop
  split
  case h_1 => exact ⟨rest, others⟩
  case h_2 t ts more =>
    refine ⟨insert_ranked _ rest, fun a member => ?_⟩
    rw [more] at own
    rcases List.mem_cons.mp ((insert_perm _ _).mem_iff.mp member) with rfl | old
    · exact (List.pairwise_cons.mp own).2
    · exact others a old

/-- No pair is cheaper than the next one of the first row. -/
theorem Sorted.cost_le {r : Row} {rows : List Row} (h : Sorted (r :: rows)) :
    ∀ s ∈ (r :: rows).flatMap pairs, r.cost ≤ s.penalty := by
  intro s member
  obtain ⟨a, inside, pair⟩ := List.mem_flatMap.mp member
  obtain ⟨t, child, rfl⟩ := List.mem_map.mp pair
  have first : r.cost ≤ a.cost := by
    rcases List.mem_cons.mp inside with rfl | later
    · exact Nat.le_refl _
    · exact (List.pairwise_cons.mp h.firsts).1 a later
  have cheapest : a.next.penalty ≤ t.penalty := by
    rcases List.mem_cons.mp child with rfl | later
    · exact Nat.le_refl _
    · exact (List.pairwise_cons.mp (h.children a inside)).1 t later
  exact Nat.le_trans first (Penalty.add_le_add (Nat.le_refl _) cheapest)

end Row

section Sorting

variable (cost : α → Penalty)

theorem cost_le_trans (a b c : α) (first : decide (cost a ≤ cost b) = true) (second : decide (cost b ≤ cost c) = true) :
    decide (cost a ≤ cost c) = true :=
  decide_eq_true (Nat.le_trans (of_decide_eq_true first) (of_decide_eq_true second))

theorem cost_le_total (a b : α) : (decide (cost a ≤ cost b) || decide (cost b ≤ cost a)) = true := by
  simpa [Penalty.le_def] using Nat.le_total (cost a).value (cost b).value

theorem ranked_mergeSort (all : List α) : Ranked cost (all.mergeSort fun a b => cost a ≤ cost b) :=
  (List.pairwise_mergeSort (cost_le_trans cost) (cost_le_total cost) all).imp of_decide_eq_true

/-- The elements of one cost stay as they are when all are sorted by cost. -/
theorem filter_mergeSort_cost (k : Penalty) (all : List α) :
    (all.mergeSort fun a b => cost a ≤ cost b).filter (cost · = k) = all.filter (cost · = k) := by
  refine (List.Sublist.eq_of_length ?_ ((List.mergeSort_perm all _).filter _).symm.length_eq).symm
  have equal : (all.filter (cost · = k)).Pairwise fun a b => decide (cost a ≤ cost b) = true := by
    apply List.pairwise_of_forall_mem_list
    intro a inside b inside'
    have first : cost a = k := of_decide_eq_true (List.mem_filter.mp inside).2
    have second : cost b = k := of_decide_eq_true (List.mem_filter.mp inside').2
    exact decide_eq_true (first.trans second.symm ▸ Nat.le_refl _)
  have kept := (List.sublist_mergeSort (cost_le_trans cost) (cost_le_total cost) equal List.filter_sublist).filter
    (cost · = k)
  simpa using kept

/-- Any candidates can be sorted. -/
theorem exists_ranked (all : List α) : ∃ full : List α, full.Perm all ∧ Ranked cost full :=
  ⟨_, List.mergeSort_perm .., ranked_mergeSort cost all⟩

end Sorting

theorem drawPairs_top (most : Penalty) (count : Nat) {rows : List Row} (h : Row.Sorted rows) :
    Top Stem.penalty count ((rows.flatMap Row.pairs).filter (·.penalty ≤ most)) (drawPairs most count rows) := by
  induction count generalizing rows with
  | zero =>
    obtain ⟨full, perm, ranked⟩ := exists_ranked Stem.penalty ((rows.flatMap Row.pairs).filter (·.penalty ≤ most))
    exact ⟨full, perm, ranked, by simp [drawPairs]⟩
  | succ count ih =>
    cases rows with
    | nil => exact ⟨[], .refl _, .nil, rfl⟩
    | cons row rows =>
      unfold drawPairs
      split
      case isTrue cheap =>
        obtain ⟨full, perm, ranked, same⟩ := ih h.drop
        have all := (row.drop_perm rows).filter (·.penalty ≤ most)
        have kept : (row.stem.extend row.next).penalty ≤ most := cheap
        rw [List.filter_cons, if_pos (by simpa using kept)] at all
        refine ⟨row.stem.extend row.next :: full, (perm.cons _).trans all.symm, ?_, by rw [same, List.take_succ_cons]⟩
        refine List.pairwise_cons.mpr ⟨fun s member => h.cost_le s ?_, ranked⟩
        have inside := (List.mem_filter.mp (perm.mem_iff.mp member)).1
        exact (row.drop_perm rows).mem_iff.mpr (List.mem_cons_of_mem _ inside)
      case isFalse dear =>
        refine ⟨[], ?_, .nil, rfl⟩
        have none : ((row :: rows).flatMap Row.pairs).filter (·.penalty ≤ most) = [] := by
          apply List.filter_eq_nil_iff.mpr
          intro s member
          have := h.cost_le s member
          simp only [decide_eq_true_eq, Penalty.le_def] at *
          omega
        rw [none]

def grid (stems : List Stem) (trees : List Tree) : List Stem := stems.flatMap fun s => trees.map s.extend

theorem length_grid (stems : List Stem) (trees : List Tree) :
    (grid stems trees).length = stems.length * trees.length := by
  simp [grid, List.length_flatMap]

theorem flatMap_zipIdx {β : Type} (f : α → List β) (as : List α) (n : Nat) :
    (as.zipIdx n).flatMap (fun x => f x.1) = as.flatMap f := by
  induction as generalizing n with
  | nil => rfl
  | cons a as ih => simp [ih]

def rowsFrom (n : Nat) (stems : List Stem) : List Tree → List Row
  | [] => []
  | t :: ts => (stems.zipIdx n).map fun (stem, i) => ⟨i, stem, t, ts⟩

theorem sorted_rowsFrom (n : Nat) {stems : List Stem} {trees : List Tree} (hs : Ranked Stem.penalty stems)
    (ht : Ranked Tree.penalty trees) : Row.Sorted (rowsFrom n stems trees) := by
  cases trees with
  | nil => exact ⟨.nil, by simp [rowsFrom]⟩
  | cons t ts =>
    refine ⟨?_, fun r member => ?_⟩
    · have ranked : ((stems.zipIdx n).map Prod.fst).Pairwise fun a b => a.penalty ≤ b.penalty := by
        rw [List.zipIdx_map_fst]
        exact hs
      apply List.pairwise_map.mpr
      exact (List.pairwise_map.mp ranked).imp fun le => Penalty.add_le_add le (Nat.le_refl _)
    · obtain ⟨x, -, rfl⟩ := List.mem_map.mp member
      exact ht

theorem flatMap_rowsFrom (n : Nat) (stems : List Stem) (trees : List Tree) :
    (rowsFrom n stems trees).flatMap Row.pairs = grid stems trees := by
  cases trees with
  | nil => simp [rowsFrom, grid]
  | cons t ts =>
    rw [rowsFrom, List.flatMap_map]
    exact flatMap_zipIdx (fun s : Stem => (t :: ts).map s.extend) stems n

/-- There is no need to count the pairs that are drawn. -/
theorem drawPairs_min (most : Penalty) (count : Nat) {n : Nat} {rows : List Row}
    (enough : (rows.flatMap Row.pairs).length ≤ n) : drawPairs most (min count n) rows = drawPairs most count rows := by
  induction count generalizing n rows with
  | zero => rw [Nat.zero_min]
  | succ count ih =>
    cases rows with
    | nil => cases min (count + 1) n <;> rfl
    | cons row rows =>
      rw [(row.drop_perm rows).length_eq, List.length_cons] at enough
      cases n with
      | zero => exact absurd enough (Nat.not_succ_le_zero _)
      | succ n => rw [Nat.succ_min_succ, drawPairs, drawPairs, ih (Nat.le_of_succ_le_succ enough)]

theorem pairs_eq_drawPairs (limit : Nat) (most : Penalty) (stems : List Stem) (trees : List Tree) :
    pairs limit most stems trees = drawPairs most limit (rowsFrom 0 stems trees) := by
  cases trees with
  | nil => cases limit <;> rfl
  | cons t ts =>
    apply drawPairs_min
    rw [← length_grid, ← flatMap_rowsFrom 0]
    exact Nat.le_refl _

/-- The pairs are the cheapest of the grid. -/
theorem pairs_top {most : Penalty} {stems : List Stem} {trees : List Tree} (hs : Ranked Stem.penalty stems)
    (ht : Ranked Tree.penalty trees) :
    Top Stem.penalty limit ((grid stems trees).filter (·.penalty ≤ most)) (pairs limit most stems trees) := by
  rw [pairs_eq_drawPairs, ← flatMap_rowsFrom 0]
  exact drawPairs_top most limit (sorted_rowsFrom 0 hs ht)

theorem row_sublist_grid (stems : List Stem) {trees : List Tree} {t : Tree} (member : t ∈ trees) :
    (stems.map (·.extend t)).Sublist (grid stems trees) := by
  induction stems with
  | nil => exact .slnil
  | cons s stems ih =>
    have first : [s.extend t].Sublist (trees.map s.extend) := List.singleton_sublist.mpr (List.mem_map_of_mem member)
    exact first.append ih

theorem column_sublist_grid {stems : List Stem} (trees : List Tree) {s : Stem} (member : s ∈ stems) :
    (trees.map s.extend).Sublist (grid stems trees) := by
  apply List.sublist_flatten_of_mem
  exact List.mem_map_of_mem (f := fun s : Stem => trees.map s.extend) member

/-- What covers an element holds one that costs no more. -/
theorem Covers.exists_le {kept : List α} {a : α} (h : Covers cost limit kept a) (positive : 0 < limit) :
    ∃ b ∈ kept, cost b ≤ cost a := by
  rcases h with member | ⟨many, cheap⟩
  · exact ⟨a, member, Nat.le_refl _⟩
  · obtain ⟨b, member⟩ := List.exists_mem_of_length_pos (Nat.lt_of_lt_of_le positive many)
    exact ⟨b, member, cheap b member⟩

/-- A pair of covered parts is covered by the cheapest pairs. -/
theorem covers_pairs {most : Penalty} {stems : List Stem} {trees : List Tree} (positive : 0 < limit)
    (hs : Ranked Stem.penalty stems) (ht : Ranked Tree.penalty trees) {s : Stem} {t : Tree}
    (first : Covers Stem.penalty limit stems s) (second : Covers Tree.penalty limit trees t)
    (cheap : (s.extend t).penalty ≤ most) :
    Covers Stem.penalty limit (pairs limit most stems trees) (s.extend t) := by
  apply (pairs_top hs ht).covers
  have enough {some : List Stem} (sub : some.Sublist (grid stems trees)) (many : limit ≤ some.length)
      (cheaper : ∀ x ∈ some, x.penalty ≤ (s.extend t).penalty) :
      limit ≤ ((grid stems trees).filter (·.penalty ≤ most)).countP (·.penalty ≤ (s.extend t).penalty) := by
    rw [List.countP_filter]
    refine Nat.le_trans ?_ sub.countP_le
    rw [List.countP_eq_length.mpr]
    · exact many
    · intro x member
      simpa using ⟨cheaper x member, Nat.le_trans (cheaper x member) cheap⟩
  obtain ⟨t', tree, le⟩ := second.exists_le positive
  obtain ⟨s', stem, le'⟩ := first.exists_le positive
  rcases first with found | ⟨many, all⟩
  · rcases second with found' | ⟨many', all'⟩
    · left
      exact List.mem_filter.mpr
        ⟨List.mem_flatMap.mpr ⟨s, found, List.mem_map_of_mem found'⟩, by simpa using cheap⟩
    · right
      refine enough (column_sublist_grid trees stem) (by simpa using many') fun x member => ?_
      obtain ⟨u, inside, rfl⟩ := List.mem_map.mp member
      exact Penalty.add_le_add le' (all' u inside)
  · right
    refine enough (row_sublist_grid stems tree) (by simpa using many) fun x member => ?_
    obtain ⟨u, inside, rfl⟩ := List.mem_map.mp member
    exact Penalty.add_le_add (all u inside) le

/-- Different pairs have different children. -/
theorem pairs_nodup {most : Penalty} {stems : List Stem} {trees : List Tree} (hs : Ranked Stem.penalty stems)
    (ht : Ranked Tree.penalty trees) (distinct : (stems.map (·.newestFirst)).Nodup) (distinct' : trees.Nodup) :
    ((pairs limit most stems trees).map (·.newestFirst)).Nodup := by
  have whole : ((grid stems trees).map (·.newestFirst)).Nodup := by
    rw [grid, List.map_flatMap, List.nodup_flatMap]
    constructor
    · intro s _
      rw [List.map_map]
      exact distinct'.map fun t u same => (List.cons.inj same).1
    · refine (List.pairwise_map.mp distinct).imp fun {s s'} differ => ?_
      intro children here there
      obtain ⟨x, pair, rfl⟩ := List.mem_map.mp here
      obtain ⟨x', pair', same⟩ := List.mem_map.mp there
      obtain ⟨t, -, rfl⟩ := List.mem_map.mp pair
      obtain ⟨t', -, rfl⟩ := List.mem_map.mp pair'
      exact differ (List.cons.inj same).2.symm
  have top : Top Stem.penalty limit _ (pairs limit most stems trees) := pairs_top hs ht
  apply top.nodup_map
  exact whole.sublist ((List.filter_sublist).map _)

theorem length_cheapest_le (cost : α → Penalty) (limit : Nat) (as bs : List α) :
    (cheapest cost limit as bs).length ≤ limit :=
  List.length_take_le ..

theorem mem_of_mem_cheapest {as bs : List α} {a : α} (member : a ∈ cheapest cost limit as bs) : a ∈ as ∨ a ∈ bs :=
  List.mem_append.mp ((merge_perm as bs).mem_iff.mp (List.mem_of_mem_take member))

theorem mem_of_mem_drawPairs {most : Penalty} {count : Nat} {rows : List Row} {x : Stem}
    (member : x ∈ drawPairs most count rows) : x ∈ rows.flatMap Row.pairs := by
  induction count generalizing rows with
  | zero => cases member
  | succ count ih =>
    cases rows with
    | nil => cases member
    | cons row rows =>
      rw [drawPairs] at member
      split at member
      · apply (row.drop_perm rows).mem_iff.mpr
        rcases List.mem_cons.mp member with rfl | later
        · exact List.mem_cons_self
        · exact List.mem_cons_of_mem _ (ih later)
      · cases member

theorem exists_of_mem_pairs {most : Penalty} {stems : List Stem} {trees : List Tree} {x : Stem}
    (member : x ∈ pairs limit most stems trees) : ∃ s ∈ stems, ∃ t ∈ trees, x = s.extend t := by
  rw [pairs_eq_drawPairs] at member
  have inside := mem_of_mem_drawPairs member
  rw [flatMap_rowsFrom] at inside
  obtain ⟨s, stem, pair⟩ := List.mem_flatMap.mp inside
  obtain ⟨t, tree, rfl⟩ := List.mem_map.mp pair
  exact ⟨s, stem, t, tree, rfl⟩

end Earley.Forest
