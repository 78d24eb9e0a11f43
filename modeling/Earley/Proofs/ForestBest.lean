import Earley.Proofs.ForestLinks
import Earley.Proofs.ForestRanking

/-!
# Lists of best answers

What every list of results has to be: sorted, without repetition, of answers of the right kind, and covering all
that are owed. Merging, pairing and finishing such lists gives such lists.
-/

namespace Earley.Forest

open Chart

/-- The list holds answers that are `ok`, and covers all that are `owed`. -/
structure Best (limit : Nat) (most : Penalty) (ok owed : Stem → Prop) (found : List Stem) : Prop where
  ok : ∀ x ∈ found, ok x
  cheap : ∀ x ∈ found, x.penalty ≤ most
  ranked : Ranked Stem.penalty found
  distinct : (found.map (·.newestFirst)).Nodup
  short : found.length ≤ limit
  covers : ∀ {x}, owed x → x.penalty ≤ most → Covers Stem.penalty limit found x

variable {limit : Nat} {most : Penalty} {ok ok' owed owed' : Stem → Prop}

theorem Best.mono {found : List Stem} (h : Best limit most ok owed found) (wider : ∀ x, ok x → ok' x)
    (fewer : ∀ x, owed' x → x.penalty ≤ most → owed x) : Best limit most ok' owed' found :=
  ⟨fun x member => wider x (h.ok x member), h.cheap, h.ranked, h.distinct, h.short,
    fun {x} due cheap => h.covers (fewer x due cheap) cheap⟩

theorem best_nil (none : ∀ x, owed x → ¬ x.penalty ≤ most) : Best limit most ok owed [] :=
  ⟨by simp, by simp, .nil, by simp, by simp, fun due cheap => absurd cheap (none _ due)⟩

theorem best_one {x : Stem} (positive : 0 < limit) (good : ok x) (cheap : x.penalty ≤ most)
    (only : ∀ y, owed y → y = x) : Best limit most ok owed [x] :=
  ⟨by simpa using good, by simpa using cheap, by simp [Ranked], by simp, by simpa using Nat.succ_le_of_lt positive,
    fun due _ => .inl (by simp [only _ due])⟩

/-- An empty list owes nothing. -/
theorem Best.none_owed (h : Best limit most ok owed []) (positive : 0 < limit) (x : Stem) (due : owed x) :
    ¬ x.penalty ≤ most := by
  intro cheap
  obtain ⟨y, member, -⟩ := (h.covers due cheap).exists_le positive
  simp at member

/-- The cheapest of two lists that share no children. -/
theorem Best.merge {xs ys : List Stem} (h : Best limit most ok owed xs) (k : Best limit most ok' owed' ys)
    (apart : ∀ x y, ok x → ok' y → x.newestFirst ≠ y.newestFirst) :
    Best limit most (fun x => ok x ∨ ok' x) (fun x => owed x ∨ owed' x) (cheapest Stem.penalty limit xs ys) := by
  have top : Top Stem.penalty limit (xs ++ ys) (cheapest Stem.penalty limit xs ys) := cheapest_top h.ranked k.ranked
  refine ⟨fun x member => ?_, fun x member => ?_, top.ranked, top.nodup_map ?_, top.length_le, fun {x} due cheap => ?_⟩
  · rcases List.mem_append.mp (top.mem member) with first | second
    · exact .inl (h.ok x first)
    · exact .inr (k.ok x second)
  · rcases List.mem_append.mp (top.mem member) with first | second
    · exact h.cheap x first
    · exact k.cheap x second
  · rw [List.map_append, List.nodup_append]
    refine ⟨h.distinct, k.distinct, fun a first b second => ?_⟩
    obtain ⟨x, inside, rfl⟩ := List.mem_map.mp first
    obtain ⟨y, inside', rfl⟩ := List.mem_map.mp second
    exact apart x y (h.ok x inside) (k.ok y inside')
  · apply top.covers
    rcases due with due | due
    · exact (h.covers due cheap).count (List.sublist_append_left ..)
    · exact (k.covers due cheap).count (List.sublist_append_right ..)

theorem ranked_single {trees : List Tree} (h : Ranked Stem.penalty (trees.map .single)) :
    Ranked Tree.penalty trees := by
  have pairs := List.pairwise_map.mp h
  exact pairs

theorem covers_single {trees : List Tree} {t : Tree} :
    Covers Stem.penalty limit (trees.map .single) (.single t) ↔ Covers Tree.penalty limit trees t := by
  have mem : Stem.single t ∈ trees.map .single ↔ t ∈ trees := by
    rw [List.mem_map]
    constructor
    · rintro ⟨u, member, same⟩
      exact Stem.single_inj same ▸ member
    · exact fun member => ⟨t, member, rfl⟩
  simp [Covers, mem]

/-- The cheapest pairs of two lists. -/
theorem Best.pairs {stems : List Stem} {trees : List Tree} (positive : 0 < limit) (h : Best limit most ok owed stems)
    (k : Best limit most ok' owed' (trees.map .single)) (singles : ∀ x, owed' x → ∃ t, x = .single t) :
    Best limit most (fun x => ∃ s y, ok s ∧ ok' y ∧ x = s.join y) (fun x => ∃ s y, owed s ∧ owed' y ∧ x = s.join y)
      (pairs limit most stems trees) := by
  have ranked := ranked_single k.ranked
  have top : Top Stem.penalty limit _ (Forest.pairs limit most stems trees) := pairs_top h.ranked ranked
  have distinct : trees.Nodup := List.Nodup.of_map _ (List.Nodup.of_map _ k.distinct)
  refine ⟨fun x member => ?_, fun x member => ?_, top.ranked, pairs_nodup h.ranked ranked h.distinct distinct,
    top.length_le, ?_⟩
  · obtain ⟨s, stem, inside⟩ := List.mem_flatMap.mp (List.mem_filter.mp (top.mem member)).1
    obtain ⟨t, tree, rfl⟩ := List.mem_map.mp inside
    exact ⟨s, .single t, h.ok s stem, k.ok _ (List.mem_map_of_mem tree), rfl⟩
  · simpa using (List.mem_filter.mp (top.mem member)).2
  · rintro x ⟨s, y, due, due', rfl⟩ cheap
    obtain ⟨t, rfl⟩ := singles y due'
    have first : s.penalty ≤ most := Nat.le_trans (Penalty.le_add_right _ _) cheap
    have second : (Stem.single t).penalty ≤ most := by
      rw [Stem.penalty_join, Penalty.add_comm] at cheap
      exact Nat.le_trans (Penalty.le_add_right _ _) cheap
    exact covers_pairs positive h.ranked ranked (h.covers due first) (covers_single.mp (k.covers due' second)) cheap

theorem filterMap_ite {α β : Type} (p : α → Prop) [DecidablePred p] (f : α → β) (as : List α) :
    (as.filterMap fun a => if p a then some (f a) else none) = (as.filter p).map f := by
  induction as with
  | nil => rfl
  | cons a as ih => by_cases h : p a <;> simp [h, ih]

/-- Each stem as a tree that costs so much more, as far as it is cheap enough. -/
theorem Best.finish {stems : List Stem} (h : Best limit most ok owed stems) (f : Stem → Tree) {own : Penalty}
    (cost : ∀ s, (f s).penalty = s.penalty + own) (injective : ∀ {s s'}, f s = f s' → s.newestFirst = s'.newestFirst) :
    Best limit most (fun x => ∃ s, ok s ∧ x = .single (f s)) (fun x => ∃ s, owed s ∧ x = .single (f s))
      ((stems.filterMap fun s => if (f s).penalty ≤ most then some (f s) else none).map .single) := by
  rw [filterMap_ite, List.map_map]
  have kept : ((stems.filter fun s => (f s).penalty ≤ most)).Sublist stems := List.filter_sublist
  refine ⟨fun x member => ?_, fun x member => ?_, ?_, ?_, ?_, ?_⟩
  · obtain ⟨s, inside, rfl⟩ := List.mem_map.mp member
    exact ⟨s, h.ok s (kept.subset inside), rfl⟩
  · obtain ⟨s, inside, rfl⟩ := List.mem_map.mp member
    simpa using (List.mem_filter.mp inside).2
  · apply List.pairwise_map.mpr
    refine (h.ranked.sublist kept).imp fun {a b} le => ?_
    simp only [Function.comp_apply, Stem.penalty_single, cost]
    exact Penalty.add_le_add le (Nat.le_refl _)
  · have distinct := (List.pairwise_map.mp h.distinct).sublist kept
    apply List.pairwise_map.mpr
    apply List.pairwise_map.mpr
    exact distinct.imp fun {a b} differ same => differ (injective (List.cons.inj same).1)
  · rw [List.length_map]
    exact Nat.le_trans kept.length_le h.short
  · rintro x ⟨s, due, rfl⟩ cheap
    have cheap : (f s).penalty ≤ most := cheap
    have less : s.penalty ≤ most := by
      rw [cost] at cheap
      exact Nat.le_trans (Penalty.le_add_right _ _) cheap
    rcases h.covers due less with member | ⟨many, all⟩
    · exact .inl (List.mem_map.mpr ⟨s, List.mem_filter.mpr ⟨member, by simpa using cheap⟩, rfl⟩)
    · have cheaper (a : Stem) (member : a ∈ stems) : (f a).penalty ≤ (f s).penalty := by
        rw [cost, cost]
        exact Penalty.add_le_add (all a member) (Nat.le_refl _)
      have whole : (stems.filter fun s => (f s).penalty ≤ most) = stems := by
        apply List.filter_eq_self.mpr
        intro a member
        exact decide_eq_true (Nat.le_trans (cheaper a member) cheap)
      rw [whole]
      refine .inr ⟨by simpa using many, fun y member => ?_⟩
      obtain ⟨a, inside, rfl⟩ := List.mem_map.mp member
      exact cheaper a inside

end Earley.Forest
