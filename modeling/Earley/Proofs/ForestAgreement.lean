import Earley.Proofs.ForestRanking

/-!
# The cheap part of a list

Merging, pairing and cutting sorted lists can be done on their cheap parts alone as long as only the cheap part of the
result matters. So lists that agree within a bound lead to lists that agree within a bound.
-/

namespace Earley.Forest

/-- Whatever costs no more than something within the bound is within it. -/
def Down (bound : Penalty → Prop) : Prop := ∀ {p q : Penalty}, p ≤ q → bound q → bound p

variable {α : Type} {cost : α → Penalty} {bound : Penalty → Prop}

open Classical in
noncomputable def within (cost : α → Penalty) (bound : Penalty → Prop) (as : List α) : List α :=
  as.filter fun a => bound (cost a)

theorem within_eq_filter [DecidablePred bound] (as : List α) :
    within cost bound as = as.filter fun a => bound (cost a) :=
  List.filter_congr fun _ _ => by simp

@[simp] theorem within_nil : within cost bound [] = [] := rfl

theorem within_cons_of_pos {a : α} {as : List α} (inside : bound (cost a)) :
    within cost bound (a :: as) = a :: within cost bound as :=
  List.filter_cons_of_pos (by simpa using inside)

theorem within_cons_of_neg {a : α} {as : List α} (outside : ¬ bound (cost a)) :
    within cost bound (a :: as) = within cost bound as :=
  List.filter_cons_of_neg (by simpa using outside)

theorem within_eq_nil {as : List α} (outside : ∀ a ∈ as, ¬ bound (cost a)) : within cost bound as = [] :=
  List.filter_eq_nil_iff.mpr (by simpa using outside)

theorem within_eq_self {as : List α} (inside : ∀ a ∈ as, bound (cost a)) : within cost bound as = as :=
  List.filter_eq_self.mpr (by simpa using inside)

/-- The part within a narrower bound is that of the part within the wider one. -/
theorem within_within {other : α → Penalty} {wider : Penalty → Prop} {as : List α}
    (wide : ∀ a ∈ as, bound (cost a) → wider (other a)) :
    within cost bound (within other wider as) = within cost bound as := by
  induction as with
  | nil => rfl
  | cons a as ih =>
    obtain ⟨here, later⟩ := List.forall_mem_cons.mp wide
    by_cases inside : wider (other a)
    · rw [within_cons_of_pos inside]
      by_cases cheap : bound (cost a)
      · rw [within_cons_of_pos cheap, within_cons_of_pos cheap, ih later]
      · rw [within_cons_of_neg cheap, within_cons_of_neg cheap, ih later]
    · rw [within_cons_of_neg inside, within_cons_of_neg fun cheap => inside (here cheap), ih later]

theorem within_narrow {wider : Penalty → Prop} {as bs : List α} (narrow : ∀ p, bound p → wider p)
    (same : within cost wider as = within cost wider bs) : within cost bound as = within cost bound bs := by
  have inner (cs : List α) : within cost bound (within cost wider cs) = within cost bound cs :=
    within_within fun c _ => narrow (cost c)
  rw [← inner as, same, inner bs]

theorem within_map {β : Type} (f : β → α) (bs : List β) :
    within cost bound (bs.map f) = (within (cost ∘ f) bound bs).map f := by
  simp [within, List.filter_map, Function.comp_def]

/-- Nothing comes after what is outside the bound but what is outside as well. -/
theorem outside_of_ranked (down : Down bound) {a : α} {as : List α} (ranked : Ranked cost (a :: as))
    (outside : ¬ bound (cost a)) : ∀ c ∈ a :: as, ¬ bound (cost c) :=
  List.forall_mem_cons.mpr ⟨outside, fun c member inside =>
    outside (down ((List.pairwise_cons.mp ranked).1 c member) inside)⟩

theorem within_take (down : Down bound) {as : List α} (ranked : Ranked cost as) (n : Nat) :
    within cost bound (as.take n) = (within cost bound as).take n := by
  induction as generalizing n with
  | nil => simp
  | cons a as ih =>
    cases n with
    | zero => simp
    | succ n =>
      by_cases inside : bound (cost a)
      · rw [List.take_succ_cons, within_cons_of_pos inside, within_cons_of_pos inside, List.take_succ_cons,
          ih (List.pairwise_cons.mp ranked).2]
      · have outside := outside_of_ranked down ranked inside
        rw [within_eq_nil outside, within_eq_nil fun c member => outside c (List.mem_of_mem_take member)]
        rfl

theorem within_merge (down : Down bound) {as bs : List α} (ha : Ranked cost as) (hb : Ranked cost bs) :
    within cost bound (merge cost as bs) = merge cost (within cost bound as) (within cost bound bs) := by
  induction as generalizing bs with
  | nil => rfl
  | cons a as ih =>
    by_cases inside : bound (cost a)
    · rw [within_cons_of_pos inside, merge, merge]
      induction bs with
      | nil =>
        rw [mergeHead, within_cons_of_pos inside, ih (List.pairwise_cons.mp ha).2 hb]
        rfl
      | cons b bs ihb =>
        rw [mergeHead]
        by_cases first : cost a ≤ cost b
        · rw [if_pos first, within_cons_of_pos inside, ih (List.pairwise_cons.mp ha).2 hb]
          by_cases cheap : bound (cost b)
          · rw [within_cons_of_pos cheap, mergeHead, if_pos first]
          · rw [within_eq_nil (outside_of_ranked down hb cheap)]
            rfl
        · have cheap : bound (cost b) := down (Nat.le_of_lt (Nat.lt_of_not_le first)) inside
          rw [if_neg first, within_cons_of_pos cheap, within_cons_of_pos cheap, mergeHead, if_neg first,
            ihb (List.pairwise_cons.mp hb).2]
    · -- Of the first list nothing is left, so all that counts comes before its first element.
      have outside := outside_of_ranked down ha inside
      have dropped {cs : List α} (outside' : ∀ c ∈ cs, ¬ bound (cost c)) :
          within cost bound (merge cost (a :: as) cs) = [] := by
        refine within_eq_nil fun c member => ?_
        rcases List.mem_append.mp ((merge_perm (a :: as) cs).mem_iff.mp member) with left | right
        · exact outside c left
        · exact outside' c right
      rw [within_eq_nil outside, merge]
      induction bs with
      | nil => exact dropped (by simp)
      | cons b bs ihb =>
        by_cases first : cost a ≤ cost b
        · have outside' := outside_of_ranked down hb fun cheap => inside (down first cheap)
          rw [dropped outside', within_eq_nil outside']
        · rw [merge, mergeHead, if_neg first]
          by_cases cheap : bound (cost b)
          · rw [within_cons_of_pos cheap, within_cons_of_pos cheap]
            exact congrArg (b :: ·) (ihb (List.pairwise_cons.mp hb).2)
          · rw [within_cons_of_neg cheap, within_cons_of_neg cheap]
            exact ihb (List.pairwise_cons.mp hb).2

theorem within_cheapest (down : Down bound) {limit : Nat} {as bs : List α} (ha : Ranked cost as) (hb : Ranked cost bs) :
    within cost bound (cheapest cost limit as bs) =
      cheapest cost limit (within cost bound as) (within cost bound bs) := by
  rw [cheapest, within_take down (merge_ranked ha hb), within_merge down ha hb, cheapest]

namespace Row

noncomputable def trim (bound : Penalty → Prop) (r : Row) : Row :=
  { r with rest := within (fun t => r.stem.penalty + t.penalty) bound r.rest }

/-- The rows that begin within the bound, and of these the part within it. -/
noncomputable def trimAll (bound : Penalty → Prop) (rows : List Row) : List Row :=
  (within Row.cost bound rows).map (trim bound)

variable {r : Row} {rows : List Row}

theorem trimAll_cons_of_pos (inside : bound r.cost) :
    trimAll bound (r :: rows) = r.trim bound :: trimAll bound rows := by
  rw [trimAll, within_cons_of_pos inside]
  rfl

theorem trimAll_cons_of_neg (outside : ¬ bound r.cost) : trimAll bound (r :: rows) = trimAll bound rows := by
  rw [trimAll, within_cons_of_neg outside]
  rfl

theorem trimAll_eq_nil (outside : ∀ r ∈ rows, ¬ bound r.cost) : trimAll bound rows = [] := by
  rw [trimAll, within_eq_nil outside]
  rfl

theorem trimAll_insert_of_pos (down : Down bound) (ranked : Ranked Row.cost rows) (inside : bound r.cost) :
    trimAll bound (r.insert rows) = (r.trim bound).insert (trimAll bound rows) := by
  induction rows with
  | nil => exact trimAll_cons_of_pos inside
  | cons a rows ih =>
    rw [insert]
    by_cases cheap : bound a.cost
    · have same : (r.trim bound).precedes (a.trim bound) = r.precedes a := rfl
      rw [trimAll_cons_of_pos cheap, insert, same]
      split
      · rw [trimAll_cons_of_pos inside, trimAll_cons_of_pos cheap]
      · rw [trimAll_cons_of_pos cheap, ih (List.pairwise_cons.mp ranked).2]
    · have before : r.precedes a = true := by
        have less : r.cost < a.cost := Nat.lt_of_not_le fun le => cheap (down le inside)
        simp [precedes, less]
      rw [if_pos before, trimAll_cons_of_pos inside, trimAll_eq_nil (outside_of_ranked down ranked cheap)]
      rfl

theorem trimAll_insert_of_neg (outside : ¬ bound r.cost) : trimAll bound (r.insert rows) = trimAll bound rows := by
  induction rows with
  | nil => exact trimAll_cons_of_neg outside
  | cons a rows ih =>
    rw [insert]
    split
    · exact trimAll_cons_of_neg outside
    · by_cases cheap : bound a.cost
      · rw [trimAll_cons_of_pos cheap, trimAll_cons_of_pos cheap, ih]
      · rw [trimAll_cons_of_neg cheap, trimAll_cons_of_neg cheap, ih]

/-- Drawing from the first row does the same to the trimmed rows. -/
theorem trimAll_drop (down : Down bound) (sorted : Sorted (r :: rows)) :
    trimAll bound (r.drop rows) = (r.trim bound).drop (trimAll bound rows) := by
  have ranked := (List.pairwise_cons.mp sorted.firsts).2
  have children := (List.forall_mem_cons.mp sorted.children).1
  rw [drop, drop]
  cases more : r.rest with
  | nil =>
    have none : (r.trim bound).rest = [] := by simp [trim, more]
    rw [none]
  | cons t ts =>
    rw [more] at children
    let next : Row := { r with next := t, rest := ts }
    by_cases inside : bound next.cost
    · have kept : (r.trim bound).rest = t :: within (fun t => r.stem.penalty + t.penalty) bound ts := by
        rw [trim, more]
        exact @within_cons_of_pos Tree (fun u => r.stem.penalty + u.penalty) bound t ts inside
      rw [kept]
      exact trimAll_insert_of_pos (r := next) down ranked inside
    · have none : (r.trim bound).rest = [] := by
        rw [trim, more]
        refine within_eq_nil (List.forall_mem_cons.mpr ⟨inside, fun u later cheap => inside (down ?_ cheap)⟩)
        have less := (List.pairwise_cons.mp (List.pairwise_cons.mp children).2).1 u later
        exact Penalty.add_le_add (Nat.le_refl _) less
      rw [none]
      exact trimAll_insert_of_neg (r := next) inside

end Row

theorem within_drawPairs (down : Down bound) (most : Penalty) (count : Nat) {rows : List Row}
    (sorted : Row.Sorted rows) :
    within Stem.penalty bound (drawPairs most count rows) = drawPairs most count (Row.trimAll bound rows) := by
  induction count generalizing rows with
  | zero => rfl
  | succ count ih =>
    cases rows with
    | nil => rfl
    | cons row rows =>
      by_cases inside : bound row.cost
      · have same : (row.trim bound).cost = row.cost := rfl
        rw [Row.trimAll_cons_of_pos inside, drawPairs, drawPairs, same]
        split
        · have kept : bound (row.stem.extend row.next).penalty := inside
          rw [within_cons_of_pos kept, ih sorted.drop, Row.trimAll_drop down sorted]
          rfl
        · rfl
      · rw [Row.trimAll_eq_nil (outside_of_ranked down sorted.firsts inside)]
        refine within_eq_nil fun x member cheap => inside (down ?_ cheap)
        exact sorted.cost_le x (mem_of_mem_drawPairs member)

theorem rowsFrom_cons (n : Nat) (s : Stem) (stems : List Stem) (t : Tree) (ts : List Tree) :
    rowsFrom n (s :: stems) (t :: ts) = ⟨n, s, t, ts⟩ :: rowsFrom (n + 1) stems (t :: ts) := rfl

theorem stem_of_mem_rowsFrom {n : Nat} {stems : List Stem} {t : Tree} {ts : List Tree} {r : Row}
    (member : r ∈ rowsFrom n stems (t :: ts)) : r.stem ∈ stems ∧ r.next = t := by
  obtain ⟨⟨s, i⟩, place, rfl⟩ := List.mem_map.mp member
  exact ⟨List.fst_mem_of_mem_zipIdx place, rfl⟩

/-- Only the parts of the stems and trees matter that can be part of a pair within the bound. -/
theorem trimAll_rowsFrom {first second : Penalty → Prop} (down : Down first) (down' : Down second) (n : Nat)
    {stems : List Stem} {trees : List Tree} (hs : Ranked Stem.penalty stems) (ht : Ranked Tree.penalty trees)
    (parts : ∀ s ∈ stems, ∀ t ∈ trees, bound (s.penalty + t.penalty) → first s.penalty ∧ second t.penalty) :
    Row.trimAll bound (rowsFrom n stems trees) =
      Row.trimAll bound (rowsFrom n (within Stem.penalty first stems) (within Tree.penalty second trees)) := by
  cases trees with
  | nil => rfl
  | cons t ts =>
    by_cases cheap : second t.penalty
    · rw [within_cons_of_pos cheap]
      induction stems generalizing n with
      | nil => rfl
      | cons s stems ih =>
        obtain ⟨here, later⟩ := List.forall_mem_cons.mp parts
        by_cases inside : first s.penalty
        · have rest : within (fun u : Tree => s.penalty + u.penalty) bound (within Tree.penalty second ts) =
              within (fun u : Tree => s.penalty + u.penalty) bound ts :=
            within_within fun u member pair => (here u (List.mem_cons_of_mem _ member) pair).2
          rw [within_cons_of_pos inside, rowsFrom_cons, rowsFrom_cons]
          by_cases pair : bound (s.penalty + t.penalty)
          · rw [Row.trimAll_cons_of_pos (r := ⟨n, s, t, ts⟩) pair, Row.trimAll_cons_of_pos (r := ⟨n, s, t, _⟩) pair,
              ih (n + 1) (List.pairwise_cons.mp hs).2 later, Row.trim, Row.trim, rest]
          · rw [Row.trimAll_cons_of_neg (r := ⟨n, s, t, ts⟩) pair, Row.trimAll_cons_of_neg (r := ⟨n, s, t, _⟩) pair,
              ih (n + 1) (List.pairwise_cons.mp hs).2 later]
        · have outside := outside_of_ranked down hs inside
          rw [within_eq_nil outside]
          refine Row.trimAll_eq_nil fun r member pair => ?_
          obtain ⟨stem, next⟩ := stem_of_mem_rowsFrom member
          rw [Row.cost, next] at pair
          exact outside r.stem stem (parts r.stem stem t List.mem_cons_self pair).1
    · have outside := outside_of_ranked down' ht cheap
      rw [within_eq_nil outside]
      refine Row.trimAll_eq_nil fun r member pair => ?_
      obtain ⟨stem, next⟩ := stem_of_mem_rowsFrom member
      rw [Row.cost, next] at pair
      exact cheap (parts r.stem stem t List.mem_cons_self pair).2

theorem within_pairs (down : Down bound) {first second : Penalty → Prop} (down' : Down first) (down'' : Down second)
    {limit : Nat} {most : Penalty} {stems : List Stem} {trees : List Tree} (hs : Ranked Stem.penalty stems)
    (ht : Ranked Tree.penalty trees)
    (parts : ∀ s ∈ stems, ∀ t ∈ trees, bound (s.penalty + t.penalty) → first s.penalty ∧ second t.penalty) :
    within Stem.penalty bound (pairs limit most stems trees) = drawPairs most limit
      (Row.trimAll bound (rowsFrom 0 (within Stem.penalty first stems) (within Tree.penalty second trees))) := by
  rw [pairs_eq_drawPairs, within_drawPairs down most limit (sorted_rowsFrom 0 hs ht),
    trimAll_rowsFrom down' down'' 0 hs ht parts]

end Earley.Forest
