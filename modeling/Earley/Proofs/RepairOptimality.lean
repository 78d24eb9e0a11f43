import Earley.Proofs.ForestTrees
import Earley.Proofs.RepairReading

/-!
# The cheapest repairs

Lists of mends and matchings say the same about an input. So the trees of a fault-tolerant grammar cost what the
matchings of the input with the usage strings of its strict twin leave out, and the best tree shows a cheapest repair
(`bestTree_repairs_least`).
-/

namespace Earley

namespace Grammar

variable {g s t : Grammar} {ts : List Token} {us : List Usage} {u : Usage} {pairs : List (Nat × Nat)}

def shift (a b : Nat) (pairs : List (Nat × Nat)) : List (Nat × Nat) := pairs.map fun x => (x.1 + a, x.2 + b)

/-- Pairs that leave room are shifted ones. -/
theorem exists_shift {a b : Nat} (room : ∀ x ∈ pairs, a ≤ x.1 ∧ b ≤ x.2) : ∃ pairs', pairs = shift a b pairs' := by
  refine ⟨pairs.map fun x => (x.1 - a, x.2 - b), ?_⟩
  rw [shift, List.map_map]
  refine (List.map_id pairs).symm.trans (List.map_congr_left fun x member => ?_)
  obtain ⟨first, second⟩ := room x member
  apply Prod.ext <;> simp <;> omega

theorem increasing_shift_iff {a b : Nat} : ((shift a b pairs).Pairwise fun x y => x.1 < y.1 ∧ x.2 < y.2) ↔
    pairs.Pairwise fun x y => x.1 < y.1 ∧ x.2 < y.2 := by
  simp [shift, List.pairwise_map]

def AcceptsAt (g : Grammar) (ts : List Token) (us : List Usage) (x : Nat × Nat) : Prop :=
  ∃ t u, ts[x.1]? = some t ∧ us[x.2]? = some u ∧ g.accepts u t = true

theorem acceptsAt_shift_iff (front : List Token) (front' : List Usage) {a : Nat} (width : a = front.length) :
    (∀ x ∈ shift a front'.length pairs, g.AcceptsAt (front ++ ts) (front' ++ us) x) ↔
      ∀ x ∈ pairs, g.AcceptsAt ts us x := by
  rw [width, shift, List.forall_mem_map]
  simp [AcceptsAt, List.getElem?_append_right]

/-- A usage that is left out. -/
theorem matching_assumed_iff : g.Matching ts (u :: us) (shift 0 1 pairs) ↔ g.Matching ts us pairs := by
  have places : (∀ x ∈ shift 0 1 pairs, g.AcceptsAt ts (u :: us) x) ↔ ∀ x ∈ pairs, g.AcceptsAt ts us x :=
    acceptsAt_shift_iff [] [u] rfl
  have last : (∃ x ∈ shift 0 1 pairs, x.1 + 1 = ts.length) ↔ ∃ x ∈ pairs, x.1 + 1 = ts.length := by simp [shift]
  exact ⟨fun h => ⟨increasing_shift_iff.mp h.increasing, places.mp h.accepted, fun some => last.mp (h.last some)⟩,
    fun h => ⟨increasing_shift_iff.mpr h.increasing, places.mpr h.accepted, fun some => last.mpr (h.last some)⟩⟩

/-- A usage that is paired with a token after some that are left out. -/
theorem matching_met_iff (skipped : List Token) {x : Token} :
    g.Matching (skipped ++ x :: ts) (u :: us) ((skipped.length, 0) :: shift (skipped.length + 1) 1 pairs) ↔
      g.accepts u x = true ∧ g.Matching ts us pairs := by
  have places : (∀ y ∈ shift (skipped.length + 1) 1 pairs, g.AcceptsAt (skipped ++ x :: ts) (u :: us) y) ↔
      ∀ y ∈ pairs, g.AcceptsAt ts us y := by
    rw [List.append_cons]
    exact acceptsAt_shift_iff (skipped ++ [x]) [u] (by simp)
  constructor
  · intro h
    obtain ⟨here, others⟩ := List.forall_mem_cons.mp h.accepted
    refine ⟨by simpa using here, increasing_shift_iff.mp (List.pairwise_cons.mp h.increasing).2, places.mp others,
      fun some => ?_⟩
    obtain ⟨y, member, place⟩ := h.last (by simp)
    have wide := List.length_pos_iff.mpr some
    rw [List.length_append, List.length_cons] at place
    rcases List.mem_cons.mp member with rfl | later
    · dsimp only at place
      omega
    · obtain ⟨z, inside, rfl⟩ := List.mem_map.mp later
      exact ⟨z, inside, by dsimp only at place; omega⟩
  · rintro ⟨here, h⟩
    refine ⟨List.pairwise_cons.mpr ⟨?_, increasing_shift_iff.mpr h.increasing⟩,
      List.forall_mem_cons.mpr ⟨by simpa using here, places.mpr h.accepted⟩, fun _ => ?_⟩
    · intro y member
      obtain ⟨z, -, rfl⟩ := List.mem_map.mp member
      dsimp only
      omega
    · by_cases none : ts = []
      · exact ⟨_, List.mem_cons_self, by simp [none]⟩
      · obtain ⟨z, inside, place⟩ := h.last none
        refine ⟨_, List.mem_cons_of_mem _ (List.mem_map_of_mem inside), ?_⟩
        rw [List.length_append, List.length_cons]
        dsimp only
        omega

theorem length_le_of_increasing {ns : List Nat} {n : Nat} (increasing : ns.Pairwise (· < ·))
    (below : ∀ m ∈ ns, m < n) : ns.length ≤ n := by
  have inside : ns ⊆ List.range n := fun m member => List.mem_range.mpr (below m member)
  have fewer := (List.subperm_of_subset (increasing.imp Nat.ne_of_lt) inside).length_le
  rwa [List.length_range] at fewer

/-- A matching pairs every token and every usage at most once. -/
theorem Matching.length_le (h : g.Matching ts us pairs) : pairs.length ≤ ts.length ∧ pairs.length ≤ us.length := by
  have places (x : Nat × Nat) (member : x ∈ pairs) : x.1 < ts.length ∧ x.2 < us.length := by
    obtain ⟨y, v, token, usage, -⟩ := h.accepted x member
    exact ⟨(List.getElem?_eq_some_iff.mp token).1, (List.getElem?_eq_some_iff.mp usage).1⟩
  constructor
  · rw [← List.length_map Prod.fst]
    apply length_le_of_increasing
    · exact List.pairwise_map.mpr (h.increasing.imp And.left)
    · exact List.forall_mem_map.mpr fun x member => (places x member).1
  · rw [← List.length_map Prod.snd]
    apply length_le_of_increasing
    · exact List.pairwise_map.mpr (h.increasing.imp And.right)
    · exact List.forall_mem_map.mpr fun x member => (places x member).2

theorem unmatched_assumed (h : g.Matching ts us pairs) :
    unmatched ts (u :: us) (shift 0 1 pairs) = 1 + unmatched ts us pairs := by
  obtain ⟨-, fewer⟩ := h.length_le
  simp only [unmatched, shift, List.length_cons, List.length_map]
  omega

theorem unmatched_met (h : g.Matching ts us pairs) (skipped : List Token) (x : Token) :
    unmatched (skipped ++ x :: ts) (u :: us) ((skipped.length, 0) :: shift (skipped.length + 1) 1 pairs) =
      skipped.length + unmatched ts us pairs := by
  obtain ⟨fewer, -⟩ := h.length_le
  simp only [unmatched, shift, List.length_append, List.length_cons, List.length_map]
  omega

/-- The first usage is paired with a token, or left out. -/
theorem Matching.first_usage (h : g.Matching ts us pairs) :
    (∃ a rest, pairs = (a, 0) :: shift (a + 1) 1 rest) ∨ ∃ rest, pairs = shift 0 1 rest := by
  match pairs, h.increasing with
  | [], _ => exact .inr ⟨[], rfl⟩
  | (a, 0) :: rest, increasing =>
    obtain ⟨rest, rfl⟩ := exists_shift (List.pairwise_cons.mp increasing).1
    exact .inl ⟨a, rest, rfl⟩
  | (a, b + 1) :: rest, increasing =>
    refine .inr (exists_shift (List.forall_mem_cons.mpr ⟨⟨Nat.zero_le a, Nat.le_add_left 1 b⟩, fun x member => ?_⟩))
    obtain ⟨-, later⟩ := (List.pairwise_cons.mp increasing).1 x member
    exact ⟨Nat.zero_le _, Nat.one_le_of_lt later⟩

theorem exists_append_of_getElem? {x : Token} {n : Nat} (found : ts[n]? = some x) :
    ∃ front back, ts = front ++ x :: back ∧ n = front.length := by
  obtain ⟨bound, rfl⟩ := List.getElem?_eq_some_iff.mp found
  refine ⟨ts.take n, ts.drop (n + 1), ?_, by simp; omega⟩
  rw [← List.drop_eq_getElem_cons, List.take_append_drop]

/-- What the mends of an input leave out is what some matching leaves out. -/
theorem exists_matching (mends : List Mend) (valid : ∀ m ∈ mends, m.Valid g) :
    ∃ pairs, g.Matching (mends.flatMap (·.tokens)) (mends.map (·.usage)) pairs ∧
      total (·.cost) mends = unmatched (mends.flatMap (·.tokens)) (mends.map (·.usage)) pairs := by
  induction mends with
  | nil => exact ⟨[], ⟨.nil, by simp, by simp⟩, rfl⟩
  | cons m mends ih =>
    obtain ⟨good, goods⟩ := List.forall_mem_cons.mp valid
    obtain ⟨pairs, matching, cost⟩ := ih goods
    cases m with
    | met u skipped x =>
      have whole := (matching_met_iff skipped).mpr ⟨good.1, matching⟩
      have left := unmatched_met (u := u) matching skipped x
      rw [← List.singleton_append, ← List.append_assoc] at whole left
      exact ⟨_, whole, by rw [total_cons, cost]; exact left.symm⟩
    | assumed u =>
      exact ⟨_, matching_assumed_iff.mpr matching, by rw [total_cons, cost]; exact (unmatched_assumed matching).symm⟩

/-- Every matching is read off some mends. -/
theorem Matching.exists_mends (h : g.Matching ts us pairs) (plain : ∀ x ∈ ts, x.isFinish = false) :
    ∃ mends : List Mend, (∀ m ∈ mends, m.Valid g) ∧ mends.flatMap (·.tokens) = ts ∧ mends.map (·.usage) = us ∧
      total (·.cost) mends = unmatched ts us pairs := by
  induction us generalizing ts pairs with
  | nil =>
    obtain rfl : pairs = [] := List.length_eq_zero_iff.mp (Nat.le_zero.mp h.length_le.2)
    obtain rfl : ts = [] := by
      by_contra some
      obtain ⟨x, member, -⟩ := h.last some
      cases member
    exact ⟨[], by simp, rfl, rfl, rfl⟩
  | cons u us ih =>
    rcases h.first_usage with ⟨a, pairs, rfl⟩ | ⟨pairs, rfl⟩
    · obtain ⟨x, v, token, -⟩ := h.accepted (a, 0) List.mem_cons_self
      obtain ⟨skipped, ts, rfl, rfl⟩ := exists_append_of_getElem? token
      obtain ⟨accepted, matching⟩ := (matching_met_iff skipped).mp h
      obtain ⟨before, after⟩ := List.forall_mem_append.mp plain
      obtain ⟨mends, valid, rfl, rfl, cost⟩ := ih matching (List.forall_mem_cons.mp after).2
      refine ⟨.met u skipped x :: mends, List.forall_mem_cons.mpr ⟨⟨accepted, before⟩, valid⟩, ?_, rfl, ?_⟩
      · simp [Mend.tokens]
      · rw [total_cons, cost, unmatched_met matching]
        rfl
    · have matching := matching_assumed_iff.mp h
      obtain ⟨mends, valid, rfl, rfl, cost⟩ := ih matching plain
      refine ⟨.assumed u :: mends, List.forall_mem_cons.mpr ⟨trivial, valid⟩, rfl, rfl, ?_⟩
      rw [total_cons, cost, unmatched_assumed matching]
      rfl

/-- What repairs of an input cost: what its matchings with the usage strings of a rule leave out. -/
def repairCosts (g : Grammar) (r : RuleId) (ts : List Token) : Set Nat :=
  { cost | ∃ us pairs, g.Spells [.rule r] us ∧ g.Matching ts us pairs ∧ cost = unmatched ts us pairs }

theorem Matching.congr (same : s.sets = t.sets) (h : t.Matching ts us pairs) : s.Matching ts us pairs := by
  refine ⟨h.increasing, fun x member => ?_, h.last⟩
  obtain ⟨y, v, token, usage, accepted⟩ := h.accepted x member
  exact ⟨y, v, token, usage, by rwa [accepts_congr same]⟩

/-- A tree of the fault-tolerant twin costs what some repair does. -/
theorem Mirrors.cost_of_isTree (h : Mirrors (· = 0) s t) {start : RuleId} (starts : t.start = some start) {tree : Tree}
    (isTree : t.IsTree start ts tree) :
    ∃ cost ∈ s.repairCosts (t.strictId start) ts, tree.penalty = .ofNat cost := by
  obtain ⟨mends, reads⟩ := h.reads_tree starts isTree
  obtain ⟨pairs, matching, cost⟩ := exists_matching mends reads.valid
  have tokens : mends.flatMap (·.tokens) = ts := by simpa [slice] using reads.tokens
  have spells := reads.spells
  rw [h.unwrap_start starts] at spells
  rw [tokens] at matching cost
  exact ⟨_, ⟨_, pairs, spells, matching.congr h.sets, cost⟩, reads.cost⟩

/-- Every repair is shown by a tree of the fault-tolerant twin. -/
theorem Mirrors.exists_tree_of_cost (h : Mirrors (· = 0) s t) {start : RuleId} (starts : t.start = some start)
    (plain : ∀ x ∈ ts, x.isFinish = false) {cost : Nat} (repair : cost ∈ s.repairCosts (t.strictId start) ts) :
    ∃ tree, t.IsTree start ts tree ∧ tree.penalty = .ofNat cost := by
  obtain ⟨us, pairs, spells, matching, rfl⟩ := repair
  obtain ⟨mends, valid, rfl, usages, cost⟩ := (matching.congr h.sets.symm).exists_mends plain
  have own : ∀ x ∈ [Symbol.rule start], x.Own := List.forall_mem_singleton.mpr (h.wrapped.start starts).1
  rw [← cost, ← derives_iff_isTree]
  exact h.derives_of_spells spells own (h.unwrap_start starts) usages valid

theorem isLeast_sInf {costs : Set Nat} (some : costs.Nonempty) : IsLeast costs (sInf costs) :=
  ⟨Nat.sInf_mem some, fun _ => Nat.sInf_le⟩

/-- A tree that costs no more than any other shows a cheapest repair. -/
theorem Mirrors.least_of_isTree (h : Mirrors (· = 0) s t) {start : RuleId} (starts : t.start = some start)
    (plain : ∀ x ∈ ts, x.isFinish = false) {tree : Tree} (isTree : t.IsTree start ts tree)
    (cheapest : ∀ other, t.IsTree start ts other → other.penalty ≤ tree.penalty → tree.penalty ≤ other.penalty) :
    ∃ least, IsLeast (s.repairCosts (t.strictId start) ts) least ∧ tree.penalty = .ofNat least := by
  obtain ⟨cost, repair, paid⟩ := h.cost_of_isTree starts isTree
  have lower := isLeast_sInf ⟨cost, repair⟩
  obtain ⟨other, isTree', paid'⟩ := h.exists_tree_of_cost starts plain lower.1
  have less : other.penalty ≤ tree.penalty := by
    rw [paid, paid']
    exact Penalty.ofNat_le_ofNat (lower.2 repair)
  refine ⟨_, lower, ?_⟩
  rw [← paid']
  exact Penalty.ext (Nat.le_antisymm (cheapest other isTree' less) less)

end Grammar

namespace Parser

open Grammar

/-- The best tree that a fault-tolerant grammar gives an input costs as little as any repair does, and there is none
just when the input cannot be repaired or every repair costs more than the settings allow. -/
theorem bestTree_repairs_least (s : Grammar) (p : Parser) (start : RuleId) (tokens : List Token)
    (twins : Twins s p.grammar) (fresh : p.states = #[]) (starts : p.grammar.start = some start) :
    s.start = some (p.grammar.strictId start) ∧ ∃ outcome p', (run tokens).run p = .ok outcome p' ∧ ∀ config : Config,
      let costs := s.repairCosts (p.grammar.strictId start) (tokens.takeWhile (!·.isFinish))
      let best := { p' with config := config }.bestTree
      (∀ t, best = some t → ∃ least, IsLeast costs least ∧ t.penalty = .ofNat least) ∧
        (best = none ↔ costs = ∅ ∨ ∃ least, IsLeast costs least ∧ config.maxPenalty < .ofNat least) := by
  have mirrors := twins.mirrors
  have ran := run_eq p tokens fresh starts
  refine ⟨by rw [mirrors.start, starts]; rfl, _, _, ran, fun config => ?_⟩
  intro costs best
  have plain : ∀ x ∈ tokens.takeWhile (!·.isFinish), x.isFinish = false := fun x member => by
    simpa using List.mem_takeWhile_imp member
  rcases bestTree_cases twins.reachable.2 fresh starts ran config with ⟨none, dear⟩ | ⟨t, some, isTree, cheap, cheapest⟩
  · have none : best = .none := none
    rw [none]
    refine ⟨by simp, fun _ => ?_, fun _ => rfl⟩
    rcases costs.eq_empty_or_nonempty with empty | some
    · exact .inl empty
    · obtain ⟨tree, isTree, paid⟩ := mirrors.exists_tree_of_cost starts plain (isLeast_sInf some).1
      refine .inr ⟨_, isLeast_sInf some, ?_⟩
      rw [← paid]
      exact Nat.lt_of_not_le (dear tree isTree)
  · have some : best = .some t := some
    rw [some]
    obtain ⟨least, lower, paid⟩ := mirrors.least_of_isTree starts plain isTree fun other isTree' less =>
      cheapest other isTree' (Nat.le_trans less cheap)
    refine ⟨fun t' same => ?_, by simp, ?_⟩
    · cases same
      exact ⟨least, lower, paid⟩
    · rintro (empty | ⟨least', lower', dear⟩)
      · exact absurd empty (Set.Nonempty.ne_empty ⟨least, lower.1⟩)
      · rw [lower'.unique lower, ← paid] at dear
        exact absurd cheap (Nat.not_le_of_lt dear)

theorem bestTree_letterGrammar_repairs_least :
    ∃ outcome p', (run [.ofChar 'b', .ofChar 'a']).run (.new (letterGrammar true) {}) = .ok outcome p' ∧
      ∀ config : Config,
        let costs := (letterGrammar false).repairCosts ((letterGrammar true).strictId ⟨2⟩) [.ofChar 'b', .ofChar 'a']
        let best := { p' with config := config }.bestTree
        (∀ t, best = some t → ∃ least, IsLeast costs least ∧ t.penalty = .ofNat least) ∧
          (best = none ↔ costs = ∅ ∨ ∃ least, IsLeast costs least ∧ config.maxPenalty < .ofNat least) :=
  (bestTree_repairs_least (letterGrammar false) (.new (letterGrammar true) {}) ⟨2⟩ [.ofChar 'b', .ofChar 'a']
    letterGrammar_twins rfl letterGrammar_start).2

end Parser

end Earley
