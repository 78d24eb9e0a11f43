import Earley.Proofs.ForestTrees
import Earley.Proofs.RepairReading

/-!
# What repairs come to

A tree of a fault-tolerant grammar costs one for every token that it skips and one for every usage that it assumes.
Left without the skipped tokens, and with tokens put in for the assumed usages, the input derives from the start rule
of the strict twin (`returned_repairs`).
-/

namespace Earley

section Weaving

variable {α β : Type} {n i l : Nat} {a : α} {inserted standing : List (Nat × α)}

@[simp] theorem placedAt_nil : placedAt n ([] : List (Nat × α)) = [] := rfl

theorem placedAt_cons_self : placedAt n ((n, a) :: inserted) = a :: placedAt n inserted := by
  simp [placedAt]

theorem placedAt_cons_of_ne (other : i ≠ n) : placedAt n ((i, a) :: inserted) = placedAt n inserted := by
  simp [placedAt, other]

theorem placedAt_eq_nil (later : ∀ x ∈ inserted, n < x.1) : placedAt n inserted = [] := by
  apply List.filterMap_eq_nil_iff.mpr
  intro x member
  exact if_neg (Nat.ne_of_gt (later x member))

/-- What is inserted first comes first. -/
theorem weave_inserted : weave i l ((i, a) :: inserted) standing = a :: weave i l inserted standing := by
  simp only [weave, List.range'_succ, List.flatMap_cons, placedAt_cons_self, List.cons_append]
  congr 2
  refine List.flatMap_congr fun n member => ?_
  rw [placedAt_cons_of_ne]
  have := List.mem_range'_1.mp member
  omega

/-- A position at which nothing is placed. -/
theorem weave_skipped (later : ∀ x ∈ inserted, i < x.1) (later' : ∀ x ∈ standing, i < x.1) :
    weave i (l + 1) inserted standing = weave (i + 1) l inserted standing := by
  rw [weave, List.range'_succ, List.flatMap_cons, placedAt_eq_nil later, placedAt_eq_nil later']
  rfl

/-- What stands first comes first where nothing is inserted before it. -/
theorem weave_standing (later : ∀ x ∈ inserted, i < x.1) (later' : ∀ x ∈ standing, i < x.1) :
    weave i (l + 1) inserted ((i, a) :: standing) = a :: weave (i + 1) l inserted standing := by
  rw [weave, List.range'_succ, List.flatMap_cons, placedAt_eq_nil later, placedAt_cons_self, placedAt_eq_nil later']
  refine congrArg (a :: ·) (List.flatMap_congr fun n member => ?_)
  rw [placedAt_cons_of_ne]
  have := List.mem_range'_1.mp member
  omega

theorem weave_skipped_standing {skipped : Nat} (later : ∀ x ∈ inserted, i + skipped < x.1)
    (later' : ∀ x ∈ standing, i + skipped < x.1) :
    weave i (skipped + 1 + l) inserted ((i + skipped, a) :: standing) =
      a :: weave (i + (skipped + 1)) l inserted standing := by
  induction skipped generalizing i with
  | zero => simpa [Nat.add_comm 1] using weave_standing later later'
  | succ skipped ih =>
    have next : i + (skipped + 1) = i + 1 + skipped := by omega
    have early : ∀ x ∈ inserted, i < x.1 := fun x member => by
      have := later x member
      omega
    have early' : ∀ x ∈ (i + (skipped + 1), a) :: standing, i < x.1 :=
      List.forall_mem_cons.mpr ⟨by omega, fun x member => by
        have := later' x member
        omega⟩
    rw [show skipped + 1 + 1 + l = skipped + 1 + l + 1 by omega, weave_skipped early early', next]
    rw [next] at later later'
    rw [ih later later', show i + 1 + (skipped + 1) = i + (skipped + 1 + 1) by omega]

section Related

variable {R : α → β → Prop} {places places' : List Nat} {as cs : List α} {bs ds : List β}

theorem forall₂_placedAt (h : List.Forall₂ R as bs) :
    List.Forall₂ R (placedAt n (places.zip as)) (placedAt n (places.zip bs)) := by
  induction h generalizing places with
  | nil => simp
  | cons here _ ih =>
    cases places with
    | nil => exact .nil
    | cons m places =>
      rw [List.zip_cons_cons, List.zip_cons_cons]
      by_cases same : m = n
      · subst same
        rw [placedAt_cons_self, placedAt_cons_self]
        exact .cons here ih
      · rw [placedAt_cons_of_ne same, placedAt_cons_of_ne same]
        exact ih

/-- Woven lists are related entry by entry where the lists they are woven of are. -/
theorem forall₂_weave (first : List.Forall₂ R as bs) (second : List.Forall₂ R cs ds) :
    List.Forall₂ R (weave i l (places.zip as) (places'.zip cs))
      (weave i l (places.zip bs) (places'.zip ds)) := by
  rw [weave, weave]
  induction List.range' i (l + 1) with
  | nil => exact .nil
  | cons n ns ih => exact List.rel_append (List.rel_append (forall₂_placedAt first) (forall₂_placedAt second)) ih

theorem mem_of_mem_placedAt (member : a ∈ placedAt n (places.zip as)) : a ∈ as := by
  obtain ⟨⟨m, b⟩, inside, kept⟩ := List.mem_filterMap.mp member
  obtain ⟨-, same⟩ := Option.ite_none_right_eq_some.mp kept
  cases same
  exact (List.of_mem_zip inside).2

theorem mem_of_mem_weave (member : a ∈ weave i l (places.zip as) (places'.zip cs)) : a ∈ as ∨ a ∈ cs := by
  obtain ⟨n, -, inside⟩ := List.mem_flatMap.mp member
  exact (List.mem_append.mp inside).imp mem_of_mem_placedAt mem_of_mem_placedAt

end Related

end Weaving

namespace Mend

variable {g : Grammar}

def matched (i : Nat) : Mend → List (Nat × Usage)
  | met u skipped _ => [(i + skipped.length, u)]
  | assumed _ => []

theorem insertion_place (i : Nat) (m : Mend) : ∀ x ∈ m.insertions i, i ≤ x.position := by
  cases m <;> simp [insertions]

theorem matched_place (i : Nat) (m : Mend) : ∀ x ∈ m.matched i, i ≤ x.1 := by
  cases m <;> simp [matched]

theorem token_leaves (i : Nat) (m : Mend) : (m.leaves i).map (·.token) = m.tokens := by
  cases m <;> simp [leaves, tokens, Function.comp_def]

theorem skipped_leaves (i : Nat) (m : Mend) :
    ((m.leaves i).filter (·.skipped)).length + (m.insertions i).length = m.cost := by
  cases m <;> simp [leaves, insertions, cost, List.filter_map, Function.comp_def]

theorem matched_leaves (i : Nat) (m : Mend) :
    ((m.leaves i).filter (!·.skipped)).map (·.index) = (m.matched i).map (·.1) := by
  cases m <;> simp [leaves, matched, List.filter_map, Function.comp_def]

theorem Valid.matched {m : Mend} (valid : m.Valid g) (i : Nat) :
    List.Forall₂ (fun x u => g.accepts u x = true) (((m.leaves i).filter (!·.skipped)).map (·.token))
      ((m.matched i).map (·.2)) := by
  cases m with
  | met u skipped x => simpa [leaves, Mend.matched, List.filter_map, Function.comp_def] using valid.1
  | assumed u => simp [leaves, Mend.matched]

section Gather

variable {β : Type} {f : Nat → Mend → List β}

theorem le_of_mem_gather {place : β → Nat} (step : ∀ i m, ∀ x ∈ f i m, i ≤ place x) {i : Nat} {mends : List Mend} :
    ∀ x ∈ gather f i mends, i ≤ place x := by
  induction mends generalizing i with
  | nil => simp [gather]
  | cons m mends ih =>
    refine List.forall_mem_append.mpr ⟨step i m, fun x member => ?_⟩
    exact Nat.le_trans (Nat.le_add_right _ _) (ih x member)

end Gather

theorem token_gather_leaves (i : Nat) (mends : List Mend) :
    (gather leaves i mends).map (·.token) = mends.flatMap (·.tokens) := by
  induction mends generalizing i with
  | nil => rfl
  | cons m mends ih => simp only [gather, List.map_append, List.flatMap_cons, ih, token_leaves]

theorem length_gather_leaves (i : Nat) (mends : List Mend) :
    (gather leaves i mends).length = (mends.flatMap (·.tokens)).length := by
  rw [← token_gather_leaves i, List.length_map]

/-- Every skipped token costs one, and so does every insertion. -/
theorem total_cost_eq (i : Nat) (mends : List Mend) :
    total (·.cost) mends =
      ((gather leaves i mends).filter (·.skipped)).length + (gather insertions i mends).length := by
  induction mends generalizing i with
  | nil => rfl
  | cons m mends ih =>
    have here := skipped_leaves i m
    have others := ih (i + m.tokens.length)
    simp only [gather, total_cons, List.filter_append, List.length_append]
    omega

theorem index_gather_leaves (i : Nat) (mends : List Mend) :
    ((gather leaves i mends).filter (!·.skipped)).map (·.index) = (gather matched i mends).map (·.1) := by
  induction mends generalizing i with
  | nil => rfl
  | cons m mends ih => simp only [gather, List.filter_append, List.map_append, ih, matched_leaves]

theorem accepts_gather_matched (i : Nat) {mends : List Mend} (valid : ∀ m ∈ mends, m.Valid g) :
    List.Forall₂ (fun x u => g.accepts u x = true) (((gather leaves i mends).filter (!·.skipped)).map (·.token))
      ((gather matched i mends).map (·.2)) := by
  induction mends generalizing i with
  | nil => exact .nil
  | cons m mends ih =>
    obtain ⟨good, goods⟩ := List.forall_mem_cons.mp valid
    simp only [gather, List.filter_append, List.map_append]
    exact List.rel_append (good.matched i) (ih _ goods)

/-- Insertions and met usages, each at its position, are the usages of the mends. -/
theorem weave_gather (i : Nat) (mends : List Mend) :
    weave i (mends.flatMap (·.tokens)).length ((gather insertions i mends).map fun x => (x.position, x.usage))
      (gather matched i mends) = mends.map (·.usage) := by
  induction mends generalizing i with
  | nil => rfl
  | cons m mends ih =>
    cases m with
    | assumed u => exact weave_inserted.trans (congrArg (u :: ·) (ih i))
    | met u skipped x =>
      have later : ∀ y ∈ (gather insertions (i + (skipped.length + 1)) mends).map fun y => (y.position, y.usage),
          i + skipped.length < y.1 := by
        rw [List.forall_mem_map]
        exact le_of_mem_gather insertion_place
      have later' : ∀ y ∈ gather matched (i + (skipped.length + 1)) mends, i + skipped.length < y.1 :=
        le_of_mem_gather matched_place
      have width : (met u skipped x).tokens.length = skipped.length + 1 := List.length_append
      rw [List.flatMap_cons, List.length_append, gather, gather, width]
      exact (weave_skipped_standing later later').trans (congrArg (u :: ·) (ih _))

end Mend

namespace Grammar

variable {s t : Grammar} {input : List Token} {tree : Tree}

/-- What a tree of an input comes to in a fault-tolerant grammar, by the rules and groups of its strict twin. -/
structure Repairs (s t : Grammar) (start : RuleId) (input : List Token) (tree : Tree) : Prop where
  tokens : tree.tokens.map (·.token) = input
  cost : tree.penalty = .ofNat ((tree.tokens.filter (·.skipped)).length + (tree.insertions t).length)
  spells : s.Spells [.rule start] (tree.usages t)
  /-- Usages are met by the tokens that are not skipped, or else they are assumed. -/
  woven : ∃ met, List.Forall₂ (fun x u => s.accepts u x = true) tree.matchedTokens met ∧
    tree.usages t = tree.interleave t ((tree.insertions t).map (·.usage)) met

/-- The trees of a fault-tolerant grammar show repairs. -/
theorem Mirrors.repairs (h : Mirrors (· = 0) s t) {start : RuleId} (starts : t.start = some start)
    (isTree : t.IsTree start input tree) : Repairs s t (t.strictId start) input tree := by
  obtain ⟨mends, reads⟩ := h.reads_tree starts isTree
  have usages : tree.usages t = mends.map (·.usage) := by simpa using reads.usages
  have leaves : tree.tokens = Mend.gather Mend.leaves 0 mends := by simpa [Tree.tokens_eq] using reads.leaves
  have insertions : tree.insertions t = Mend.gather Mend.insertions 0 mends := by simpa using reads.insertions
  refine ⟨?_, ?_, ?_, (Mend.gather Mend.matched 0 mends).map (·.2), ?_, ?_⟩
  · rw [leaves, Mend.token_gather_leaves, reads.tokens]
    simp [slice]
  · rw [leaves, insertions, ← Mend.total_cost_eq]
    exact reads.cost
  · rw [usages, ← h.unwrap_start starts]
    exact reads.spells
  · rw [Tree.matchedTokens, leaves]
    simpa only [accepts_congr h.sets] using Mend.accepts_gather_matched 0 reads.valid
  · rw [usages, ← Mend.weave_gather 0, Tree.interleave, leaves, insertions, Mend.length_gather_leaves,
      Mend.index_gather_leaves, List.zip_map', List.zip_map']
    simp

variable {start : RuleId} {inserted : List Token}

/-- With accepted tokens in the place of those that are assumed, a repaired input derives from the start rule. -/
theorem Repairs.derives (h : Repairs s t start input tree)
    (accepted : List.Forall₂ (fun new x => s.accepts x.usage new = true) inserted (tree.insertions t)) :
    ∃ cost, s.Derives [.rule start] (tree.repaired t inserted) cost := by
  obtain ⟨met, matched, woven⟩ := h.woven
  apply h.spells.derives
  rw [woven]
  exact forall₂_weave (List.forall₂_map_right_iff.mpr accepted) matched

/-- A repaired input holds the end of the input no more than its parts do. -/
theorem Repairs.plain (h : Repairs s t start input tree) (plain : ∀ x ∈ input, x.isFinish = false)
    (plain' : ∀ x ∈ inserted, x.isFinish = false) : ∀ x ∈ tree.repaired t inserted, x.isFinish = false := by
  intro x member
  rcases mem_of_mem_weave member with new | old
  · exact plain' x new
  · obtain ⟨leaf, inside, rfl⟩ := List.mem_map.mp old
    apply plain
    rw [← h.tokens]
    exact List.mem_map_of_mem (List.mem_of_mem_filter inside)

end Grammar

namespace Parser

open Grammar Chart Forest

/-- A run accepts whatever derives from the start rule. -/
theorem run_accepts_of_derives {p : Parser} {start : RuleId} {tokens : List Token} {cost : Penalty}
    (reachable : Reachable p.grammar) (fresh : p.states = #[]) (starts : p.grammar.start = some start)
    (plain : ∀ t ∈ tokens, t.isFinish = false) (derives : p.grammar.Derives [.rule start] tokens cost) :
    ∃ outcome p', (run tokens).run p = .ok outcome p' ∧ outcome.accepted = true := by
  obtain ⟨t, tree, -⟩ := derives_iff_isTree.mp derives
  have ran := run_eq p tokens fresh starts
  refine ⟨_, _, ran, (accepted_iff_exists_isTree reachable fresh starts ran).mpr ⟨t, ?_⟩⟩
  rwa [takeWhile_eq_self plain]

theorem isTree_of_returned {p p' : Parser} {start : RuleId} {tokens : List Token} {outcome : Recognition}
    (reachable : Reachable p.grammar) (fresh : p.states = #[]) (starts : p.grammar.start = some start)
    (ran : (run tokens).run p = .ok outcome p') {config : Config} {t : Tree}
    (returned : { p' with config := config }.bestTree = some t ∨ t ∈ { p' with config := config }.forest) :
    p.grammar.IsTree start (tokens.takeWhile (!·.isFinish)) t := by
  obtain ⟨limit, member⟩ : ∃ limit, t ∈ { p' with config := config }.cheapestTrees limit := by
    rcases returned with best | inside
    · exact ⟨1, List.mem_of_mem_head? best⟩
    · exact ⟨_, inside⟩
  rcases cheapestTrees_cases reachable fresh starts ran config limit with ⟨none, -⟩ | ⟨-, -, best⟩
  · simp [none] at member
  · obtain ⟨t', same, tree, -⟩ := best.ok _ (List.mem_map_of_mem member)
    rwa [Stem.single_inj same]

/-- Every tree that a fault-tolerant grammar returns costs one for each skipped token and each insertion. Without the
skipped tokens, and with an accepted token for each insertion, the input derives from the start rule of the strict
twin, so that a run of the strict twin accepts it. -/
theorem returned_repairs (s : Grammar) (p : Parser) (start : RuleId) (tokens : List Token)
    (twins : Twins s p.grammar) (fresh : p.states = #[]) (starts : p.grammar.start = some start) :
    s.start = some (p.grammar.strictId start) ∧ ∃ outcome p', (run tokens).run p = .ok outcome p' ∧
      ∀ (config : Config) (t : Tree),
        { p' with config := config }.bestTree = some t ∨ t ∈ { p' with config := config }.forest →
        Repairs s p.grammar (p.grammar.strictId start) (tokens.takeWhile (!·.isFinish)) t ∧
        ∀ inserted, List.Forall₂ (fun new x => s.accepts x.usage new = true) inserted (t.insertions p.grammar) →
          (∃ cost, s.Derives [.rule (p.grammar.strictId start)] (t.repaired p.grammar inserted) cost) ∧
          ((∀ x ∈ inserted, x.isFinish = false) → ∀ q : Parser, q.grammar = s → q.states = #[] →
            ∃ outcome q', (run (t.repaired p.grammar inserted)).run q = .ok outcome q' ∧ outcome.accepted = true) := by
  have mirrors := twins.mirrors
  have starts' : s.start = some (p.grammar.strictId start) := by rw [mirrors.start, starts]; rfl
  have ran := run_eq p tokens fresh starts
  refine ⟨starts', _, _, ran, fun config t returned => ?_⟩
  have repairs := mirrors.repairs starts (isTree_of_returned twins.reachable.2 fresh starts ran returned)
  refine ⟨repairs, fun inserted accepted => ⟨repairs.derives accepted, ?_⟩⟩
  rintro plain' q rfl fresh'
  obtain ⟨cost, derives⟩ := repairs.derives accepted
  have plain : ∀ x ∈ tokens.takeWhile (!·.isFinish), x.isFinish = false := fun x member => by
    simpa using List.mem_takeWhile_imp member
  exact run_accepts_of_derives twins.reachable.1 fresh' starts' (repairs.plain plain plain') derives

def skippedTree : Tree :=
  .node (.rule ⟨2⟩ (some 0)) ⟨0, 2⟩ 1 [.node (.rule ⟨3⟩ (some 1)) ⟨0, 2⟩ 1
    [.node (.rule ⟨0⟩ (some 0)) ⟨0, 1⟩ 1 [.leaf (.ofChar 'b') 0], .leaf (.ofChar 'a') 1]]

theorem run_letterGrammar_skips :
    ∃ outcome p', (run [.ofChar 'b', .ofChar 'a']).run (.new (letterGrammar true) {}) = .ok outcome p' ∧
      outcome.accepted = true ∧ p'.bestTree = some skippedTree :=
  ⟨_, _, run_eq (.new (letterGrammar true) {}) _ rfl letterGrammar_start, by decide +kernel, by decide +kernel⟩

theorem returned_letterGrammar_repairs :
    ∃ outcome p', (run [.ofChar 'b', .ofChar 'a']).run (.new (letterGrammar true) {}) = .ok outcome p' ∧
      p'.bestTree = some skippedTree ∧
      Repairs (letterGrammar false) (letterGrammar true) ((letterGrammar true).strictId ⟨2⟩)
        [.ofChar 'b', .ofChar 'a'] skippedTree := by
  obtain ⟨-, outcome, p', ran, repairs⟩ := returned_repairs (letterGrammar false) (.new (letterGrammar true) {}) ⟨2⟩
    [.ofChar 'b', .ofChar 'a'] letterGrammar_twins rfl letterGrammar_start
  have ran' := run_eq (.new (letterGrammar true) {}) [.ofChar 'b', .ofChar 'a'] rfl letterGrammar_start
  have best : p'.bestTree = some skippedTree := by
    cases ran.symm.trans ran'
    decide +kernel
  exact ⟨outcome, p', ran, best, (repairs p'.config skippedTree (.inl best)).1⟩

end Parser

end Earley
