import Earley.Proofs.Collapse
import Earley.Proofs.ForestExactness

/-!
# Forests of trees that need no repair

A fault-tolerant grammar means at no cost what its strict counterpart means: an input has a tree that costs nothing in
one just when it has in the other, and the forests of such trees correspond.
-/

namespace Earley

namespace Grammar

variable {P : Penalty → Prop} {s t : Grammar} {input : List Token}

/-- What derives tokens for nothing does so in the strict grammar. -/
theorem Mirrors.derives_free (h : Mirrors P s t) {xs : List Symbol} {ts : List Token} (derived : t.Derives xs ts 0)
    (own : ∀ x ∈ xs, x.Own) : s.Derives (xs.map t.unwrap) ts 0 := by
  obtain ⟨us, parsed⟩ := derived.parses ts 0 fun here => by rwa [Nat.zero_add]
  have strict := (h.collapse_parses parsed rfl (own_symbols own)).1.derives
  rw [map_unwrapPart_symbols, flatMap_symbols, Nat.zero_add, slice, List.take_length, List.drop_zero] at strict
  exact strict

/-- The part that a free context stands around is made by the grammar itself, or the strict grammar has the parts in
such a context as well. -/
theorem Mirrors.encloses_free (h : Mirrors P s t) {a b : Part} {c : Penalty} (encloses : t.Encloses a b c)
    (free : c = 0) : a.Own ∧ (b.Own → s.Encloses (t.unwrapPart a) (t.unwrapPart b) 0) := by
  induction encloses with
  | @rule r d before after x p q known chosen left right =>
    obtain ⟨around, unpriced⟩ := Penalty.add_eq_zero_iff.mp free
    obtain ⟨rfl, rfl⟩ := Penalty.add_eq_zero_iff.mp around
    have above : 2 ≤ r.index := by
      obtain ⟨e, skip, -, cost, -⟩ := h.wrapped.skip
      obtain ⟨e', assume, -, cost', -⟩ := h.wrapped.assume
      obtain ⟨_ | _ | i⟩ := r
      · cases known.symm.trans skip
        rw [unpriced] at cost
        cases cost
      · cases known.symm.trans assume
        rw [unpriced] at cost'
        cases cost'
      · exact Nat.le_add_left 2 i
    refine ⟨above, fun own => ?_⟩
    cases mark : d.tolerantFor with
    | some u =>
      -- A wrapper mentions its usage and the rules that repairs are made of.
      rw [(h.wrapped.wrapper known mark).2.2] at chosen
      have foreign : ∀ p ∈ [[.usage u], [.rule skipRule, .usage u], [.rule assumeRule]], ∀ y ∈ p, ¬ Symbol.Own y := by
        simp [Symbol.Own, skipRule, assumeRule]
      exact absurd own (foreign _ chosen x (by simp))
    | none =>
      obtain ⟨-, clean⟩ := h.wrapped.rule known mark above
      obtain ⟨d', found, cost, productions⟩ := h.rule known mark
      have mine := clean _ chosen
      have left' := h.derives_free left fun y member => mine y (by simp [member])
      have right' := h.derives_free right fun y member => mine y (by simp [member])
      have chosen' : before.map t.unwrap ++ t.unwrap x :: after.map t.unwrap ∈ d'.productions := by
        rw [productions, ← List.map_cons, ← List.map_append]
        exact List.mem_map_of_mem chosen
      have whole := Encloses.rule found chosen' left' right'
      rw [unwrapPart_plain ((wrappedUsage?_of_known known).trans mark)]
      rwa [cost, unpriced] at whole
  | @group k d m n p q known admitted left right =>
    obtain ⟨rfl, rfl⟩ := Penalty.add_eq_zero_iff.mp free
    obtain ⟨d', found, least, most, production⟩ := h.group known
    have left' := h.derives_free left (forall_mem_copies (h.wrapped.group known) m)
    have right' := h.derives_free right (forall_mem_copies (h.wrapped.group known) n)
    rw [map_copies, ← production] at left' right'
    exact ⟨trivial, fun _ => .group found ((GroupDef.admits_congr least most _).mpr admitted) left' right'⟩
  | @iteration k d before after x p q known split left right =>
    obtain ⟨rfl, rfl⟩ := Penalty.add_eq_zero_iff.mp free
    obtain ⟨d', found, -, -, production⟩ := h.group known
    have mine := h.wrapped.group known
    rw [split] at mine production
    rw [List.map_append, List.map_cons] at production
    have left' := h.derives_free left fun y member => mine y (by simp [member])
    have right' := h.derives_free right fun y member => mine y (by simp [member])
    exact ⟨trivial, fun _ => .iteration found production left' right'⟩
  | trans _ _ outer inner =>
    obtain ⟨rfl, rfl⟩ := Penalty.add_eq_zero_iff.mp free
    obtain ⟨own, first⟩ := outer rfl
    obtain ⟨between, second⟩ := inner rfl
    exact ⟨own, fun last => .trans (first between) (second last)⟩

/-- Where no rule of the strict grammar derives itself for nothing, none of the fault-tolerant grammar does. -/
theorem Mirrors.dear (h : Mirrors P s t) (inScope : s.Scoped)
    (strict : ∀ r c, s.Encloses (.symbol (.rule r)) (.symbol (.rule r)) c → 0 < c) (r : RuleId) (c : Penalty)
    (cycle : t.Encloses (.symbol (.rule r)) (.symbol (.rule r)) c) : 0 < c := by
  by_contra cheap
  have free : c = 0 := Penalty.eq_zero_of_le (Nat.le_of_not_lt cheap)
  obtain ⟨own, back⟩ := h.encloses_free cycle free
  obtain ⟨r', cycle'⟩ := (back own).rule_of_cycle inScope
  exact absurd (strict r' 0 cycle') (Nat.lt_irrefl 0)

/-- Both grammars lack a start rule, or their start rules correspond. -/
theorem Mirrors.start_cases (h : Mirrors P s t) : (s.start = none ∧ t.start = none) ∨
    ∃ r, s.start = some (t.strictId r) ∧ t.start = some r ∧ 2 ≤ r.index ∧ t.wrappedUsage? r = none := by
  rw [h.start]
  cases starts : t.start with
  | none => exact .inl ⟨rfl, rfl⟩
  | some r => exact .inr ⟨r, rfl, rfl, h.wrapped.start starts⟩

section Trees

variable {r : RuleId}

/-- A tree that costs nothing is one of the strict grammar once it has lost its wrappers. -/
theorem Mirrors.isTree_collapse (h : Mirrors P s t) (above : 2 ≤ r.index) (plain : t.wrappedUsage? r = none) {x : Tree}
    (tree : t.IsTree r input x) (free : x.penalty = 0) :
    s.IsTree (t.strictId r) input (x.collapse t) ∧ x.Meets t := by
  obtain ⟨parsed, met⟩ := h.collapse_parses tree free (List.forall_mem_singleton.mpr above)
  have meets := met x (List.mem_singleton_self x)
  rw [List.map_singleton, unwrapPart_plain plain] at parsed
  refine ⟨?_, meets⟩
  rw [IsTree, (Tree.meets_iff.mp meets).1.collapse_span.2, free]
  exact parsed

theorem Mirrors.exists_isTree (h : Mirrors P s t) (above : 2 ≤ r.index) (plain : t.wrappedUsage? r = none) {y : Tree}
    (tree : s.IsTree (t.strictId r) input y) : ∃ x, t.IsTree r input x ∧ x.collapse t = y ∧ x.penalty = y.penalty := by
  have own : ∀ part ∈ [Part.symbol (.rule r)], part.Own := List.forall_mem_singleton.mpr above
  obtain ⟨ts, parsed, same⟩ := h.expand tree own (by rw [List.map_singleton, unwrapPart_plain plain])
  obtain ⟨x, rfl, cost⟩ := parsed.single_rule
  refine ⟨x, ?_, List.singleton_inj.mp same, cost⟩
  rw [IsTree, cost]
  exact parsed

/-- The canonical trees that cost nothing correspond. -/
theorem Mirrors.bijOn_collapse (h : Mirrors P s t) (input : List Token) (above : 2 ≤ r.index)
    (plain : t.wrappedUsage? r = none) :
    Set.BijOn (Tree.collapse t) (t.canonicalTrees r input 0) (s.canonicalTrees (t.strictId r) input 0) := by
  refine ⟨?_, ?_, ?_⟩
  · rintro x ⟨tree, canonical, cheap⟩
    obtain ⟨tree', met⟩ := h.isTree_collapse above plain tree (Penalty.eq_zero_of_le cheap)
    refine ⟨tree', (h.canonical_collapse_iff met).mpr canonical, ?_⟩
    rwa [(Tree.meets_iff.mp met).1.collapse_span.2]
  · rintro x ⟨tree, -, cheap⟩ y ⟨tree', -, cheap'⟩ same
    have equal := h.collapse_injective tree tree' (Penalty.eq_zero_of_le cheap) (Penalty.eq_zero_of_le cheap')
      (List.forall_mem_singleton.mpr above) (congrArg ([·]) same)
    exact List.singleton_inj.mp equal
  · rintro y ⟨tree, canonical, cheap⟩
    obtain ⟨x, tree', rfl, cost⟩ := h.exists_isTree above plain tree
    rw [← cost] at cheap
    have met := (h.isTree_collapse above plain tree' (Penalty.eq_zero_of_le cheap)).2
    exact ⟨x, ⟨tree', (h.canonical_collapse_iff met).mp canonical, cheap⟩, rfl⟩

end Trees

end Grammar

namespace Parser

def afterRun (p : Parser) (tokens : List Token) : Parser :=
  match (run tokens).run p with
  | .ok _ p' => p'
  | .error _ p' => p'

theorem afterRun_of_ok {p p' : Parser} {tokens : List Token} {outcome : Recognition}
    (ran : (run tokens).run p = .ok outcome p') : p.afterRun tokens = p' := by
  rw [afterRun, ran]

/-- A parser without a start rule has no trees after a run. -/
theorem cheapestTrees_afterRun_of_none {p : Parser} {tokens : List Token} (fresh : p.states = #[])
    (starts : p.grammar.start = none) (limit : Nat) : (p.afterRun tokens).cheapestTrees limit = [] := by
  rw [afterRun, run_eq_noStartRule p tokens fresh starts, cheapestTrees, starts]

/-- There is a best tree just when some derivation tree is cheap enough. -/
theorem isSome_bestTree_iff {p p' : Parser} {start : RuleId} {tokens : List Token} {outcome : Recognition}
    (reachable : Reachable p.grammar) (fresh : p.states = #[]) (starts : p.grammar.start = some start)
    (ran : (run tokens).run p = .ok outcome p') (config : Config) :
    { p' with config := config }.bestTree.isSome = true ↔
      ∃ t, p.grammar.IsTree start (tokens.takeWhile (!·.isFinish)) t ∧ t.penalty ≤ config.maxPenalty := by
  rcases bestTree_cases reachable fresh starts ran config with ⟨none, dear⟩ | ⟨t, some, tree, cheap, -⟩
  · rw [none]
    exact iff_of_false (by simp) fun ⟨u, tree, cheap⟩ => dear u tree cheap
  · rw [some]
    exact iff_of_true rfl ⟨t, tree, cheap⟩

/-- A forest with room left holds all canonical trees that are cheap enough. -/
theorem mem_forest_iff {p p' : Parser} {start : RuleId} {tokens : List Token} {outcome : Recognition}
    (reachable : Reachable p.grammar) (fresh : p.states = #[]) (starts : p.grammar.start = some start)
    (ran : (run tokens).run p = .ok outcome p') (config : Config)
    (dear : ∀ r c, p.grammar.Encloses (.symbol (.rule r)) (.symbol (.rule r)) c → config.maxPenalty < c)
    (room : { p' with config := config }.forest.length < config.maxTrees) :
    { p' with config := config }.forest.Nodup ∧ ∀ t, t ∈ { p' with config := config }.forest ↔
      t ∈ p.grammar.canonicalTrees start (tokens.takeWhile (!·.isFinish)) config.maxPenalty := by
  obtain ⟨distinct, -, inside, -, covers⟩ := forest_covers reachable fresh starts ran config dear
  refine ⟨distinct, fun t => ⟨inside t, fun member => (covers t member).resolve_right fun full => ?_⟩⟩
  have := full.1
  omega

open Grammar

section Counterparts

variable {p q : Parser} {tokens : List Token} (pair : Counterparts p.grammar q.grammar) (fresh : p.states = #[])
  (fresh' : q.states = #[]) (exact : p.config.maxPenalty = 0) (exact' : q.config.maxPenalty = 0)

include pair fresh fresh' exact exact'

theorem isSome_bestTree_correspond :
    (p.afterRun tokens).bestTree.isSome = true ↔ (q.afterRun tokens).bestTree.isSome = true := by
  have mirrors := pair.mirrors
  rcases mirrors.start_cases with ⟨none, none'⟩ | ⟨start, starts, starts', above, plain⟩
  · rw [bestTree, bestTree, cheapestTrees_afterRun_of_none fresh none, cheapestTrees_afterRun_of_none fresh' none']
  · have ran := run_eq p tokens fresh starts
    have ran' := run_eq q tokens fresh' starts'
    have left := isSome_bestTree_iff pair.reachable.1 fresh starts ran p.config
    have right := isSome_bestTree_iff pair.reachable.2 fresh' starts' ran' q.config
    rw [exact] at left
    rw [exact'] at right
    rw [afterRun_of_ok ran, afterRun_of_ok ran']
    refine left.trans (Iff.trans ⟨?_, ?_⟩ right.symm)
    · rintro ⟨y, tree, cheap⟩
      obtain ⟨x, tree', -, cost⟩ := mirrors.exists_isTree above plain tree
      exact ⟨x, tree', cost ▸ cheap⟩
    · rintro ⟨x, tree, cheap⟩
      have free : x.penalty = 0 := Penalty.eq_zero_of_le cheap
      obtain ⟨tree', met⟩ := mirrors.isTree_collapse above plain tree free
      exact ⟨x.collapse q.grammar, tree', by rwa [(Tree.meets_iff.mp met).1.collapse_span.2]⟩

theorem forest_correspond
    (dear : ∀ r c, p.grammar.Encloses (.symbol (.rule r)) (.symbol (.rule r)) c → 0 < c)
    (room : (p.afterRun tokens).forest.length < p.config.maxTrees)
    (room' : (q.afterRun tokens).forest.length < q.config.maxTrees) :
    (p.afterRun tokens).forest.Nodup ∧ (q.afterRun tokens).forest.Nodup ∧
      Set.BijOn (Tree.collapse q.grammar) { x | x ∈ (q.afterRun tokens).forest }
        { x | x ∈ (p.afterRun tokens).forest } := by
  have mirrors := pair.mirrors
  rcases mirrors.start_cases with ⟨none, none'⟩ | ⟨start, starts, starts', above, plain⟩
  · rw [forest, forest, cheapestTrees_afterRun_of_none fresh none, cheapestTrees_afterRun_of_none fresh' none']
    exact ⟨.nil, .nil, by simp⟩
  · have ran := run_eq p tokens fresh starts
    have ran' := run_eq q tokens fresh' starts'
    rw [afterRun_of_ok ran] at room ⊢
    rw [afterRun_of_ok ran'] at room' ⊢
    obtain ⟨distinct, whole⟩ := mem_forest_iff pair.reachable.1 fresh starts ran p.config
      (fun r c cycle => exact ▸ dear r c cycle) room
    obtain ⟨distinct', whole'⟩ := mem_forest_iff pair.reachable.2 fresh' starts' ran' q.config
      (fun r c cycle => exact' ▸ mirrors.dear pair.reachable.1.inScope dear r c cycle) room'
    rw [exact] at whole
    rw [exact'] at whole'
    refine ⟨distinct, distinct', ?_⟩
    have trees := mirrors.bijOn_collapse (tokens.takeWhile (!·.isFinish)) above plain
    rwa [← Set.ext whole, ← Set.ext whole'] at trees

end Counterparts

/-- A fault-tolerant grammar means at no cost what the strict grammar that the same calls lead to means. With parsers
that take no repairs, an input has a best tree on both sides or on none. Trees that cost nothing are trees of the strict
grammar once they have lost their wrappers, and all other nodes keep their spans and penalties. Where no rule of the
strict grammar derives itself for nothing, forests with room left correspond tree by tree. -/
theorem exact_trees_correspond (p q : Parser) (tokens : List Token) (pair : Counterparts p.grammar q.grammar)
    (fresh : p.states = #[]) (fresh' : q.states = #[]) (exact : p.config.maxPenalty = 0)
    (exact' : q.config.maxPenalty = 0) :
    let p' := p.afterRun tokens
    let q' := q.afterRun tokens
    p.grammar.start = q.grammar.start.map q.grammar.strictId ∧
    (p'.bestTree.isSome = true ↔ q'.bestTree.isSome = true) ∧
    (∀ r input x, ¬ q.grammar.Synthesized r → q.grammar.IsTree r input x → x.penalty = 0 →
      p.grammar.IsTree (q.grammar.strictId r) input (x.collapse q.grammar) ∧
      (x.collapse q.grammar).nodes.map (fun n => (n.span, n.penalty)) =
        (x.nodes.filter fun n => (n.wrapped? q.grammar).isNone).map fun n => (n.span, n.penalty)) ∧
    ((∀ r c, p.grammar.Encloses (.symbol (.rule r)) (.symbol (.rule r)) c → 0 < c) →
      p'.forest.length < p.config.maxTrees → q'.forest.length < q.config.maxTrees →
      p'.forest.Nodup ∧ q'.forest.Nodup ∧
        Set.BijOn (Tree.collapse q.grammar) { x | x ∈ q'.forest } { x | x ∈ p'.forest }) := by
  refine ⟨pair.mirrors.start, isSome_bestTree_correspond pair fresh fresh' exact exact', ?_,
    forest_correspond pair fresh fresh' exact exact'⟩
  intro r input x own tree free
  obtain ⟨tree', met⟩ := pair.mirrors.isTree_collapse (two_le_of_own own) (wrappedUsage?_of_own own) tree free
  exact ⟨tree', met.nodes_collapse⟩

theorem exact_trees_letterGrammar_correspond :
    let p' := (new (letterGrammar false) .exact).afterRun [.ofChar 'a']
    let q' := (new (letterGrammar true) .exact).afterRun [.ofChar 'a']
    p'.bestTree.isSome = true ∧ q'.bestTree.isSome = true ∧ q'.forest.length = 1 ∧
      Set.BijOn (Tree.collapse (letterGrammar true)) { x | x ∈ q'.forest } { x | x ∈ p'.forest } := by
  intro p' q'
  have single : p'.forest.length = 1 := by decide +kernel
  have single' : q'.forest.length = 1 := by decide +kernel
  have best : q'.bestTree.isSome = true := by decide +kernel
  obtain ⟨-, both, -, trees⟩ := exact_trees_correspond (.new (letterGrammar false) .exact)
    (.new (letterGrammar true) .exact) [.ofChar 'a'] letterGrammar_twins.counterparts rfl rfl rfl rfl
  refine ⟨both.mpr best, best, single', ?_⟩
  have dear := dear_of_levels (g := letterGrammar false) firstRuleLevel (by decide +kernel) (by decide +kernel)
  exact (trees dear (lt_of_eq_of_lt single (by decide)) (lt_of_eq_of_lt single' (by decide))).2.2

end Parser

end Earley
