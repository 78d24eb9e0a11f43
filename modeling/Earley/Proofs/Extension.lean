import Earley.Proofs.Analysis
import Earley.Proofs.Interning
import Earley.Proofs.RepairSoundness

/-!
# Grammars that get more productions

A rule that has productions may get another one: what a tree refers to stays where it is (`Grammar.Enriches`), so all
trees stay trees. A rule without productions derives nothing, which its first production may take away, so rules of that
kind have to stay as they are. With more trees nothing gets dearer, neither what derives nothing nor the best tree of an
input (`addProduction_monotone`).
-/

namespace Earley

/-- With more to choose from, the cheapest cost does not rise. -/
theorem IsCheapest.exists_le {costs costs' : Set Penalty} {old new : Option Penalty} {c : Penalty}
    (h : IsCheapest costs old) (h' : IsCheapest costs' new) (more : costs ⊆ costs') (known : old = some c) :
    ∃ c', new = some c' ∧ c' ≤ c := by
  subst known
  have member : c ∈ costs' := more h.1
  cases new with
  | none => exact absurd member (h' ▸ Set.notMem_empty c)
  | some c' => exact ⟨c', rfl, h'.2 member⟩

namespace Grammar

variable {g g' g'' : Grammar}

/-- What `g'` keeps of `g` when rules that have productions get others behind them: all that a tree refers to. -/
structure Enriches (g g' : Grammar) : Prop where
  rule : ∀ {r d}, g.rule? r = some d → ∃ d', g'.rule? r = some d' ∧ d.productions <+: d'.productions ∧
    (d.productions = [] → d'.productions = []) ∧ d'.penalty = d.penalty
  group : ∀ {k d}, g.group? k = some d →
    ∃ d', g'.group? k = some d' ∧ d'.production = d.production ∧ d'.min = d.min ∧ d'.max = d.max
  accepts : ∀ {u t}, g.accepts u t = true → g'.accepts u t = true

theorem Within.enriches (h : Within g g') : Enriches g g' where
  rule known := by
    obtain ⟨d', known', same, cost⟩ := h.rule known
    exact ⟨d', known', by rw [same], fun childless => same.trans childless, cost⟩
  group := h.group
  accepts := h.accepts

theorem Enriches.trans (h : Enriches g g') (k : Enriches g' g'') : Enriches g g'' where
  rule known := by
    obtain ⟨d', known', first, bare, cost⟩ := h.rule known
    obtain ⟨d'', known'', second, bare', cost'⟩ := k.rule known'
    exact ⟨d'', known'', first.trans second, fun childless => bare' (bare childless), cost'.trans cost⟩
  group known := by
    obtain ⟨d', known', same, least, most⟩ := h.group known
    obtain ⟨d'', known'', same', least', most'⟩ := k.group known'
    exact ⟨d'', known'', same'.trans same, least'.trans least, most'.trans most⟩
  accepts accepted := k.accepts (h.accepts accepted)

/-- Wrappers that are made on the way are new rules, to which nothing refers yet. -/
theorem within_stored {ss : List Symbol} {p : Production} (stored : Build.Stored ss g p g') : Within g g' where
  rule known := ⟨_, stored.rule? known, rfl, rfl⟩
  group {k d} known := ⟨d, by rwa [group?, stored.groups], rfl, rfl, rfl⟩
  accepts accepted := by rwa [accepts_congr stored.sets]

theorem enriches_withProduction {r : RuleId} (p : Production) (present : g.productions r ≠ []) :
    Enriches g (g.mapRule r (.withProduction p)) where
  rule {s d} known := by
    rw [rule?_mapRule, known]
    split
    case isTrue same =>
      obtain rfl : r = s := by cases r; cases s; simpa using same
      rw [productions, known] at present
      exact ⟨_, rfl, List.prefix_append .., fun childless => absurd childless present, rfl⟩
    case isFalse => exact ⟨d, rfl, List.prefix_rfl, id, rfl⟩
  group known := ⟨_, known, rfl, rfl, rfl⟩
  accepts accepted := by rwa [accepts_congr rfl]

/-- A tree keeps its place in the grammar, and its penalty. -/
theorem Parses.enriched (more : Enriches g g') {input : List Token} {ps : List Part} {i j : Nat} {ts : List Tree}
    {p : Penalty} (h : g.Parses input ps i j ts p) : g'.Parses input ps i j ts p := by
  induction h with
  | nil => exact .nil
  | empty _ ih => exact .empty ih
  | usage found accepted _ ih => exact .usage found (more.accepts accepted) ih
  | rule known chosen _ _ inner rest =>
    obtain ⟨d', known', ⟨others, same⟩, -, cost⟩ := more.rule known
    rw [← cost]
    refine .rule known' ?_ inner rest
    rwa [← same, List.getElem?_append_left (List.getElem?_eq_some_iff.mp chosen).1]
  | bare known childless _ ih =>
    obtain ⟨d', known', -, bare, cost⟩ := more.rule known
    rw [← cost]
    exact .bare known' (bare childless) ih
  | group known admitted _ _ inner rest =>
    obtain ⟨d', known', -, least, most⟩ := more.group known
    exact .group known' ((GroupDef.admits_congr least most _).mpr admitted) inner rest
  | iteration known _ _ inner rest =>
    obtain ⟨d', known', same, -, -⟩ := more.group known
    exact .iteration known' (same ▸ inner) rest

theorem Derives.enriched (more : Enriches g g') {ss : List Symbol} {ts : List Token} {p : Penalty}
    (h : g.Derives ss ts p) : g'.Derives ss ts p := by
  obtain ⟨us, parsed⟩ := h.parses ts 0 fun here => by rwa [Nat.zero_add]
  have derived := (parsed.enriched more).derives
  simpa [flatMap_symbols, slice] using derived

section NullCosts

variable (more : Enriches g g') (reachable : Reachable g) (reachable' : Reachable g')

include more reachable reachable'

/-- A rule that derives nothing goes on to do so, and gets no dearer. -/
theorem Enriches.nullPenalty_rule {r : RuleId} {d d' : RuleDef} (known : g.rule? r = some d)
    (known' : g'.rule? r = some d') {c : Penalty} (cost : d.nullPenalty = some c) :
    ∃ c', d'.nullPenalty = some c' ∧ c' ≤ c := by
  refine (reachable.analyzed.isCheapest_rule known).exists_le (reachable'.analyzed.isCheapest_rule known') ?_ cost
  exact fun _ derived => derived.enriched more

theorem Enriches.nullPenalty_group {k : GroupId} {d d' : GroupDef} (known : g.group? k = some d)
    (known' : g'.group? k = some d') {c : Penalty} (cost : d.nullPenalty = some c) :
    ∃ c', d'.nullPenalty = some c' ∧ c' ≤ c := by
  refine (reachable.analyzed.isCheapest_group known).exists_le (reachable'.analyzed.isCheapest_group known') ?_ cost
  exact fun _ derived => derived.enriched more

theorem Enriches.nullable_rule {r : RuleId} {d d' : RuleDef} (known : g.rule? r = some d)
    (known' : g'.rule? r = some d') (nullable : d.nullable = true) : d'.nullable = true := by
  rw [reachable.flagged.rule known] at nullable
  obtain ⟨c, cost⟩ := Option.isSome_iff_exists.mp nullable
  obtain ⟨c', cost', -⟩ := more.nullPenalty_rule reachable reachable' known known' cost
  rw [reachable'.flagged.rule known', cost', Option.isSome_some]

theorem Enriches.nullable_group {k : GroupId} {d d' : GroupDef} (known : g.group? k = some d)
    (known' : g'.group? k = some d') (nullable : d.nullable = true) : d'.nullable = true := by
  rw [(reachable.flagged.group known).1] at nullable
  obtain ⟨c, cost⟩ := Option.isSome_iff_exists.mp nullable
  obtain ⟨c', cost', -⟩ := more.nullPenalty_group reachable reachable' known known' cost
  rw [(reachable'.flagged.group known').1, cost', Option.isSome_some]

theorem Enriches.productionNullable {k : GroupId} {d d' : GroupDef} (known : g.group? k = some d)
    (known' : g'.group? k = some d') (nullable : d.productionNullable = true) : d'.productionNullable = true := by
  obtain ⟨e, found, same, -, -⟩ := more.group known
  cases found.symm.trans known'
  rw [(reachable.flagged.group known).2, reachable.analyzed.isSome_production_iff] at nullable
  obtain ⟨c, derived⟩ := nullable
  rw [(reachable'.flagged.group known').2, reachable'.analyzed.isSome_production_iff, same]
  exact ⟨c, derived.enriched more⟩

end NullCosts

end Grammar

namespace Build

open Grammar

theorem Stored.start {ss : List Symbol} {g g' : Grammar} {p : Production} (stored : Stored ss g p g') :
    g'.start = g.start := by
  induction stored with
  | nil => rfl
  | plain _ _ ih => exact ih
  | found _ _ _ ih => exact ih
  | made _ _ _ ih => exact ih

/-- A further production of a rule leaves the others, and all trees, where they are. -/
theorem enriches_addProduction {g g' : Grammar} {r : RuleId} {ss : List Symbol} (present : g.productions r ≠ [])
    (added : (addProduction r ss).run g = .ok () g') : Enriches g g' ∧ g'.start = g.start := by
  rcases run_addProduction r ss g with ⟨held, -, p, h, stored, run⟩ | ⟨-, e, run⟩
  · cases run.symm.trans added
    obtain ⟨d, known⟩ := rule?_of_lt held
    have still : h.productions r ≠ [] := by rwa [productions, stored.rule? known, ← known]
    refine ⟨?_, stored.start⟩
    have appended := (within_stored stored).enriches.trans (enriches_withProduction p still)
    exact appended.trans (within_reanalyze _).enriches
  · cases run.symm.trans added

end Build

namespace Parser

open Grammar

/-- A rule that has productions may get another one, in a strict grammar as in a fault-tolerant one. Then all that
derives nothing goes on to do so at no higher cost, and every tree is one still. A parser that is reset and reads an
input again accepts it if it did before, and its best tree costs no more than the one before. -/
theorem addProduction_monotone (g g' : Grammar) (r : RuleId) (ss : List Symbol) (reachable : Reachable g)
    (present : g.productions r ≠ []) (added : (Build.addProduction r ss).run g = .ok () g') :
    (∀ s d, g.rule? s = some d → ∃ d', g'.rule? s = some d' ∧ (d.nullable = true → d'.nullable = true) ∧
      ∀ c, d.nullPenalty = some c → ∃ c', d'.nullPenalty = some c' ∧ c' ≤ c) ∧
    (∀ k d, g.group? k = some d → ∃ d', g'.group? k = some d' ∧ (d.nullable = true → d'.nullable = true) ∧
      (d.productionNullable = true → d'.productionNullable = true) ∧
      ∀ c, d.nullPenalty = some c → ∃ c', d'.nullPenalty = some c' ∧ c' ≤ c) ∧
    (∀ input parts i j ts c, g.Parses input parts i j ts c → g'.Parses input parts i j ts c) ∧
    ∀ (p q : Parser) (tokens : List Token) (outcome : Recognition), p.grammar = g →
      (run tokens).run p = .ok outcome q → outcome.accepted = true →
      ∃ outcome' q', (run tokens).run (q.reset g') = .ok outcome' q' ∧ outcome'.accepted = true ∧
        ∀ (config config' : Config) (t : Tree), config'.maxPenalty = config.maxPenalty →
          { q with config := config }.bestTree = some t →
          ∃ t', { q' with config := config' }.bestTree = some t' ∧ t'.penalty ≤ t.penalty := by
  obtain ⟨more, start_eq⟩ := Build.enriches_addProduction present added
  have reachable' : Reachable g' := (Later.of_run (.addProduction r ss) rfl added).reachable reachable
  refine ⟨fun s d known => ?_, fun k d known => ?_, fun _ _ _ _ _ _ parsed => parsed.enriched more, ?_⟩
  · obtain ⟨d', known', -⟩ := more.rule known
    refine ⟨d', known', more.nullable_rule reachable reachable' known known', fun c cost => ?_⟩
    exact more.nullPenalty_rule reachable reachable' known known' cost
  · obtain ⟨d', known', -⟩ := more.group known
    refine ⟨d', known', more.nullable_group reachable reachable' known known',
      more.productionNullable reachable reachable' known known', fun c cost => ?_⟩
    exact more.nullPenalty_group reachable reachable' known known' cost
  · rintro p q tokens outcome rfl ran accepted
    obtain ⟨fresh, start, starts⟩ := exists_start_of_run ran
    have starts' : (q.reset g').grammar.start = some start := start_eq.trans starts
    have ran' := run_eq (q.reset g') tokens rfl starts'
    obtain ⟨tree, isTree⟩ := (accepted_iff_exists_isTree reachable fresh starts ran).mp accepted
    refine ⟨_, _, ran', ?_, fun config config' t same best => ?_⟩
    · exact (accepted_iff_exists_isTree reachable' rfl starts' ran').mpr ⟨tree, isTree.enriched more⟩
    -- The old best tree is a tree of the new grammar, which has one that costs no more.
    have returned := isTree_of_returned reachable fresh starts ran (.inl best)
    have cheap : t.penalty ≤ config'.maxPenalty := by
      rcases bestTree_cases reachable fresh starts ran config with ⟨none, -⟩ | ⟨u, some, -, cheap, -⟩
      · cases none.symm.trans best
      · cases some.symm.trans best
        rwa [same]
    exact exists_bestTree_le reachable' rfl starts' ran' (returned.enriched more) cheap

/-- Once any token may stand before the letter, which takes a wrapper of its own, the tree that skips one is still
there, and the best one costs no more. -/
theorem letterGrammar_addProduction_monotone :
    ∃ g', (Build.addProduction ⟨2⟩ [.usage .any, .usage (.terminal (.ofChar 'a'))]).run (letterGrammar true) =
        .ok () g' ∧
      (∃ d' c', g'.rule? ⟨2⟩ = some d' ∧ d'.nullPenalty = some c' ∧ c' ≤ 1) ∧
      g'.IsTree ⟨2⟩ [.ofChar 'b', .ofChar 'a'] skippedTree ∧
      ∃ outcome q, (run [.ofChar 'b', .ofChar 'a']).run (.new (letterGrammar true) {}) = .ok outcome q ∧
        ∃ outcome' q', (run [.ofChar 'b', .ofChar 'a']).run (q.reset g') = .ok outcome' q' ∧
          outcome'.accepted = true ∧ ∃ t', { q' with config := q.config }.bestTree = some t' ∧
            t'.penalty ≤ 1 := by
  have reachable : Reachable (letterGrammar true) := letterGrammar_twins.reachable.2
  have held : 2 < (letterGrammar true).rules.size := by decide +kernel
  have present : (letterGrammar true).productions ⟨2⟩ ≠ [] := by decide +kernel
  rcases Build.run_addProduction ⟨2⟩ [.usage .any, .usage (.terminal (.ofChar 'a'))] (letterGrammar true)
    with ⟨-, -, p, h, -, added⟩ | ⟨refused, -⟩
  · obtain ⟨rules, -, trees, runs⟩ := addProduction_monotone _ _ ⟨2⟩ _ reachable present added
    obtain ⟨outcome, q, ran, accepted, best⟩ := run_letterGrammar_skips
    have cost : ((letterGrammar true).rule? ⟨2⟩).map (·.nullPenalty) = some (some 1) := by decide +kernel
    obtain ⟨d, known, one⟩ := Option.map_eq_some_iff.mp cost
    obtain ⟨d', known', -, cheaper⟩ := rules ⟨2⟩ d known
    obtain ⟨c', cost', le⟩ := cheaper 1 one
    obtain ⟨outcome', q', ran', accepted', best'⟩ := runs _ _ _ _ rfl ran accepted
    have tree : (letterGrammar true).IsTree ⟨2⟩ [.ofChar 'b', .ofChar 'a'] skippedTree :=
      isTree_of_returned reachable rfl letterGrammar_start ran (.inl best)
    exact ⟨_, added, ⟨d', c', known', cost', le⟩, trees _ _ _ _ _ _ tree, _, _, ran, outcome', q', ran', accepted',
      best' q.config q.config skippedTree rfl best⟩
  · exact absurd ⟨held, by simp [Symbol.InScope]⟩ refused

end Parser

end Earley
