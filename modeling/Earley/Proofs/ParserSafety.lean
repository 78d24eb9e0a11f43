import Earley.Parser.Checked
import Earley.Proofs.ForestChecked
import Earley.Proofs.ForestTrees

/-!
# Parsing never goes wrong

Whatever an author has done, every identifier in the tables of a grammar is one of an entry. So no call of a parser
reads what is not there, whichever calls came before, as long as the numbers that it has to write down fit.
-/

namespace Earley

namespace Parser

open Chart Forest

variable {fits : Nat → Bool} {p q : Parser}

/-- What a parser knows is nothing, or what a run over its grammar left behind. -/
inductive Known (p : Parser) : Prop where
  | nothing (fresh : p.states = #[]) (idle : p.outcome = none)
  | ran {start : RuleId} {tokens : List Token} (starts : p.grammar.start = some start)
      (states : p.states = (build p.grammar start tokens).1)
      (outcome : p.outcome =
        some (.ofStates p.grammar start (build p.grammar start tokens).1 (build p.grammar start tokens).2))

theorem Arises.known (h : p.Arises) : Reachable p.grammar ∧ p.Known := by
  induction h with
  | new built config => exact ⟨built, .nothing rfl rfl⟩
  | reset _ built _ => exact ⟨built, .nothing rfl rfl⟩
  | configure _ config ih =>
    obtain ⟨built, nothing | ran⟩ := ih
    · exact ⟨built, .nothing ‹_› ‹_›⟩
    · exact ⟨built, .ran ‹_› ‹_› ‹_›⟩
  | @run p q tokens outcome _ ran ih =>
    by_cases fresh : p.states = #[]
    · cases starts : p.grammar.start with
      | none =>
        rw [run_eq_noStartRule p tokens fresh starts] at ran
        cases ran
      | some start =>
        rw [run_eq p tokens fresh starts] at ran
        cases ran
        exact ⟨ih.1, .ran starts rfl rfl⟩
    · rw [run_eq_alreadyRun p tokens fresh] at ran
      cases ran

theorem Known.valid (known : p.Known) (built : Reachable p.grammar) : ∃ input, PastValid p.grammar input p.states := by
  cases known with
  | nothing fresh =>
    refine ⟨[], ?_⟩
    rw [fresh]
    exact ⟨by simp, by simp⟩
  | @ran start tokens _ states =>
    refine ⟨tokens.takeWhile (!·.isFinish), ?_⟩
    rw [states]
    exact (build_charted built.analyzed start tokens).1.valid

/-- The trees that are found are distinct derivation trees of one input. -/
theorem Known.trees (known : p.Known) (built : Reachable p.grammar) (limit : Nat) :
    (p.cheapestTrees limit).Nodup ∧ ∃ start input, ∀ t ∈ p.cheapestTrees limit, p.grammar.IsTree start input t := by
  cases known with
  | nothing _ idle =>
    have none : p.hasParse = false := by simp [hasParse, idle]
    have no : p.cheapestTrees limit = [] := by cases starts : p.grammar.start <;> simp [cheapestTrees, starts, none]
    rw [no]
    exact ⟨.nil, default, [], by simp⟩
  | @ran start tokens starts states outcome =>
    obtain ⟨g, config, _, _⟩ := p
    dsimp only at states outcome
    subst states outcome
    have ran := run_eq (.new g config) tokens rfl starts
    rcases cheapestTrees_cases (p := .new g config) built rfl starts ran config limit with ⟨none, -⟩ | ⟨-, -, best⟩
    · exact none ▸ ⟨.nil, start, [], by simp⟩
    · refine ⟨.of_map _ (.of_map _ best.distinct), start, tokens.takeWhile (!·.isFinish), fun t found => ?_⟩
      obtain ⟨t', same, tree, -⟩ := best.ok _ (List.mem_map_of_mem (f := Stem.single) found)
      obtain rfl := Stem.single_inj same
      exact tree

/-- No node of a tree that is found ends before it starts. -/
theorem span_ordered (built : Reachable p.grammar) (known : p.Known) {limit : Nat} {t n : Tree}
    (found : t ∈ p.cheapestTrees limit) (inside : n ∈ t.nodes) : n.span.start ≤ n.span.finish := by
  obtain ⟨-, start, input, trees⟩ := known.trees built limit
  exact (trees t found).span_ordered t (List.mem_cons_self ..) n inside

namespace Checked

theorem outcome_eq {g : Grammar} {start : RuleId} (known : start.index < g.rules.size) {states : Array State}
    (fit : ChartFits fits states) (failedAt : Option Nat) :
    outcome fits g start states failedAt = some (.ofStates g start states failedAt) := by
  cases failedAt with
  | some j => rfl
  | none =>
    simp only [outcome, Chart.Checked.acceptingRefs_eq fit, Chart.Checked.startsEmpty_eq known, Recognition.ofStates,
      Option.bind_eq_bind, Option.bind_some]
    cases (acceptingRefs states start).isEmpty <;> simp

theorem run_eq (built : Reachable p.grammar) (small : GrammarFits fits p.grammar) {tokens : List Token}
    (fit : ∀ outcome q, (Parser.run tokens).run p = .ok outcome q → ChartFits fits q.states) :
    run fits p tokens = some ((Parser.run tokens).run p) := by
  unfold run
  by_cases fresh : p.states = #[]
  · simp only [fresh]
    cases starts : p.grammar.start with
    | none =>
      rw [run_eq_noStartRule p tokens fresh starts]
      rfl
    | some start =>
      have known := built.inScope.start starts
      have ran := Parser.run_eq p tokens fresh starts
      have room := fit _ _ ran
      rw [ran]
      simp [Chart.Checked.build_eq small built.inScope built.analyzed known room, outcome_eq known room]
  · rw [run_eq_alreadyRun p tokens fresh]
    simp [fresh]

theorem cheapestTrees_eq (built : Reachable p.grammar) (known : p.Known) (fit : ChartFits fits p.states) (limit : Nat) :
    cheapestTrees fits p limit = some (p.cheapestTrees limit) := by
  unfold cheapestTrees Parser.cheapestTrees
  cases known with
  | nothing _ idle =>
    have none : p.hasParse = false := by simp [hasParse, idle]
    simp only [none]
    cases p.grammar.start <;> rfl
  | @ran start tokens starts states outcome =>
    have inTable := built.inScope.start starts
    have charted := (build_charted built.analyzed start tokens).1
    rw [← states] at charted
    let b : Source := ⟨p.grammar, p.states, max limit 1, p.config.maxPenalty⟩
    have valid : b.Valid start _ := ⟨charted, built.inScope, Nat.le_max_right limit 1⟩
    obtain ⟨first, begun, -⟩ := charted.begun
    have empty := Forest.Checked.emptyTrees_eq (r := start) valid fit
      ⟨(Array.getElem?_eq_some_iff.mp begun).1, inTable⟩
    have posed : ∀ ref ∈ acceptingRefs p.states start, Posed p.grammar p.states (.trees ref) := by
      intro ref member
      obtain ⟨item, found, -, -, done⟩ := mem_acceptingRefs.mp member
      exact ⟨item, _, found, done⟩
    have roots := Forest.Checked.treesOf_eq valid fit posed
    simp only [starts, Chart.Checked.startsEmpty_eq inTable, Chart.Checked.acceptingRefs_eq fit, Option.bind_eq_bind,
      Option.bind_some]
    split
    · rfl
    · split
      · exact empty
      · exact roots

/-- Where all of a list is found, so is what is read off it. -/
theorem exists_mapM {α β γ : Type} {find : α → Option β} (read : β → Option γ) {as : List α}
    (found : ∀ a ∈ as, ∃ b, find a = some b) :
    ∃ bs, as.mapM find = some bs ∧ bs.filterMap read = as.filterMap fun a => (find a).bind read := by
  induction as with
  | nil => exact ⟨[], rfl, rfl⟩
  | cons a as ih =>
    obtain ⟨⟨b, first⟩, others⟩ := List.forall_mem_cons.mp found
    obtain ⟨bs, rest, same⟩ := ih others
    refine ⟨b :: bs, by simp [first, rest], ?_⟩
    simp only [List.filterMap_cons, first, Option.bind_some, same]

theorem expected_eq {input : List Token} (valid : PastValid p.grammar input p.states) (j : Nat) :
    expected p j = some (p.expected j) := by
  unfold expected Parser.expected state
  cases found : p.states[j]? with
  | none => rfl
  | some s =>
    have scanners : ∀ i ∈ s.scanners.toList, ∃ item, s.items[i]? = some item := by
      intro i member
      obtain ⟨item, u, place, -⟩ := (valid.coherent found).mem_scanners.mp member
      exact ⟨item, place⟩
    obtain ⟨items, here, same⟩ := exists_mapM expectedBy scanners
    simp only [here, Option.bind_eq_bind, Option.bind_some, same]
    rfl

theorem symbolsOf_eq {g : Grammar} {owner : Owner} (known : owner.target.Known g) :
    symbolsOf g owner = some (g.symbolsOf owner) := by
  cases owner with
  | rule r n =>
    obtain ⟨d, found⟩ := Grammar.rule?_of_lt known
    simp [symbolsOf, Grammar.symbolsOf, Grammar.productions, found]
  | iteration k =>
    have found : g.group? k = _ := Array.getElem?_eq_getElem known
    simp [symbolsOf, Grammar.symbolsOf, found]
  | group k => rfl

theorem dumpState_eq {input : List Token} (valid : PastValid p.grammar input p.states) (names : Grammar) (j : Nat) :
    dumpState p names j = some (p.dumpState names j) := by
  unfold dumpState Parser.dumpState state
  cases found : p.states[j]? with
  | none => rfl
  | some s =>
    have owners : ∀ item ∈ s.items.toList, ∃ symbols, symbolsOf p.grammar item.key.owner = some symbols := by
      intro item member
      obtain ⟨i, place⟩ := List.mem_iff_getElem?.mp member
      exact ⟨_, symbolsOf_eq (valid.items found (by simpa using place)).key.known_owner⟩
    obtain ⟨symbols, here, -⟩ := exists_mapM (fun _ => (none : Option Unit)) owners
    simp only [here, Option.bind_eq_bind, Option.bind_some]
    rfl

end Checked

theorem Small.grammarFits {g : Grammar} (h : Small g) : GrammarFits word g where
  productions known n less := by
    have := (h.productions _ (Array.mem_of_getElem? known)).1
    simp only [word, decide_eq_true_eq]
    omega
  places known member n less := by
    have := (h.productions _ (Array.mem_of_getElem? known)).2 _ member
    simp only [word, decide_eq_true_eq]
    omega
  group known n less := by
    have := h.repetitions _ (Array.mem_of_getElem? known)
    simp only [word, decide_eq_true_eq]
    omega

theorem SmallChart.chartFits {states : Array State} (h : SmallChart states) : ChartFits word states where
  state j inside := by
    have := h.count
    simp only [word, decide_eq_true_eq]
    omega
  items found i inside := by
    have := h.items _ (Array.mem_of_getElem? found)
    simp only [word, decide_eq_true_eq]
    omega

/-- In a grammar that an author can build, every identifier is one of an entry. A parser over such a grammar, whatever
calls it has seen, does in every call what it does with every access and every number checked, and no node of a tree
that it returns ends before it starts. -/
theorem calls_never_fail :
    (∀ g, Reachable g → g.Closed) ∧ ∀ p : Parser, p.Arises → Small p.grammar →
      (∀ tokens, (∀ outcome q, (run tokens).run p = .ok outcome q → SmallChart q.states) →
        Checked.run word p tokens = some ((run tokens).run p)) ∧
      (SmallChart p.states →
        Checked.bestTree word p = some p.bestTree ∧ Checked.forest word p = some p.forest ∧
        (∀ j, Checked.expected p j = some (p.expected j)) ∧
        (∀ names j, Checked.dumpState p names j = some (p.dumpState names j)) ∧
        ∀ t, p.bestTree = some t ∨ t ∈ p.forest → ∀ n ∈ t.nodes, n.span.start ≤ n.span.finish) := by
  refine ⟨fun g reachable => reachable.closed, fun p arises small => ⟨fun tokens fit => ?_, fun fit => ?_⟩⟩
  · exact Checked.run_eq arises.known.1 small.grammarFits fun outcome q ran => (fit outcome q ran).chartFits
  · obtain ⟨built, known⟩ := arises.known
    obtain ⟨input, valid⟩ := known.valid built
    have trees (limit : Nat) := Checked.cheapestTrees_eq built known fit.chartFits limit
    refine ⟨by simp [Checked.bestTree, trees, bestTree], trees _, Checked.expected_eq valid,
      Checked.dumpState_eq valid, fun t returned n inside => ?_⟩
    rcases returned with best | member
    · exact span_ordered built known (List.mem_of_mem_head? best) inside
    · exact span_ordered built known member inside

/-- Recognition of a letter by a rule that derives itself, and the tree of it, with every access checked. -/
theorem calls_loopGrammar_never_fail :
    ∃ outcome q, (run [.ofChar 'a']).run (.new loopGrammar {}) = .ok outcome q ∧ q.forest ≠ [] ∧
      Checked.run word (.new loopGrammar {}) [.ofChar 'a'] = some (.ok outcome q) ∧
      Checked.forest word q = some q.forest ∧ Checked.dumpState q loopGrammar 1 = some (q.dumpState loopGrammar 1) := by
  have ran := run_eq (.new loopGrammar {}) [.ofChar 'a'] rfl loopGrammar_start
  have small : Small loopGrammar := ⟨by decide +kernel, by decide +kernel⟩
  have chart : SmallChart (build loopGrammar ⟨2⟩ [.ofChar 'a']).1 := ⟨by decide +kernel, by decide +kernel⟩
  have arises : Arises (.new loopGrammar {}) := .new loopGrammar_reachable {}
  have first := (calls_never_fail.2 _ arises small).1 [.ofChar 'a'] fun outcome q other => by
    cases ran.symm.trans other
    exact chart
  obtain ⟨-, forest, -, dump, -⟩ := (calls_never_fail.2 _ (arises.run ran) small).2 chart
  exact ⟨_, _, ran, by decide +kernel, first.trans (congrArg some ran), forest, dump loopGrammar 1⟩

end Parser

end Earley
