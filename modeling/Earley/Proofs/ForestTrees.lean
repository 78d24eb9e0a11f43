import Earley.Proofs.ForestBuilder
import Earley.Proofs.Recognition

/-!
# The trees of an input

What a parser returns after a run are derivation trees of the whole input (`returned_isTree`). The best tree is one
of least penalty among all of them, and there is one whenever some derivation tree is cheap enough
(`bestTree_optimal`).
-/

namespace Earley

namespace Forest

open Chart

variable {g : Grammar} {start : RuleId} {input : List Token} {states : Array State}

theorem nodup_acceptingRefs (states : Array State) (start : RuleId) : (acceptingRefs states start).Nodup := by
  unfold acceptingRefs
  split
  · exact nodup_positions
      (fun x : Item × Nat => x.1.key.origin = 0 ∧ x.1.key.op = .complete (.rule start))
      (fun same => by simpa using same) _
  · exact .nil

/-- An item that completes a rule walks along one of its productions. -/
theorem productions_ne_nil {r : RuleId} {i : Nat} {key : ItemKey} (valid : key.Valid g i)
    (done : key.op = .complete (.rule r)) : g.productions r ≠ [] := by
  cases valid with
  | @dotted owner dot origin walks place =>
    have same := (complete_dotted place done).2
    cases owner with
    | rule r' n =>
      cases same
      have walks : n < (g.productions r).length := walks
      intro empty
      simp [empty] at walks
    | group k => cases same
    | iteration k => cases same
  | group _ _ _ member => rcases mem_groupKeys.mp member with ⟨-, rfl⟩ | ⟨-, rfl⟩ <;> cases done

/-- Sound answers to root goals are canonical trees of the whole input. -/
theorem isTree_of_root (h : Charted g start input states) (ends : Ends g input states none) (goal : Goal) {x : Stem}
    (root : IsRoot g start states goal) (sound : Sound g input states goal x) :
    ∃ t, x = .single t ∧ g.IsTree start input t ∧ t.Canonical g := by
  have size : states.size = input.length + 1 := ends
  cases goal with
  | stems ref => exact root.elim
  | trees ref =>
    obtain ⟨item, target, t, found, done, rfl, parsed, canonical⟩ := sound.trees_parses h.valid
    obtain ⟨item', found', last, origin, done'⟩ := mem_acceptingRefs.mp root
    cases found.symm.trans found'
    cases done.symm.trans done'
    rw [origin, show ref.state = input.length by omega] at parsed
    exact ⟨t, rfl, parsed, canonical⟩
  | nulls j target =>
    obtain ⟨rfl, rfl, bare⟩ := root
    obtain ⟨t, rfl, parsed, canonical⟩ := sound
    have blank : input.length = 0 := by
      have := (startsEmpty_iff.mp bare).1
      omega
    refine ⟨t, rfl, ?_, canonical⟩
    rw [Grammar.IsTree, blank]
    exact parsed

end Forest

namespace Parser

open Chart Forest

/-- The cheapest trees after a run, as canonical trees of the input that cover all answers to root goals. -/
theorem cheapestTrees_best {p : Parser} {start : RuleId} {input : List Token} (reachable : Reachable p.grammar)
    (starts : p.grammar.start = some start) (h : Charted p.grammar start input p.states)
    (ends : Ends p.grammar input p.states none) (accepted : p.hasParse = true) (limit : Nat) :
    Best (max limit 1) p.config.maxPenalty
      (fun x => ∃ t, x = .single t ∧ p.grammar.IsTree start input t ∧ t.Canonical p.grammar)
      (fun x => ∃ goal, IsRoot p.grammar start p.states goal ∧ Derived p.grammar p.states ∅ goal x)
      ((p.cheapestTrees limit).map .single) := by
  have valid : Source.Valid ⟨p.grammar, p.states, max limit 1, p.config.maxPenalty⟩ start input :=
    ⟨h, reachable.inScope, by simp⟩
  have bound : 0 < p.states.size := by
    obtain ⟨s, state, -⟩ := h.begun
    exact (Array.getElem?_eq_some_iff.mp state).1
  simp only [cheapestTrees, starts, accepted]
  by_cases bare : startsEmpty p.grammar p.states start = true
  · simp only [bare, Bool.not_true, Bool.false_eq_true, if_false, if_true]
    refine Best.mono (emptyTrees_best valid ⟨bound, reachable.inScope.start starts⟩) ?_ ?_
    · intro x sound
      exact isTree_of_root h ends (.nulls 0 (.rule start)) ⟨rfl, rfl, bare⟩ sound
    · rintro x ⟨goal, root, derived⟩ _
      cases goal with
      | stems ref => exact root.elim
      | trees ref =>
        obtain ⟨item, found, -, -, done⟩ := mem_acceptingRefs.mp root
        exact absurd (startsEmpty_iff.mp bare).2 (productions_ne_nil (h.valid.itemAt found).key done)
      | nulls j target =>
        obtain ⟨rfl, rfl, -⟩ := root
        exact derived
  · simp only [bare, Bool.not_true, Bool.false_eq_true, if_false]
    have posed (ref : ItemRef) (member : ref ∈ acceptingRefs p.states start) :
        ref.state = p.states.size - 1 ∧ Posed p.grammar p.states (.trees ref) := by
      obtain ⟨item, found, last, -, done⟩ := mem_acceptingRefs.mp member
      exact ⟨by omega, item, _, found, done⟩
    refine Best.mono (treesOf_best valid (nodup_acceptingRefs p.states start) posed) ?_ ?_
    · rintro x ⟨ref, member, sound⟩
      exact isTree_of_root h ends (.trees ref) member sound
    · rintro x ⟨goal, root, derived⟩ _
      cases goal with
      | stems ref => exact root.elim
      | trees ref => exact ⟨ref, root, derived⟩
      | nulls j target => exact absurd root.2.2 bare

/-- What a run leaves behind: the chart of the tokens before the end of the input, and the outcome read off it. -/
theorem run_charted {p p' : Parser} {start : RuleId} {tokens : List Token} {outcome : Recognition}
    (reachable : Reachable p.grammar) (fresh : p.states = #[]) (starts : p.grammar.start = some start)
    (ran : (run tokens).run p = .ok outcome p') :
    p'.grammar = p.grammar ∧ p'.outcome = some outcome ∧ ∃ failed,
      Charted p.grammar start (tokens.takeWhile (!·.isFinish)) p'.states ∧
      Ends p.grammar (tokens.takeWhile (!·.isFinish)) p'.states failed ∧
      outcome = Recognition.ofStates p.grammar start p'.states failed := by
  rw [run_eq p tokens fresh starts] at ran
  cases ran
  obtain ⟨charted, ends⟩ := build_charted reachable.analyzed start tokens
  exact ⟨rfl, rfl, _, charted, ends, rfl⟩

/-- After a run there are no trees at all, or the run accepted and the trees found are the best. -/
theorem cheapestTrees_cases {p p' : Parser} {start : RuleId} {tokens : List Token} {outcome : Recognition}
    (reachable : Reachable p.grammar) (fresh : p.states = #[]) (starts : p.grammar.start = some start)
    (ran : (run tokens).run p = .ok outcome p') (config : Config) (limit : Nat) :
    ({ p' with config := config }.cheapestTrees limit = [] ∧
      ¬ ∃ t, p.grammar.IsTree start (tokens.takeWhile (!·.isFinish)) t) ∨
    (Charted p.grammar start (tokens.takeWhile (!·.isFinish)) p'.states ∧
      Ends p.grammar (tokens.takeWhile (!·.isFinish)) p'.states none ∧
      Best (max limit 1) config.maxPenalty
        (fun x => ∃ t, x = .single t ∧ p.grammar.IsTree start (tokens.takeWhile (!·.isFinish)) t ∧
          t.Canonical p.grammar)
        (fun x => ∃ goal, IsRoot p.grammar start p'.states goal ∧ Derived p.grammar p'.states ∅ goal x)
        (({ p' with config := config }.cheapestTrees limit).map .single)) := by
  obtain ⟨same, noted, failed, charted, ends, result⟩ := run_charted reachable fresh starts ran
  have known := Grammar.rule?_of_lt (reachable.inScope.start starts)
  have recognized := accepted_iff_isTree reachable.analyzed known charted ends
  rw [← result] at recognized
  cases accepted : outcome.accepted with
  | false =>
    left
    refine ⟨?_, fun tree => ?_⟩
    · simp [cheapestTrees, hasParse, same, starts, noted, accepted]
    · rw [recognized.mpr tree] at accepted
      cases accepted
  | true =>
    right
    obtain rfl := failed_eq_none (result ▸ accepted)
    rw [← same] at charted ends reachable starts ⊢
    refine ⟨charted, ends, ?_⟩
    exact cheapestTrees_best (p := { p' with config := config }) reachable starts charted ends
      (by simp [hasParse, noted, accepted]) limit

/-- Every tree returned after a run is a derivation tree of the whole input from the start rule, and none of its
nodes costs more than the settings allow. -/
theorem returned_isTree (p p' : Parser) (start : RuleId) (tokens : List Token) (outcome : Recognition)
    (reachable : Reachable p.grammar) (fresh : p.states = #[]) (starts : p.grammar.start = some start)
    (ran : (run tokens).run p = .ok outcome p') (config : Config) (t : Tree)
    (returned : { p' with config := config }.bestTree = some t ∨ t ∈ { p' with config := config }.forest) :
    outcome.tokens = (tokens.takeWhile (!·.isFinish)).length ∧
      p.grammar.IsTree start (tokens.takeWhile (!·.isFinish)) t ∧ ∀ n ∈ t.nodes, n.penalty ≤ config.maxPenalty := by
  obtain ⟨limit, member⟩ : ∃ limit, t ∈ { p' with config := config }.cheapestTrees limit := by
    rcases returned with best | inside
    · exact ⟨1, List.mem_of_mem_head? best⟩
    · exact ⟨_, inside⟩
  rcases cheapestTrees_cases reachable fresh starts ran config limit with ⟨none, -⟩ | ⟨charted, ends, best⟩
  · simp [none] at member
  · have inside := List.mem_map_of_mem (f := Stem.single) member
    obtain ⟨t', same, tree, -⟩ := best.ok _ inside
    obtain rfl := Stem.single_inj same
    refine ⟨?_, tree, fun n below => ?_⟩
    · obtain ⟨-, -, failed, -, -, rfl⟩ := run_charted reachable fresh starts ran
      have size : p'.states.size = _ + 1 := ends
      simp [Recognition.ofStates, size]
    · have cheap : t.penalty ≤ config.maxPenalty := best.cheap _ inside
      exact Nat.le_trans (Grammar.Parses.penalty_le_of_mem_nodes tree t (List.mem_cons_self ..) n below) cheap

def loopTree : Tree := .node (.rule ⟨2⟩ (some 1)) ⟨0, 1⟩ 0 [.leaf (.ofChar 'a') 0]

theorem returned_loopGrammar_isTree :
    ∃ outcome p', (run [.ofChar 'a']).run (.new loopGrammar {}) = .ok outcome p' ∧ p'.bestTree = some loopTree ∧
      outcome.tokens = 1 ∧ loopGrammar.IsTree ⟨2⟩ [.ofChar 'a'] loopTree ∧ ∀ n ∈ loopTree.nodes, n.penalty ≤ 8 := by
  have ran := run_eq (.new loopGrammar {}) [.ofChar 'a'] rfl loopGrammar_start
  refine ⟨_, _, ran, ?best, returned_isTree (.new loopGrammar {}) _ ⟨2⟩ [.ofChar 'a'] _ loopGrammar_reachable rfl
    loopGrammar_start ran {} loopTree (.inl ?best)⟩
  cbv

/-- The best tree is cheap enough, and no derivation tree that is cheap enough costs less. -/
theorem bestTree_cases {p p' : Parser} {start : RuleId} {tokens : List Token} {outcome : Recognition}
    (reachable : Reachable p.grammar) (fresh : p.states = #[]) (starts : p.grammar.start = some start)
    (ran : (run tokens).run p = .ok outcome p') (config : Config) :
    ({ p' with config := config }.bestTree = none ∧
      ∀ u, p.grammar.IsTree start (tokens.takeWhile (!·.isFinish)) u → ¬ u.penalty ≤ config.maxPenalty) ∨
    ∃ t, { p' with config := config }.bestTree = some t ∧
      p.grammar.IsTree start (tokens.takeWhile (!·.isFinish)) t ∧ t.penalty ≤ config.maxPenalty ∧
      ∀ u, p.grammar.IsTree start (tokens.takeWhile (!·.isFinish)) u → u.penalty ≤ config.maxPenalty →
        t.penalty ≤ u.penalty := by
  unfold bestTree
  rcases cheapestTrees_cases reachable fresh starts ran config 1 with ⟨none, no⟩ | ⟨charted, ends, best⟩
  · rw [none]
    exact .inl ⟨rfl, fun u tree => absurd ⟨u, tree⟩ no⟩
  · -- Some tree that was found costs no more than a given one.
    have found (u : Tree) (tree : p.grammar.IsTree start (tokens.takeWhile (!·.isFinish)) u)
        (cheap : u.penalty ≤ config.maxPenalty) :
        ∃ t ∈ { p' with config := config }.cheapestTrees 1, t.penalty ≤ u.penalty := by
      obtain ⟨u', tree', canonical, less⟩ := tree.canonical
      obtain ⟨-, goal, root, derivable⟩ := derivable_of_isTree reachable.analyzed charted ends tree' canonical
      obtain ⟨z, derived, less'⟩ := exists_derived charted derivable
      have within := Nat.le_trans less' less
      obtain ⟨y, member, le⟩ := (best.covers ⟨goal, root, derived⟩ (Nat.le_trans within cheap)).exists_le (by simp)
      obtain ⟨t, inside, rfl⟩ := List.mem_map.mp member
      exact ⟨t, inside, Nat.le_trans le within⟩
    have ranked := ranked_single best.ranked
    cases trees : { p' with config := config }.cheapestTrees 1 with
    | nil =>
      left
      refine ⟨rfl, fun u tree cheap => ?_⟩
      obtain ⟨t, member, -⟩ := found u tree cheap
      simp [trees] at member
    | cons t ts =>
      right
      rw [trees] at found best ranked
      obtain ⟨t', same, tree, -⟩ := best.ok (.single t) (List.mem_cons_self ..)
      obtain rfl := Stem.single_inj same
      refine ⟨t, rfl, tree, best.cheap (.single t) (List.mem_cons_self ..), fun u tree' cheap => ?_⟩
      obtain ⟨v, member, less⟩ := found u tree' cheap
      rcases List.mem_cons.mp member with rfl | later
      · exact less
      · exact Nat.le_trans ((List.pairwise_cons.mp ranked).1 v later) less

/-- Where some derivation tree is cheap enough there is a best tree, which costs no more. -/
theorem exists_bestTree_le {p p' : Parser} {start : RuleId} {tokens : List Token} {outcome : Recognition}
    (reachable : Reachable p.grammar) (fresh : p.states = #[]) (starts : p.grammar.start = some start)
    (ran : (run tokens).run p = .ok outcome p') {config : Config} {u : Tree}
    (isTree : p.grammar.IsTree start (tokens.takeWhile (!·.isFinish)) u) (cheap : u.penalty ≤ config.maxPenalty) :
    ∃ t, { p' with config := config }.bestTree = some t ∧ t.penalty ≤ u.penalty := by
  rcases bestTree_cases reachable fresh starts ran config with ⟨-, dear⟩ | ⟨t, best, -, -, least⟩
  · exact absurd cheap (dear u isTree)
  · exact ⟨t, best, least u isTree cheap⟩

/-- There is a best tree just when some derivation tree of the input is cheap enough, and no derivation tree costs
less than it. -/
theorem bestTree_optimal (p p' : Parser) (start : RuleId) (tokens : List Token) (outcome : Recognition)
    (reachable : Reachable p.grammar) (fresh : p.states = #[]) (starts : p.grammar.start = some start)
    (ran : (run tokens).run p = .ok outcome p') (config : Config) :
    ({ p' with config := config }.bestTree.isSome = true ↔
      ∃ t, p.grammar.IsTree start (tokens.takeWhile (!·.isFinish)) t ∧ t.penalty ≤ config.maxPenalty) ∧
    ∀ t, { p' with config := config }.bestTree = some t →
      p.grammar.IsTree start (tokens.takeWhile (!·.isFinish)) t ∧
        ∀ u, p.grammar.IsTree start (tokens.takeWhile (!·.isFinish)) u → t.penalty ≤ u.penalty := by
  rcases bestTree_cases reachable fresh starts ran config with ⟨none, dear⟩ | ⟨t, some, tree, cheap, least⟩
  · rw [none]
    refine ⟨⟨fun h => by simp at h, ?_⟩, fun t h => by cases h⟩
    rintro ⟨u, tree, cheap⟩
    exact absurd cheap (dear u tree)
  · rw [some]
    refine ⟨⟨fun _ => ⟨t, tree, cheap⟩, fun _ => rfl⟩, fun t' same => ?_⟩
    cases same
    refine ⟨tree, fun u tree' => ?_⟩
    by_cases below : u.penalty ≤ config.maxPenalty
    · exact least u tree' below
    · exact Nat.le_trans cheap (Nat.le_of_lt (Nat.lt_of_not_le below))

theorem bestTree_loopGrammar_optimal :
    ∃ outcome p', (run [.ofChar 'a']).run (.new loopGrammar {}) = .ok outcome p' ∧
      (p'.bestTree.isSome = true ↔ ∃ t, loopGrammar.IsTree ⟨2⟩ [.ofChar 'a'] t ∧ t.penalty ≤ 8) ∧
      ∀ t, p'.bestTree = some t → loopGrammar.IsTree ⟨2⟩ [.ofChar 'a'] t ∧
        ∀ u, loopGrammar.IsTree ⟨2⟩ [.ofChar 'a'] u → t.penalty ≤ u.penalty := by
  have ran := run_eq (.new loopGrammar {}) [.ofChar 'a'] rfl loopGrammar_start
  exact ⟨_, _, ran, bestTree_optimal (.new loopGrammar {}) _ ⟨2⟩ [.ofChar 'a'] _ loopGrammar_reachable rfl
    loopGrammar_start ran {}⟩

end Parser

end Earley
