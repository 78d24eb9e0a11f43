import Earley.Parser
import Earley.Proofs.ChartCompleteness
import Earley.Proofs.Reachable
import Mathlib

/-!
# Recognition

A run accepts just the inputs that derive from the start rule (`run_accepts_iff_derives`).
-/

namespace Earley

namespace Chart

variable {g : Grammar} {start : RuleId} {input : List Token} {states : Array State} {failed : Option Nat}

theorem mem_acceptingRefs {ref : ItemRef} :
    ref ∈ acceptingRefs states start ↔ ∃ item, itemAt states ref = some item ∧ ref.state + 1 = states.size ∧
      item.key.origin = 0 ∧ item.key.op = .complete (.rule start) := by
  unfold acceptingRefs
  rw [Array.back?_eq_getElem?]
  constructor
  · intro member
    split at member
    case h_1 last state =>
      obtain ⟨⟨item, i⟩, inside, result⟩ := List.mem_filterMap.mp member
      have found : last.items[i]? = some item := by simpa using List.mem_zipIdx_iff_getElem?.mp inside
      have bound := (Array.getElem?_eq_some_iff.mp state).1
      dsimp only at result
      split at result
      case isTrue whole =>
        cases result
        exact ⟨item, Forest.itemAt_of_state state found, by dsimp only; omega, whole⟩
      case isFalse => cases result
    case h_2 => simp at member
  · rintro ⟨item, found, last, whole⟩
    obtain ⟨s, state, inside⟩ := Option.bind_eq_some_iff.mp found
    rw [show states.size - 1 = ref.state by omega, state]
    refine List.mem_filterMap.mpr ⟨(item, ref.index), List.mem_zipIdx_iff_getElem?.mpr (by simpa using inside), ?_⟩
    dsimp only
    rw [if_pos whole]

theorem startsEmpty_iff : startsEmpty g states start = true ↔ states.size = 1 ∧ g.productions start = [] := by
  simp [startsEmpty]

/-- An item that completes the start rule stands for a tree of the whole input. -/
theorem Charted.isTree_of_accepting (h : Charted g start input states) (ends : Ends g input states none)
    {ref : ItemRef} {item : Item} (member : ref ∈ acceptingRefs states start) (found : itemAt states ref = some item) :
    ∃ t, g.IsTree start input t ∧ t.penalty = item.penalty + g.rulePenalty start := by
  obtain ⟨item', found', last, origin, done⟩ := mem_acceptingRefs.mp member
  cases found'.symm.trans found
  have valid := h.valid.itemAt found
  obtain ⟨ts, behind⟩ := valid.real
  obtain ⟨-, parsed⟩ := behind.complete valid.key done
  have size : states.size = input.length + 1 := ends
  rw [origin, show ref.state = input.length by omega] at parsed
  obtain ⟨t, same, cost⟩ := parsed.single_rule
  rw [same, ← cost] at parsed
  exact ⟨t, parsed, cost⟩

/-- A run that accepts has read all tokens. -/
theorem failed_eq_none (accepted : (Recognition.ofStates g start states failed).accepted = true) : failed = none := by
  simp only [Recognition.ofStates, Bool.and_eq_true, Option.isNone_iff_eq_none] at accepted
  exact accepted.1

end Chart

namespace Forest

open Chart

variable {g : Grammar} {start : RuleId} {input : List Token} {states : Array State} {failed : Option Nat}

def IsRoot (g : Grammar) (start : RuleId) (states : Array State) : Goal → Prop
  | .trees ref => ref ∈ acceptingRefs states start
  | .nulls j target => j = 0 ∧ target = .rule start ∧ startsEmpty g states start = true
  | .stems _ => False

/-- No state refused a token if there is one after the last token. -/
theorem ends_none (ends : Ends g input states failed) (last : input.length < states.size) : failed = none := by
  cases failed with
  | none => rfl
  | some j =>
    obtain ⟨size, t, -, read, -⟩ := ends
    have := (List.getElem?_eq_some_iff.mp read).1
    omega

/-- Every canonical tree of the whole input answers some root goal. -/
theorem derivable_of_isTree (analyzed : g.Analyzed) (h : Charted g start input states)
    (ends : Ends g input states failed) {t : Tree} (tree : g.IsTree start input t) (canonical : t.Canonical g) :
    failed = none ∧ ∃ goal, IsRoot g start states goal ∧ Derivable g states goal (.single t) := by
  obtain ⟨first, state, holds⟩ := h.begun
  have opened := reached_opening h state holds
  have tree : g.Parses input [.symbol (.rule start)] 0 input.length [t] t.penalty := tree
  generalize t.penalty = p at tree
  cases tree with
  | @rule _ m _ n _ d production cs c _ _ _ known chosen inner rest =>
    cases rest
    obtain ⟨walks, rfl⟩ := walks_of_chosen known chosen
    have carried := carried_of_parses analyzed h ends inner (Tree.canonical_iff.mp canonical).2
    have ended := carried.walked walks (opened.production walks)
    obtain ⟨ref, last, ⟨item, found, same⟩, before⟩ := ended _ (List.mem_cons_self ..)
    have done : item.key.op = .complete (.rule start) := by rw [same]; exact op_dotted_end g (.rule start n) 0
    obtain ⟨s, state', -⟩ := Option.bind_eq_some_iff.mp found
    have bound := (Array.getElem?_eq_some_iff.mp state').1
    obtain rfl := ends_none ends (last ▸ bound)
    have size : states.size = input.length + 1 := ends
    refine ⟨rfl, .trees ref, mem_acceptingRefs.mpr ⟨item, found, by omega, by rw [same]; rfl, done⟩, ?_⟩
    have tree := Derivable.step (.tree (s := stemOf cs c) found done) (by simpa using before)
    rw [same, last] at tree
    simpa [nodeOf, Grammar.dottedKey, Owner.nodeKind, Owner.target, Grammar.targetPenalty, Grammar.rulePenalty, known,
      stemOf, Stem.children] using tree
  | @bare _ _ _ d _ _ _ known childless rest =>
    have blank : input.length = 0 := by
      generalize input.length = n at rest
      cases rest
      rfl
    obtain rfl := ends_none ends (blank ▸ (Array.getElem?_eq_some_iff.mp state).1)
    have size : states.size = input.length + 1 := ends
    refine ⟨rfl, .nulls 0 (.rule start), ⟨rfl, rfl, startsEmpty_iff.mpr ⟨by omega, ?_⟩⟩, ?_⟩
    · simp [Grammar.productions, known, childless]
    · exact .step (.bare known childless) (by simp)

/-- The outcome says whether the input has a tree. -/
theorem accepted_iff_isTree (analyzed : g.Analyzed) (known : ∃ d, g.rule? start = some d)
    (h : Charted g start input states) (ends : Ends g input states failed) :
    (Recognition.ofStates g start states failed).accepted = true ↔ ∃ t, g.IsTree start input t := by
  constructor
  · intro accepted
    simp only [Recognition.ofStates, Bool.and_eq_true, Option.isNone_iff_eq_none, Bool.or_eq_true, Bool.not_eq_true',
      List.isEmpty_eq_false_iff_exists_mem] at accepted
    obtain ⟨rfl, ⟨ref, member⟩ | bare⟩ := accepted
    · obtain ⟨item, found, -⟩ := mem_acceptingRefs.mp member
      obtain ⟨t, tree, -⟩ := h.isTree_of_accepting ends member found
      exact ⟨t, tree⟩
    · obtain ⟨d, known⟩ := known
      obtain ⟨one, childless⟩ := startsEmpty_iff.mp bare
      have size : states.size = input.length + 1 := ends
      obtain rfl : input = [] := List.eq_nil_of_length_eq_zero (by omega)
      have childless : d.productions = [] := by simpa [Grammar.productions, known] using childless
      have parsed : g.Parses [] [.symbol (.rule start)] 0 0 _ _ := .bare known childless .nil
      obtain ⟨t, same, cost⟩ := parsed.single_rule
      rw [same, ← cost] at parsed
      exact ⟨t, parsed⟩
  · rintro ⟨t, tree⟩
    obtain ⟨t', tree', canonical, -⟩ := tree.canonical
    obtain ⟨rfl, goal, root, -⟩ := derivable_of_isTree analyzed h ends tree' canonical
    simp only [Recognition.ofStates, Bool.and_eq_true, Option.isNone_iff_eq_none, Bool.or_eq_true, Bool.not_eq_true',
      List.isEmpty_eq_false_iff_exists_mem]
    cases goal with
    | stems ref => exact root.elim
    | trees ref => exact ⟨trivial, .inl ⟨ref, root⟩⟩
    | nulls j target => exact ⟨trivial, .inr root.2.2⟩

end Forest

namespace Parser

open Chart Forest

/-- A parser that has read nothing yet reads all it can, and keeps the states. -/
theorem run_eq (p : Parser) {start : RuleId} (tokens : List Token) (fresh : p.states = #[])
    (starts : p.grammar.start = some start) :
    (run tokens).run p =
      let outcome := Recognition.ofStates p.grammar start (build p.grammar start tokens).1
        (build p.grammar start tokens).2
      .ok outcome { p with states := (build p.grammar start tokens).1, outcome := some outcome } := by
  simp only [run, EStateM.run_bind, EStateM.run_get, fresh, starts]
  rfl

/-- A run of a parser without a start rule fails and leaves the parser as it is. -/
theorem run_eq_noStartRule (p : Parser) (tokens : List Token) (fresh : p.states = #[])
    (starts : p.grammar.start = none) : (run tokens).run p = .error .noStartRule p := by
  simp only [run, EStateM.run_bind, EStateM.run_get, fresh, starts]
  rfl

/-- A parser that has read an input refuses another and stays as it is. -/
theorem run_eq_alreadyRun (p : Parser) (tokens : List Token) (used : p.states ≠ #[]) :
    (run tokens).run p = .error .alreadyRun p := by
  have used : p.states.isEmpty = false := by simpa using used
  simp only [run, EStateM.run_bind, EStateM.run_get, used]
  rfl

/-- Only a parser that has read nothing, over a grammar with a start rule, finishes a run. -/
theorem exists_start_of_run {p q : Parser} {tokens : List Token} {outcome : Recognition}
    (ran : (run tokens).run p = .ok outcome q) : p.states = #[] ∧ ∃ start, p.grammar.start = some start := by
  have fresh : p.states = #[] := by
    by_contra used
    cases (run_eq_alreadyRun p tokens used).symm.trans ran
  refine ⟨fresh, ?_⟩
  cases starts : p.grammar.start with
  | none => cases (run_eq_noStartRule p tokens fresh starts).symm.trans ran
  | some start => exact ⟨start, rfl⟩

/-- The outcome of a run says whether what was read has a tree. -/
theorem accepted_iff_exists_isTree {p p' : Parser} {start : RuleId} {tokens : List Token} {outcome : Recognition}
    (reachable : Reachable p.grammar) (fresh : p.states = #[]) (starts : p.grammar.start = some start)
    (ran : (run tokens).run p = .ok outcome p') :
    outcome.accepted = true ↔ ∃ t, p.grammar.IsTree start (tokens.takeWhile (!·.isFinish)) t := by
  rw [run_eq p tokens fresh starts] at ran
  cases ran
  obtain ⟨charted, ends⟩ := build_charted reachable.analyzed start tokens
  exact accepted_iff_isTree reachable.analyzed (Grammar.rule?_of_lt (reachable.inScope.start starts)) charted ends

theorem takeWhile_eq_self {tokens : List Token} (complete : ∀ t ∈ tokens, t.isFinish = false) :
    tokens.takeWhile (!·.isFinish) = tokens :=
  List.takeWhile_eq_self_iff.mpr fun t member => by simp [complete t member]

/-- A run on tokens that do not include the end of the input succeeds, and accepts them just when they derive from
the start rule. -/
theorem run_accepts_iff_derives (p : Parser) (start : RuleId) (tokens : List Token) (reachable : Reachable p.grammar)
    (fresh : p.states = #[]) (starts : p.grammar.start = some start) (complete : ∀ t ∈ tokens, t.isFinish = false) :
    ∃ outcome p', (run tokens).run p = .ok outcome p' ∧
      (outcome.accepted = true ↔ ∃ cost, p.grammar.Derives [.rule start] tokens cost) := by
  obtain ⟨charted, ends⟩ := build_charted reachable.analyzed start tokens
  rw [takeWhile_eq_self complete] at charted ends
  refine ⟨_, _, run_eq p tokens fresh starts, ?_⟩
  rw [accepted_iff_isTree reachable.analyzed (Grammar.rule?_of_lt (reachable.inScope.start starts)) charted ends]
  constructor
  · rintro ⟨t, tree⟩
    exact ⟨t.penalty, Grammar.derives_iff_isTree.mpr ⟨t, tree, rfl⟩⟩
  · rintro ⟨cost, derives⟩
    obtain ⟨t, tree, -⟩ := Grammar.derives_iff_isTree.mp derives
    exact ⟨t, tree⟩

/-- A grammar whose start rule derives a letter or, by a detour at a cost of one, itself. -/
def loopGrammar : Grammar :=
  let calls : List Call := [.rule "loop", .rule "detour", .addProduction ⟨2⟩ [.rule ⟨3⟩],
    .addProduction ⟨2⟩ [.usage (.terminal (.ofChar 'a'))], .addProduction ⟨3⟩ [.rule ⟨2⟩], .setRulePenalty ⟨3⟩ 1,
    .setStart ⟨2⟩]
  calls.foldl (fun g c => c.after g) (.empty false)

theorem loopGrammar_reachable : Reachable loopGrammar :=
  reachable_foldl (.empty false) _

theorem loopGrammar_start : loopGrammar.start = some ⟨2⟩ := by decide +kernel

theorem run_loopGrammar_accepts_iff :
    ∃ outcome p', (run [.ofChar 'a']).run (.new loopGrammar {}) = .ok outcome p' ∧
      (outcome.accepted = true ↔ ∃ cost, loopGrammar.Derives [.rule ⟨2⟩] [.ofChar 'a'] cost) :=
  run_accepts_iff_derives (.new loopGrammar {}) ⟨2⟩ [.ofChar 'a'] loopGrammar_reachable rfl loopGrammar_start
    (by decide)

end Parser

end Earley
