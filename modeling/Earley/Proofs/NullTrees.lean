import Earley.Proofs.ForestTermination
import Earley.Proofs.ForestTrees

/-!
# What deriving nothing costs

An item steps over what derives nothing on the word of the grammar alone, which knows the least cost of doing so from
its analysis. The trees are looked up later, among the items of the same state that are done. Every such step has trees
to be found, and the first of them has the cost that the analysis knew (`null_costs_agree`).
-/

namespace Earley

variable {g : Grammar} {start : RuleId} {input : List Token} {failed : Option Nat}

/-- The null cost of a target is the penalty of some canonical tree that derives nothing. -/
theorem Grammar.Analyzed.exists_canonical_null (analyzed : g.Analyzed) {target : Chart.Target} {c : Penalty}
    (cost : g.targetNullCost target = some c) (input : List Token) (i : Nat) :
    ∃ t, g.Parses input [target.part] i i [t] t.penalty ∧ t.Canonical g ∧ t.penalty = c := by
  obtain ⟨ts, parsed⟩ := analyzed.parses_null cost input i
  obtain ⟨ts', p, less, parsed', canonical⟩ := parsed.canonical
  obtain ⟨t, rfl, rfl⟩ := parsed'.single_target
  obtain ⟨c', cost', least⟩ := analyzed.targetNullCost_le parsed'
  cases cost.symm.trans cost'
  exact ⟨t, parsed', canonical t (List.mem_cons_self ..), Penalty.ext (Nat.le_antisymm less least)⟩

namespace Forest

open Chart

variable {states : Array State}

/-- A step over what derives nothing leads from an item that has predicted it in the same state, so the cheapest tree
of it has been met there. -/
theorem exists_derivable_null (analyzed : g.Analyzed) (h : Charted g start input states)
    (ends : Ends g input states failed) {ref : ItemRef} {key previous : ItemKey} {link : Link} {target : Target}
    (linked : LinkValid g states ref.state key link previous) (null : link.child = .null target) :
    ∃ t, Derivable g states (.nulls ref.state target) (.single t) ∧ g.targetNullCost target = some t.penalty := by
  have consumed := linked.child
  rw [null] at consumed
  obtain ⟨same, op, nullable⟩ : link.previous.state = ref.state ∧ previous.op = .predict target ∧
      (g.targetNullCost target).isSome = true := by
    cases consumed with | null same op nullable => exact ⟨same, op, nullable⟩
  obtain ⟨c, cost⟩ := Option.isSome_iff_exists.mp nullable
  obtain ⟨t, parsed, canonical, rfl⟩ := analyzed.exists_canonical_null cost input ref.state
  obtain ⟨s, before, state, found, rfl⟩ := HasKey.state linked.has
  rw [same] at state
  have opened := reached_opening h state fun k member => (h.served state found).opened op member
  rcases fulfilled_of_parses analyzed h ends parsed canonical opened with ⟨less, -⟩ | ⟨-, -, derivable⟩
  · exact absurd less (Nat.lt_irrefl _)
  · exact ⟨t, derivable, cost⟩

/-- Trees that derive nothing come from the items that are done where they began, or from a rule without productions. -/
theorem Derivable.completed_or_bare {j : Nat} {target : Target} {y : Stem}
    (derivable : Derivable g states (.nulls j target) y) :
    (∃ ref item, ref.state = j ∧ itemAt states ref = some item ∧ item.key.op = .complete target ∧
      item.key.origin = j) ∨
    ∃ r d, target = .rule r ∧ g.rule? r = some d ∧ d.productions = [] := by
  cases derivable with
  | step step each =>
    cases step with
    | completion found done narrow => exact .inl ⟨_, _, rfl, found, done, narrow⟩
    | bare known childless => exact .inr ⟨_, _, rfl, known, childless⟩

/-- Where a tree of null cost can be derived and the bound allows for it, the trees that are found begin with one of
that cost. -/
theorem nullTrees_cons {b : Source} (analyzed : b.grammar.Analyzed) (h : b.Valid start input) {j : Nat}
    {target : Target} {t : Tree} (posed : Posed b.grammar b.states (.nulls j target))
    (derivable : Derivable b.grammar b.states (.nulls j target) (.single t))
    (cost : b.grammar.targetNullCost target = some t.penalty) (cheap : t.penalty ≤ b.maxPenalty) :
    ∃ u us, b.nullTrees j target = u :: us ∧ u.penalty = t.penalty := by
  have best := nullTrees_best h posed
  obtain ⟨z, derived, less⟩ := exists_derived h.charted derivable
  obtain ⟨y, member, le⟩ := (best.covers derived (Nat.le_trans less cheap)).exists_le h.positive
  obtain ⟨v, inside, rfl⟩ := List.mem_map.mp member
  have ranked := ranked_single best.ranked
  cases trees : b.nullTrees j target with
  | nil => simp [trees] at inside
  | cons u us =>
    rw [trees] at best inside ranked
    refine ⟨u, us, rfl, Penalty.ext (Nat.le_antisymm ?_ ?_)⟩
    · -- The first tree costs no more than `v`, which costs no more than `t`.
      have first : u.penalty ≤ v.penalty := by
        rcases List.mem_cons.mp inside with rfl | later
        · exact Nat.le_refl _
        · exact (List.pairwise_cons.mp ranked).1 v later
      exact Nat.le_trans first (Nat.le_trans le less)
    · obtain ⟨u', same, parsed, -⟩ := best.ok (.single u) (List.mem_cons_self ..)
      obtain rfl := Stem.single_inj same
      obtain ⟨c, cost', least⟩ := analyzed.targetNullCost_le parsed
      cases cost.symm.trans cost'
      exact least

end Forest

namespace Parser

open Chart Forest

/-- Wherever a run has stepped over a target that derives nothing, that state has an item of the target that is done
there, or the target is a rule without productions. The search for trees of the target in that state, started with
nothing remembered and with a bound of at least the null cost that the grammar knows, ends with a list whose first
tree has just that cost. -/
theorem null_costs_agree (p p' : Parser) (tokens : List Token) (outcome : Recognition) (reachable : Reachable p.grammar)
    (ran : (run tokens).run p = .ok outcome p') (ref : ItemRef) (item : Item) (link : Link) (target : Target)
    (found : p'.item? ref = some item) (member : link ∈ item.links) (null : link.child = .null target) :
    ((∃ done other, done.state = ref.state ∧ p'.item? done = some other ∧ other.key.op = .complete target ∧
        other.key.origin = ref.state) ∨
      ∃ r d, target = .rule r ∧ p.grammar.rule? r = some d ∧ d.productions = []) ∧
    ∃ c, p.grammar.targetNullCost target = some c ∧ ∀ limit maxPenalty, c ≤ maxPenalty →
      ∃ t ts, (⟨p.grammar, p'.states, max limit 1, maxPenalty⟩ : Source).nullTrees ref.state target = t :: ts ∧
        ((Marked.Work.idle .blank).nulls ⟨p.grammar, p'.states, max limit 1, maxPenalty⟩ ref.state target).map
          (·.results) = some (t :: ts) ∧
        t.penalty = c := by
  obtain ⟨fresh, start, starts⟩ := exists_start_of_run ran
  obtain ⟨-, -, failed, charted, ends, -⟩ := run_charted reachable fresh starts ran
  have analyzed := reachable.analyzed
  have place : itemAt p'.states ref = some item := found
  obtain ⟨previous, linked⟩ := (charted.valid.itemAt place).link member
  obtain ⟨s, state, -⟩ := Option.bind_eq_some_iff.mp place
  have bound := (Array.getElem?_eq_some_iff.mp state).1
  obtain ⟨t, derivable, cost⟩ := exists_derivable_null analyzed charted ends linked null
  refine ⟨derivable.completed_or_bare, t.penalty, cost, fun limit maxPenalty cheap => ?_⟩
  let b : Source := ⟨p.grammar, p'.states, max limit 1, maxPenalty⟩
  have valid : b.Valid start _ := ⟨charted, reachable.inScope, Nat.le_max_right limit 1⟩
  have posed : Posed b.grammar b.states (.nulls ref.state target) :=
    posed_child valid linked bound (by rw [null]; rfl)
  obtain ⟨u, us, trees, same⟩ := nullTrees_cons analyzed valid posed derivable cost cheap
  exact ⟨u, us, trees, (Marked.nullTrees_eq valid (mem_allGoals posed)).trans (congrArg some trees), same⟩

/-- A grammar of a letter after at least three gaps, where a gap is nothing or two gaps and has a penalty of two. -/
def gapGrammar : Grammar :=
  let calls : List Call := [.rule "start", .rule "gap", .addProduction ⟨3⟩ [.rule ⟨3⟩, .rule ⟨3⟩],
    .addProduction ⟨3⟩ [.empty], .setRulePenalty ⟨3⟩ 2, .group [.rule ⟨3⟩] 3 0,
    .addProduction ⟨2⟩ [.group ⟨0⟩, .usage (.terminal (.ofChar 'a'))], .setStart ⟨2⟩]
  calls.foldl (fun g c => c.after g) (.empty false)

theorem gapGrammar_reachable : Reachable gapGrammar :=
  reachable_foldl (.empty false) _

/-- Before the letter three gaps are stepped over at once, at the cost of six that their cheapest tree has. -/
theorem null_costs_gapGrammar_agree :
    ∃ outcome p', (run [.ofChar 'a']).run (.new gapGrammar {}) = .ok outcome p' ∧
      ∃ item link, p'.item? ⟨0, 2⟩ = some item ∧ link ∈ item.links ∧ link.child = .null (.group ⟨0⟩) ∧
        ∃ t ts, (⟨gapGrammar, p'.states, 1, 6⟩ : Source).nullTrees 0 (.group ⟨0⟩) = t :: ts ∧ t.penalty = 6 := by
  have starts : gapGrammar.start = some ⟨2⟩ := by decide +kernel
  have ran := run_eq (.new gapGrammar {}) [.ofChar 'a'] rfl starts
  have stepped : ((build gapGrammar ⟨2⟩ [.ofChar 'a']).1[0]?.bind (·.items[2]?)).any
      (fun item => item.links.any (·.child = .null (.group ⟨0⟩))) = true := by decide +kernel
  obtain ⟨item, found, linked⟩ := (Option.any_eq_true ..).mp stepped
  obtain ⟨link, member, null⟩ := Array.any_eq_true'.mp linked
  have null := of_decide_eq_true null
  obtain ⟨-, c, cost, trees⟩ := null_costs_agree (.new gapGrammar {}) _ [.ofChar 'a'] _ gapGrammar_reachable ran ⟨0, 2⟩
    item link (.group ⟨0⟩) found member null
  have known : gapGrammar.targetNullCost (.group ⟨0⟩) = some 6 := by decide +kernel
  cases known.symm.trans cost
  obtain ⟨t, ts, same, -, least⟩ := trees 1 6 (Nat.le_refl _)
  exact ⟨_, _, ran, item, link, found, member, null, t, ts, same, least⟩

end Parser

end Earley
