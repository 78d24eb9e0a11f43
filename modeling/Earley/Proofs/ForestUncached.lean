import Earley.Forest.Uncached
import Earley.Proofs.ForestSearch
import Earley.Proofs.ForestTrees

/-!
# What is found without memory

A search that remembers nothing finds only trees in which no goal lies below itself, so no rule node lies inside one
of the same rule, production and span.
-/

namespace Earley

/-- No rule node lies inside one of the same rule, production and span. -/
def Tree.Unnested (t : Tree) : Prop :=
  ∀ n ∈ t.nodes, ∀ r k, n.kind = .rule r k → ∀ c ∈ n.children, ∀ m ∈ c.nodes, m.kind = n.kind → m.span ≠ n.span

namespace Chart

variable {g : Grammar} {input : List Token}

/-- An item that is done with a production is known by the production and by where it began. -/
theorem ItemKey.Valid.eq_dotted_of_complete {j : Nat} {key : ItemKey} {target : Target} {r : RuleId} {k : Nat}
    (valid : key.Valid g j) (done : key.op = .complete target) (owner : key.owner = .rule r k) :
    key = g.dottedKey (.rule r k) (g.symbolsOf (.rule r k)).length key.origin := by
  cases valid with
  | dotted walks place =>
    cases owner
    rw [(complete_dotted place done).1]
    rfl
  | group _ _ _ member => rcases mem_groupKeys.mp member with ⟨-, rfl⟩ | ⟨-, rfl⟩ <;> cases owner

end Chart

namespace Forest

open Chart

section Derived

variable {g : Grammar} {start : RuleId} {input : List Token} {states : Array State} {avoid : Set Goal}

/-- A node of a tree stands for a completed item of a rule. -/
def StandsFor (states : Array State) (n : Tree) (ref : ItemRef) : Prop :=
  ∃ item target r k, itemAt states ref = some item ∧ item.key.op = .complete target ∧ item.key.owner = .rule r k ∧
    n.kind = .rule r (some k) ∧ n.span = ⟨item.key.origin, ref.state⟩

/-- A node stands for at most one item. -/
theorem StandsFor.unique (valid : PastValid g input states) {n m : Tree} {a b : ItemRef} (ha : StandsFor states n a)
    (hb : StandsFor states m b) (kind : m.kind = n.kind) (span : m.span = n.span) : a = b := by
  obtain ⟨item, target, r, k, found, done, owner, kind', span'⟩ := ha
  obtain ⟨item', target', r', k', found', done', owner', kind'', span''⟩ := hb
  rw [kind', kind''] at kind
  rw [span', span''] at span
  cases kind
  obtain ⟨origin, state⟩ := Span.mk.inj span
  have key := (valid.itemAt found).key.eq_dotted_of_complete done owner
  have key' := (valid.itemAt found').key.eq_dotted_of_complete done' owner'
  exact HasKey.unique valid ⟨item, found, rfl⟩ ⟨item', found', by rw [key', key, origin]⟩ state.symm

/-- No node of a tree lies inside its like, and none stands for an item whose trees are to be avoided. -/
structure Fresh (states : Array State) (avoid : Set Goal) (t : Tree) : Prop where
  unnested : t.Unnested
  avoids : ∀ n ∈ t.nodes, ∀ ref, StandsFor states n ref → .trees ref ∉ avoid

theorem Fresh.antitone {t : Tree} {more : Set Goal} (h : Fresh states more t) (sub : avoid ⊆ more) :
    Fresh states avoid t :=
  ⟨h.unnested, fun n inside ref stands member => h.avoids n inside ref stands (sub member)⟩

theorem fresh_childless {kind : NodeKind} {span : Span} {p : Penalty} (other : ∀ r k, kind ≠ .rule r (some k)) :
    Fresh states avoid (.node kind span p []) := by
  have only : (Tree.node kind span p []).nodes = [.node kind span p []] := by
    rw [Tree.nodes_eq]
    rfl
  refine ⟨?_, ?_⟩
  · intro n inside r k same c child
    rw [only, List.mem_singleton] at inside
    subst inside
    cases child
  · rintro n inside ref ⟨-, -, r, k, -, -, -, same, -⟩
    rw [only, List.mem_singleton] at inside
    subst inside
    exact absurd same (other r k)

/-- A completed item over fresh trees is fresh, as none of them stands for it. -/
theorem fresh_nodeOf (valid : PastValid g input states) {ref : ItemRef} {item : Item} {target : Target} {p : Penalty}
    {ts : List Tree} (found : itemAt states ref = some item) (done : item.key.op = .complete target)
    (new : .trees ref ∉ avoid) (below : ∀ t ∈ ts, Fresh states (insert (.trees ref) avoid) t) :
    Fresh states avoid (nodeOf g item.key ref.state p ts) := by
  have root {r : RuleId} {k : Option Nat} (kind : (nodeOf g item.key ref.state p ts).kind = .rule r k) :
      StandsFor states (nodeOf g item.key ref.state p ts) ref := by
    have kind : item.key.owner.nodeKind = .rule r k := kind
    cases owner : item.key.owner with
    | rule r' k' =>
      exact ⟨item, target, r', k', found, done, owner, by simp [nodeOf, Tree.kind, owner, Owner.nodeKind], rfl⟩
    | group k' => simp [owner, Owner.nodeKind] at kind
    | iteration k' => simp [owner, Owner.nodeKind] at kind
  refine ⟨?_, ?_⟩
  · intro n inside r k kind c child m deeper same
    rw [Tree.nodes_eq] at inside
    rcases List.mem_cons.mp inside with rfl | lower
    · intro span
      obtain ⟨item', target', r', k', found', done', owner, kind', span'⟩ := root kind
      exact (below c child).avoids m deeper ref
        ⟨item', target', r', k', found', done', owner, same.trans kind', span.trans span'⟩ (Set.mem_insert _ _)
    · obtain ⟨c', child', lower⟩ := List.mem_flatMap.mp lower
      exact (below c' child').unnested n lower r k kind c child m deeper same
  · intro n inside ref' stands
    rw [Tree.nodes_eq] at inside
    rcases List.mem_cons.mp inside with rfl | lower
    · obtain ⟨-, -, r, k, -, -, -, kind, -⟩ := id stands
      rwa [stands.unique valid (root kind) rfl rfl]
    · obtain ⟨c, child, lower⟩ := List.mem_flatMap.mp lower
      exact fun member => (below c child).avoids n lower ref' stands (Set.mem_insert_of_mem _ member)

theorem Derived.fresh (h : Charted g start input states) {goal : Goal} {y : Stem}
    (derived : Derived g states avoid goal y) : ∀ t ∈ y.newestFirst, Fresh states avoid t := by
  induction derived with
  | @step avoid goal premises y new step each ih =>
    have older {t : Tree} (h : Fresh states (insert goal avoid) t) : Fresh states avoid t :=
      h.antitone (Set.subset_insert goal avoid)
    cases step with
    | start => simp [Stem.empty]
    | pass => exact fun t member => older (ih _ List.mem_cons_self t member)
    | scan =>
      refine List.forall_mem_cons.mpr ⟨fresh_childless (by simp), fun t member => ?_⟩
      exact older (ih _ List.mem_cons_self t member)
    | @part ref item link goal s x =>
      refine List.forall_mem_append.mpr ⟨fun t member => ?_, fun t member => ?_⟩
      · exact older (ih (goal, x) (by simp) t member)
      · exact older (ih _ List.mem_cons_self t member)
    | tree found done =>
      refine List.forall_mem_singleton.mpr (fresh_nodeOf h.valid found done new fun t member => ?_)
      exact ih _ List.mem_cons_self t (List.mem_reverse.mp member)
    | completion => exact fun t member => older (ih _ List.mem_cons_self t member)
    | bare => exact List.forall_mem_singleton.mpr (fresh_childless (by simp))

end Derived

/-- Work on stems is begun only where there are links to follow. -/
def Active.Linked (states : Array State) (active : Active) : Prop :=
  ∀ ref item, .stems ref ∈ active.goals → itemAt states ref = some item → item.links ≠ #[]

theorem Active.none_linked (states : Array State) : Active.none.Linked states := by
  rintro ref item ⟨d, found⟩
  simp at found

theorem Active.Linked.push {states : Array State} {active : Active} (h : active.Linked states) {goal : Goal}
    (new : ∀ ref item, goal = .stems ref → itemAt states ref = some item → item.links ≠ #[]) :
    (active.push goal).Linked states := by
  intro ref item member place
  rw [goals_push] at member
  rcases Set.mem_insert_iff.mp member with same | old
  · exact new ref item same.symm place
  · exact h ref item old place

/-- Answers with derivations that avoid all goals being worked on. -/
structure Answers.Honest (b : Source) (answers : Answers) : Prop where
  stems : ∀ {active memo ref}, active.Linked b.states → Posed b.grammar b.states (.stems ref) →
    ∀ x ∈ (answers.stems active memo ref).results, Derived b.grammar b.states active.goals (.stems ref) x
  trees : ∀ {active memo ref}, active.Linked b.states → Posed b.grammar b.states (.trees ref) →
    ∀ t ∈ (answers.trees active memo ref).results, Derived b.grammar b.states active.goals (.trees ref) (.single t)
  nulls : ∀ {active memo j target}, active.Linked b.states → ∀ t ∈ (answers.nulls active memo j target).results,
    Derived b.grammar b.states active.goals (.nulls j target) (.single t)

variable {b : Source} {start : RuleId} {input : List Token} {answers : Answers} {active : Active} {memo : Memo}

theorem Via.derived {g : Grammar} {states : Array State} {avoid : Set Goal} {ref : ItemRef} {item : Item} {link : Link}
    {x : Stem} (new : .stems ref ∉ avoid) (found : itemAt states ref = some item) (member : link ∈ item.links)
    (via : Via states (Derived g states (insert (.stems ref) avoid)) ref link x) :
    Derived g states avoid (.stems ref) x := by
  cases via with
  | pass child before => exact .step new (.pass found member child) (by simpa using before)
  | scan child here read before => exact .step new (.scan found member child here read) (by simpa using before)
  | part asks before inner => exact .step new (.part found member asks) (by simp [before, inner])

theorem treesWith_honest (honest : answers.Honest b) {ref : ItemRef} (begun : active.Linked b.states)
    (posed : Posed b.grammar b.states (.trees ref)) :
    ∀ t ∈ (b.treesWith answers active .blank ref).results,
      Derived b.grammar b.states active.goals (.trees ref) (.single t) := by
  obtain ⟨item, target, place, done⟩ := posed
  rcases treesWith_cases b answers active .blank ref with ⟨hit, found, -⟩ | ⟨d, -, result⟩ | ⟨idle, result⟩
  · simp [Memo.blank] at found
  · simp [result]
  · rw [result, results_settled, Source.finish, show b.item? ref = some item from place]
    intro t member
    obtain ⟨s, inside, kept⟩ := List.mem_filterMap.mp member
    obtain ⟨-, same⟩ := Option.ite_none_right_eq_some.mp kept
    cases same
    have derived := honest.stems (begun.push (by simp)) ⟨item, place⟩ s inside
    rw [Active.goals_push] at derived
    exact .step (Active.not_mem_goals idle) (.tree place done) (by simpa using derived)

/-- What a link leads to comes through it. -/
theorem via_of_mem_through {D : Goal → Stem → Prop} {ref : ItemRef} {link : Link} {stems : List Stem}
    {trees : List Tree} (before : ∀ s ∈ stems, D (.stems link.previous) s)
    (inner : ∀ goal, childGoal ref.state link.child = some goal → ∀ t ∈ trees, D goal (.single t)) :
    ∀ x ∈ b.through ref link stems trees, Via b.states D ref link x := by
  intro x member
  rw [Source.through] at member
  cases child : link.child with
  | empty =>
    rw [child] at member
    exact .pass child (before x member)
  | token =>
    rw [child] at member
    cases leaf : b.leaf? ref.state with
    | none => simp [leaf] at member
    | some t =>
      simp only [leaf] at member
      obtain ⟨s, stem, u, single, rfl⟩ := exists_of_mem_pairs member
      rw [List.mem_singleton.mp single]
      obtain ⟨x, read, rfl⟩ := Option.map_eq_some_iff.mp leaf
      obtain ⟨state, here, token⟩ := Option.bind_eq_some_iff.mp read
      exact .scan child here token (before s stem)
  | completed c =>
    rw [child] at member
    obtain ⟨s, stem, t, tree, rfl⟩ := exists_of_mem_pairs member
    have asks : childGoal ref.state link.child = some (.trees c) := by rw [child]; rfl
    exact .part asks (before s stem) (inner _ asks t tree)
  | null target =>
    rw [child] at member
    obtain ⟨s, stem, t, tree, rfl⟩ := exists_of_mem_pairs member
    have asks : childGoal ref.state link.child = some (.nulls ref.state target) := by rw [child]; rfl
    exact .part asks (before s stem) (inner _ asks t tree)

theorem Answers.Honest.child (honest : answers.Honest b) {j : Nat} {child : Child} {goal : Goal}
    (begun : active.Linked b.states) (asks : childGoal j child = some goal) (posed : Posed b.grammar b.states goal) :
    ∀ t ∈ (answers.child active memo j child).results, Derived b.grammar b.states active.goals goal (.single t) := by
  cases child with
  | completed c =>
    cases asks
    exact honest.trees begun posed
  | null target =>
    cases asks
    exact honest.nulls begun
  | token => cases asks
  | empty => cases asks

theorem stemsWith_honest (h : b.Valid start input) (honest : answers.Honest b) {ref : ItemRef}
    (begun : active.Linked b.states) (posed : Posed b.grammar b.states (.stems ref)) :
    ∀ x ∈ (b.stemsWith answers active .blank ref).results,
      Derived b.grammar b.states active.goals (.stems ref) x := by
  obtain ⟨item, place⟩ := posed
  have place' : b.item? ref = some item := place
  rcases stemsWith_cases b answers active .blank place' with
    ⟨hit, found, -⟩ | ⟨opening, result⟩ | ⟨-, d, -, result⟩ | ⟨linked, idle, result⟩
  · simp [Memo.blank] at found
  · rw [result]
    refine List.forall_mem_singleton.mpr (.step (fun working => ?_) (.start place opening) (by simp))
    exact begun ref item working place opening
  · simp [result]
  · rw [result, results_settled, ← Array.foldl_toList]
    have new := Active.not_mem_goals idle
    have begun : (active.push (.stems ref)).Linked b.states := begun.push fun ref' item' same place' => by
      cases same
      cases place.symm.trans place'
      exact linked
    let Inv (found : Found Stem) := found.results.length ≤ b.limit ∧
      ∀ x ∈ found.results, Derived b.grammar b.states active.goals (.stems ref) x
    suffices all : Inv (item.links.toList.foldl (b.followLink answers (active.push (.stems ref)) ref)
        ⟨[], none, .blank⟩) from all.2
    refine List.foldlRecOn _ _ ⟨Nat.zero_le _, by simp⟩ fun found inv link member => ?_
    obtain ⟨short, old⟩ := inv
    have member := Array.mem_toList_iff.mp member
    obtain ⟨previous, child⟩ := posed_link h place member
    rcases followLink_cases b answers (active.push (.stems ref)) ref link short with ⟨-, same⟩ | same
    · rw [same]
      exact ⟨short, old⟩
    · rw [same]
      refine ⟨length_cheapest_le .., fun x inside => ?_⟩
      rcases mem_of_mem_cheapest inside with before | through
      · exact old x before
      · have via := via_of_mem_through (honest.stems begun previous)
          (fun goal asks => honest.child begun asks (child goal asks)) x through
        rw [Active.goals_push] at via
        exact via.derived new place member

theorem nullsWith_honest (h : b.Valid start input) (honest : answers.Honest b) {j : Nat} {target : Target}
    (begun : active.Linked b.states) :
    ∀ t ∈ (b.nullsWith answers active .blank j target).results,
      Derived b.grammar b.states active.goals (.nulls j target) (.single t) := by
  rcases nullsWith_cases b answers active .blank j target with ⟨hit, found, -⟩ | ⟨d, -, result⟩ | ⟨idle, result⟩
  · simp [Memo.blank] at found
  · simp [result]
  · rw [result, results_settled]
    have new := Active.not_mem_goals idle
    intro t member
    rcases mem_of_mem_cheapest member with inside | bare
    · revert t
      let Inv (found : Found Tree) := ∀ t ∈ found.results,
        Derived b.grammar b.states active.goals (.nulls j target) (.single t)
      suffices all : Inv ((b.emptyCompletions j target).foldl
          (b.followCompletion answers (active.push (.nulls j target))) ⟨[], none, .blank⟩) from fun t _ => all t
      refine List.foldlRecOn _ _ (by simp [Inv]) fun found old ref member t inside => ?_
      rcases mem_of_mem_cheapest inside with before | tree
      · exact old t before
      · obtain ⟨item, place, rfl, done, narrow⟩ := mem_emptyCompletions.mp member
        have derived := honest.trees (begun.push (by simp)) ⟨item, target, place, done⟩ t tree
        rw [Active.goals_push] at derived
        exact .step new (.completion place done narrow) (by simpa using derived)
    · obtain ⟨r, d, rfl, known, childless, same⟩ := (bareTrees_best h j target).ok _ (List.mem_map_of_mem bare)
      rw [same]
      exact .step new (.bare known childless) (by simp)

theorem uncached_honest (h : b.Valid start input) (fuel : Nat) : (b.uncached fuel).forgetful.Honest b := by
  induction fuel with
  | zero => exact ⟨by simp [Source.uncached, Answers.forgetful], by simp [Source.uncached, Answers.forgetful],
      by simp [Source.uncached, Answers.forgetful]⟩
  | succ fuel ih =>
    exact ⟨stemsWith_honest h ih, treesWith_honest ih, nullsWith_honest h ih⟩

/-- The trees of completed items that are found without memory repeat no goal. -/
theorem uncachedTreesOf_derived (h : b.Valid start input) {refs : List ItemRef}
    (posed : ∀ ref ∈ refs, Posed b.grammar b.states (.trees ref)) :
    ∀ t ∈ b.uncachedTreesOf refs, ∃ ref, Derived b.grammar b.states ∅ (.trees ref) (.single t) := by
  have honest := uncached_honest h b.goalBound
  rw [Source.uncachedTreesOf]
  generalize (b.uncached b.goalBound).forgetful = answers at honest
  let Inv (found : Found Tree) := ∀ t ∈ found.results, ∃ ref, Derived b.grammar b.states ∅ (.trees ref) (.single t)
  suffices all : Inv (refs.foldl (b.followCompletion answers .none) ⟨[], none, .blank⟩) from all
  refine List.foldlRecOn _ _ (by simp [Inv]) fun found old ref member t inside => ?_
  rcases mem_of_mem_cheapest inside with before | tree
  · exact old t before
  · have derived := honest.trees (Active.none_linked b.states) (posed ref member) t tree
    exact ⟨ref, derived.antitone (Set.empty_subset _)⟩

theorem uncachedEmptyTrees_derived (h : b.Valid start input) (r : RuleId) :
    ∀ t ∈ b.uncachedEmptyTrees r, Derived b.grammar b.states ∅ (.nulls 0 (.rule r)) (.single t) := by
  intro t member
  have derived := (uncached_honest h b.goalBound).nulls (Active.none_linked b.states) t member
  exact derived.antitone (Set.empty_subset _)

theorem Derived.unnested {g : Grammar} {states : Array State} {avoid : Set Goal} {goal : Goal} {t : Tree}
    (h : Charted g start input states) (derived : Derived g states avoid goal (.single t)) : t.Unnested :=
  (derived.fresh h t (List.mem_singleton_self t)).unnested

end Forest

namespace Parser

open Chart Forest

/-- Without memory, no tree is found in which a rule node lies inside one of the same rule, production and span. -/
theorem uncachedForest_unnested {p p' : Parser} {start : RuleId} {tokens : List Token} {outcome : Recognition}
    (reachable : Reachable p.grammar) (fresh : p.states = #[]) (starts : p.grammar.start = some start)
    (ran : (run tokens).run p = .ok outcome p') (config : Config) :
    ∀ t ∈ { p' with config := config }.uncachedForest, t.Unnested := by
  obtain ⟨same, noted, failed, charted, ends, result⟩ := run_charted reachable fresh starts ran
  have valid : Source.Valid ⟨p'.grammar, p'.states, max config.maxTrees 1, config.maxPenalty⟩ start
      (tokens.takeWhile (!·.isFinish)) := by
    rw [same]
    exact ⟨charted, reachable.inScope, by simp⟩
  intro t member
  simp only [uncachedForest, same ▸ starts] at member
  split at member
  · cases member
  · split at member
    · exact (uncachedEmptyTrees_derived valid start t member).unnested valid.charted
    · obtain ⟨ref, derived⟩ := uncachedTreesOf_derived valid (fun ref member => by
        obtain ⟨item, found, -, -, done⟩ := mem_acceptingRefs.mp member
        exact ⟨item, _, found, done⟩) t member
      exact derived.unnested valid.charted

end Parser

end Earley
