import Earley.Proofs.ForestActive
import Earley.Proofs.ForestBest

/-!
# What the search for trees finds

Every result of the search covers the derivations that repeat no goal and avoid those it was cut at. A result that
was cut on behalf of no goal further out therefore covers all derivations that repeat no goal, and can be remembered.
-/

namespace Earley.Forest

open Chart

/-- What a source has to be for its trees to be right: the chart of an input, and room for at least one tree. -/
structure Source.Valid (b : Source) (start : RuleId) (input : List Token) : Prop where
  charted : Charted b.grammar start input b.states
  inScope : b.grammar.Scoped
  positive : 0 < b.limit

/-- The list covers all answers to a goal whose derivations repeat no goal and avoid some. -/
def Answered (b : Source) (input : List Token) (avoid : Set Goal) (goal : Goal) (found : List Stem) : Prop :=
  Best b.limit b.maxPenalty (Sound b.grammar input b.states goal) (Derived b.grammar b.states avoid goal) found

/-- Whatever is remembered holds without avoiding anything. -/
structure MemoValid (b : Source) (input : List Token) (memo : Memo) : Prop where
  stems : ∀ {ref hit}, memo.stems.find? ref = some hit → Answered b input ∅ (.stems ref) hit
  trees : ∀ {goal hit}, memo.trees.find? goal = some hit → Answered b input ∅ goal (hit.map .single)

/-- The results for a goal are right as far as they were not cut. -/
structure Concluded (b : Source) (input : List Token) (active : Active) (goal : Goal) (results : List Stem)
    (cut : Option Nat) (memo : Memo) : Prop where
  memo : MemoValid b input memo
  results : Answered b input (avoided active cut) goal results

/-- Answers that are right while no more goals than `fuel` are left. -/
structure Answers.Valid (b : Source) (input : List Token) (fuel : Nat) (answers : Answers) : Prop where
  stems : ∀ {active memo ref}, active.Valid b.grammar b.states → b.goalBound ≤ fuel + active.depth →
    MemoValid b input memo → Posed b.grammar b.states (.stems ref) →
    Concluded b input active (.stems ref) (answers.stems active memo ref).results (answers.stems active memo ref).cut
      (answers.stems active memo ref).memo
  trees : ∀ {active memo ref}, active.Valid b.grammar b.states → b.goalBound ≤ fuel + active.depth →
    MemoValid b input memo → Posed b.grammar b.states (.trees ref) →
    Concluded b input active (.trees ref) ((answers.trees active memo ref).results.map .single)
      (answers.trees active memo ref).cut (answers.trees active memo ref).memo
  nulls : ∀ {active memo j target}, active.Valid b.grammar b.states → b.goalBound ≤ fuel + active.depth →
    MemoValid b input memo → Posed b.grammar b.states (.nulls j target) →
    Concluded b input active (.nulls j target) ((answers.nulls active memo j target).results.map .single)
      (answers.nulls active memo j target).cut (answers.nulls active memo j target).memo

variable {b : Source} {start : RuleId} {input : List Token}

theorem Answered.antitone {avoid more : Set Goal} {goal : Goal} {found : List Stem}
    (h : Answered b input avoid goal found) (sub : avoid ⊆ more) : Answered b input more goal found :=
  Best.mono h (fun _ sound => sound) fun _ derived _ => derived.antitone sub

theorem blank_valid : MemoValid b input .blank :=
  ⟨by simp [Memo.blank], by simp [Memo.blank]⟩

theorem MemoValid.keepStems {memo : Memo} (h : MemoValid b input memo) {ref : ItemRef} {found : List Stem}
    (new : Answered b input ∅ (.stems ref) found) : MemoValid b input (memo.keepStems ref found) := by
  refine ⟨fun {other hit} here => ?_, h.trees⟩
  rw [Memo.keepStems, Index.find?_insert] at here
  split at here
  case isTrue same =>
    cases here
    exact same ▸ new
  case isFalse => exact h.stems here

theorem MemoValid.keepTrees {memo : Memo} (h : MemoValid b input memo) {goal : Goal} {found : List Tree}
    (new : Answered b input ∅ goal (found.map .single)) : MemoValid b input (memo.keepTrees goal found) := by
  refine ⟨h.stems, fun {other hit} here => ?_⟩
  rw [Memo.keepTrees, Index.find?_insert] at here
  split at here
  case isTrue same =>
    cases here
    exact same ▸ new
  case isFalse => exact h.trees here

/-- A goal that is cut has no derivations that avoid it. -/
theorem concluded_cut {active : Active} {memo : Memo} {goal : Goal} {d : Nat} (h : MemoValid b input memo)
    (found : active.depth? goal = some d) : Concluded b input active goal [] (some d) memo := by
  refine ⟨h, best_nil fun x derived => ?_⟩
  cases derived with
  | step fresh => exact absurd ⟨d, d, rfl, found, Nat.le_refl d⟩ fresh

theorem concluded_hit {active : Active} {memo : Memo} {goal : Goal} {found : List Stem} (h : MemoValid b input memo)
    (hit : Answered b input ∅ goal found) : Concluded b input active goal found none memo :=
  ⟨h, by rwa [avoided_none]⟩

/-- Trees that were not cut are remembered. -/
theorem concluded_kept_trees {active : Active} {memo : Memo} {goal : Goal} {found : List Tree}
    (h : MemoValid b input memo) (new : Answered b input (avoided active none) goal (found.map .single)) :
    Concluded b input active goal (found.map .single) none (memo.keepTrees goal found) :=
  ⟨h.keepTrees (by rwa [avoided_none] at new), new⟩

theorem concluded_kept_stems {active : Active} {memo : Memo} {ref : ItemRef} {found : List Stem}
    (h : MemoValid b input memo) (new : Answered b input (avoided active none) (.stems ref) found) :
    Concluded b input active (.stems ref) found none (memo.keepStems ref found) :=
  ⟨h.keepStems (by rwa [avoided_none] at new), new⟩

/-- The trees of a completed item are its stems, finished. -/
theorem Derived.finished {g : Grammar} {states : Array State} {avoid : Set Goal} {ref : ItemRef} {item : Item}
    {y : Stem} (found : itemAt states ref = some item) (h : Derived g states avoid (.trees ref) y) :
    ∃ s, Derived g states (insert (.trees ref) avoid) (.stems ref) s ∧
      y = .single (nodeOf g item.key ref.state s.penalty s.children) := by
  cases h with
  | step _ step each =>
    cases step with
    | tree found' =>
      cases found.symm.trans found'
      exact ⟨_, each _ (List.mem_cons_self ..), rfl⟩

theorem finish_answered (h : b.Valid start input) {avoid : Set Goal} {ref : ItemRef} {found : List Stem}
    (posed : Posed b.grammar b.states (.trees ref))
    (stems : Answered b input (insert (.trees ref) avoid) (.stems ref) found) :
    Answered b input avoid (.trees ref) ((b.finish ref found).map .single) := by
  obtain ⟨item, target, place, done⟩ := posed
  have finished := Best.finish stems (fun s => nodeOf b.grammar item.key ref.state s.penalty s.children) (fun s => rfl)
    (fun {s s'} same => by simpa [nodeOf, Stem.children, Tree.children] using congrArg Tree.children same)
  have place' : b.item? ref = some item := place
  rw [Source.finish, place']
  refine Best.mono finished ?_ fun x derived _ => derived.finished place
  rintro x ⟨s, sound, rfl⟩
  exact Sound.step h.charted.valid h.charted.read (.tree place done) (by simpa using sound)

theorem treesWith_concluded (h : b.Valid start input) {fuel : Nat} {answers : Answers}
    (valid : answers.Valid b input fuel) {active : Active} {memo : Memo} {ref : ItemRef}
    (fits : active.Valid b.grammar b.states) (enough : b.goalBound ≤ fuel + 1 + active.depth)
    (known : MemoValid b input memo) (posed : Posed b.grammar b.states (.trees ref)) :
    Concluded b input active (.trees ref) ((b.treesWith answers active memo ref).results.map .single)
      (b.treesWith answers active memo ref).cut (b.treesWith answers active memo ref).memo := by
  unfold Source.treesWith
  cases hit : memo.trees.find? (.trees ref) with
  | some found => exact concluded_hit known (known.trees hit)
  | none =>
    cases place : active.depth? (.trees ref) with
    | some d => exact concluded_cut known place
    | none =>
      have ⟨item, target, found, done⟩ := posed
      have inner := valid.stems (fits.push posed place) (by simp only [Active.push]; omega) known ⟨item, found⟩
      have trees := finish_answered h posed (inner.results.antitone (avoided_push fits _ _))
      generalize answers.stems (active.push (.trees ref)) memo ref = result at *
      obtain ⟨stems, cut, memo⟩ := result
      dsimp only at inner trees ⊢
      generalize outerCut active.depth cut = outer at *
      cases outer with
      | none => exact concluded_kept_trees inner.memo trees
      | some d => exact ⟨inner.memo, trees⟩

/-- An invariant of a fold over different elements that knows which of them are done. -/
theorem foldl_done {α β : Type} {step : β → α → β} {Inv : List α → β → Prop} {as : List α} (distinct : as.Nodup)
    (next : ∀ done a b, (∀ other ∈ done ++ [a], other ∈ as) → a ∉ done → Inv done b → Inv (done ++ [a]) (step b a))
    {b : β} (first : Inv [] b) : Inv as (as.foldl step b) := by
  have later (done rest : List α) (b : β) (split : as = done ++ rest) (now : Inv done b) :
      Inv as (rest.foldl step b) := by
    induction rest generalizing done b with
    | nil =>
      rw [split, List.append_nil]
      exact now
    | cons a rest ih =>
      have split' : as = done ++ [a] ++ rest := by simpa using split
      have inside : ∀ other ∈ done ++ [a], other ∈ as := fun other member => split' ▸ List.mem_append_left _ member
      have fresh : a ∉ done := by
        rw [split] at distinct
        exact fun again => (List.nodup_append.mp distinct).2.2 a again a (by simp) rfl
      exact ih (done ++ [a]) _ split' (next done a b inside fresh now)
  exact later [] as b rfl first

structure Collected (b : Source) (input : List Token) (active : Active) (refs : List ItemRef) (found : Found Tree) :
    Prop where
  memo : MemoValid b input found.memo
  results : Best b.limit b.maxPenalty (fun x => ∃ ref ∈ refs, Sound b.grammar input b.states (.trees ref) x)
    (fun x => ∃ ref ∈ refs, Derived b.grammar b.states (avoided active found.cut) (.trees ref) x)
    (found.results.map .single)

theorem addTrees_single (b : Source) (xs ys : List Tree) :
    (b.addTrees xs ys).map .single = cheapest Stem.penalty b.limit (xs.map .single) (ys.map .single) :=
  (cheapest_map Stem.penalty b.limit Stem.single xs ys).symm

theorem collected_next (h : b.Valid start input) {fuel : Nat} {answers : Answers} (valid : answers.Valid b input fuel)
    {active : Active} (fits : active.Valid b.grammar b.states) (enough : b.goalBound ≤ fuel + active.depth)
    {refs : List ItemRef} {ref : ItemRef} {found : Found Tree} (now : Collected b input active refs found)
    (posed : Posed b.grammar b.states (.trees ref)) (new : ref ∉ refs)
    (level : ∀ other ∈ refs, other.state = ref.state) :
    Collected b input active (refs ++ [ref]) (b.followCompletion answers active found ref) := by
  obtain ⟨results, cut, memo⟩ := found
  have inner := valid.trees fits enough now.memo posed
  change Collected b input active _ ⟨b.addTrees results (answers.trees active memo ref).results,
    shallower cut (answers.trees active memo ref).cut, (answers.trees active memo ref).memo⟩
  refine ⟨inner.memo, ?_⟩
  rw [addTrees_single]
  refine Best.mono (now.results.merge inner.results ?_) ?_ ?_
  · rintro x y ⟨other, member, sound⟩ sound' same
    have equal : x = y := by
      obtain ⟨_, _, t, _, _, rfl, -⟩ := sound.trees_parses h.charted.valid
      obtain ⟨_, _, t', _, _, rfl, -⟩ := sound'.trees_parses h.charted.valid
      rw [(List.cons.inj same).1]
    subst equal
    exact new (trees_distinct h.charted.valid sound sound' (level other member) ▸ member)
  · rintro x (⟨other, member, sound⟩ | sound)
    · exact ⟨other, List.mem_append_left _ member, sound⟩
    · exact ⟨ref, by simp, sound⟩
  · rintro x ⟨other, member, derived⟩ _
    rcases List.mem_append.mp member with old | here
    · exact .inl ⟨other, old, derived.antitone (avoided_shallower_left active _ _)⟩
    · rw [List.mem_singleton.mp here] at derived
      exact .inr (derived.antitone (avoided_shallower_right active _ _))

/-- The trees of some completed items of one state. -/
theorem collected_all (h : b.Valid start input) {fuel : Nat} {answers : Answers} (valid : answers.Valid b input fuel)
    {active : Active} {memo : Memo} (fits : active.Valid b.grammar b.states)
    (enough : b.goalBound ≤ fuel + active.depth) (known : MemoValid b input memo) {refs : List ItemRef} {j : Nat}
    (distinct : refs.Nodup) (posed : ∀ ref ∈ refs, ref.state = j ∧ Posed b.grammar b.states (.trees ref)) :
    Collected b input active refs (refs.foldl (b.followCompletion answers active) ⟨[], none, memo⟩) := by
  apply foldl_done distinct
  · intro done ref found inside fresh now
    have here := posed ref (inside ref (by simp))
    refine collected_next h valid fits enough now here.2 fresh fun other member => ?_
    exact (posed other (inside other (List.mem_append_left _ member))).1.trans here.1.symm
  · exact ⟨known, best_nil (by simp)⟩

theorem nodup_positions {α β : Type} (p : α × Nat → Prop) [DecidablePred p] {f : Nat → β}
    (injective : ∀ {m n}, f m = f n → m = n) (as : List α) :
    (as.zipIdx.filterMap fun x => if p x then some (f x.2) else none).Nodup := by
  rw [filterMap_ite]
  have positions : (as.zipIdx.map Prod.snd).Nodup := by
    rw [List.zipIdx_map_snd]
    exact List.nodup_range'
  have kept := ((List.filter_sublist (p := fun x => decide (p x)) (l := as.zipIdx)).map Prod.snd).nodup positions
  apply List.pairwise_map.mpr
  exact (List.pairwise_map.mp kept).imp fun differ same => differ (injective same)

theorem mem_emptyCompletions {j : Nat} {target : Target} {ref : ItemRef} :
    ref ∈ b.emptyCompletions j target ↔ ∃ item, itemAt b.states ref = some item ∧ ref.state = j ∧
      item.key.op = .complete target ∧ item.key.origin = j := by
  unfold Source.emptyCompletions
  constructor
  · intro member
    split at member
    case h_1 s state =>
      obtain ⟨⟨item, i⟩, inside, result⟩ := List.mem_filterMap.mp member
      have found : s.items[i]? = some item := by simpa using List.mem_zipIdx_iff_getElem?.mp inside
      dsimp only at result
      split at result
      case isTrue done =>
        cases result
        exact ⟨item, itemAt_of_state state found, rfl, done⟩
      case isFalse => cases result
    case h_2 => simp at member
  · rintro ⟨item, found, rfl, done⟩
    obtain ⟨s, state, inside⟩ := Option.bind_eq_some_iff.mp found
    rw [state]
    refine List.mem_filterMap.mpr ⟨(item, ref.index), List.mem_zipIdx_iff_getElem?.mpr (by simpa using inside), ?_⟩
    dsimp only
    rw [if_pos done]

theorem nodup_emptyCompletions (b : Source) (j : Nat) (target : Target) : (b.emptyCompletions j target).Nodup := by
  unfold Source.emptyCompletions
  split
  · exact nodup_positions (fun x : Item × Nat => x.1.key.op = .complete target ∧ x.1.key.origin = j)
      (fun same => by simpa using same) _
  · exact .nil

def Bare (g : Grammar) (j : Nat) (target : Target) (x : Stem) : Prop :=
  ∃ r d, target = .rule r ∧ g.rule? r = some d ∧ d.productions = [] ∧
    x = .single (.node (.rule r none) ⟨j, j⟩ d.penalty [])

theorem bareTrees_best (h : b.Valid start input) (j : Nat) (target : Target) :
    Best b.limit b.maxPenalty (Bare b.grammar j target) (Bare b.grammar j target)
      ((b.bareTrees j target).map .single) := by
  cases target with
  | rule r =>
    cases known : b.grammar.rule? r with
    | none =>
      simp only [Source.bareTrees, known, List.map_nil]
      refine best_nil ?_
      rintro x ⟨r', d, same, known', -⟩
      cases same
      rw [known] at known'
      cases known'
    | some d =>
      simp only [Source.bareTrees, known]
      split
      case isTrue cheap =>
        refine best_one h.positive ⟨r, d, rfl, known, by simpa using cheap.1, rfl⟩ cheap.2 ?_
        rintro y ⟨r', d', same, known', -, rfl⟩
        cases same
        cases known.symm.trans known'
        rfl
      case isFalse dear =>
        refine best_nil ?_
        rintro x ⟨r', d', same, known', childless, rfl⟩ cheap
        cases same
        cases known.symm.trans known'
        exact dear ⟨by simpa using childless, cheap⟩
  | group k => exact best_nil (by rintro x ⟨r, d, same, -⟩; cases same)
  | iteration k => exact best_nil (by rintro x ⟨r, d, same, -⟩; cases same)

theorem nulls_answered (h : b.Valid start input) {active : Active} (fits : active.Valid b.grammar b.states) {j : Nat}
    {target : Target} {found : Found Tree}
    (collected : Collected b input (active.push (.nulls j target)) (b.emptyCompletions j target) found) :
    Answered b input (avoided active (outerCut active.depth found.cut)) (.nulls j target)
      ((b.addTrees found.results (b.bareTrees j target)).map .single) := by
  rw [addTrees_single]
  refine Best.mono (collected.results.merge (bareTrees_best h j target) ?_) ?_ ?_
  · -- A completed item has a production, and a bare rule has none.
    rintro x y ⟨ref, -, item, target', s, -, -, -, -, rfl⟩ ⟨r, d, -, -, -, rfl⟩ same
    have kind := congrArg Tree.kind (List.cons.inj same).1
    simp only [nodeOf, Tree.kind] at kind
    cases owner : item.key.owner <;> simp [owner, Owner.nodeKind] at kind
  · rintro x (⟨ref, member, sound⟩ | ⟨r, d, rfl, known, childless, rfl⟩)
    · obtain ⟨item, place, rfl, done, narrow⟩ := mem_emptyCompletions.mp member
      exact Sound.step h.charted.valid h.charted.read (.completion place done narrow) (by simpa using sound)
    · exact Sound.step h.charted.valid h.charted.read (.bare known childless) (by simp)
  · intro x derived _
    cases derived with
    | step _ step each =>
      cases step with
      | completion place done narrow =>
        have inner := each _ (List.mem_cons_self ..)
        exact .inl ⟨_, mem_emptyCompletions.mpr ⟨_, place, rfl, done, narrow⟩, inner.antitone (avoided_push fits _ _)⟩
      | bare known childless => exact .inr ⟨_, _, rfl, known, childless, rfl⟩

theorem nullsWith_concluded (h : b.Valid start input) {fuel : Nat} {answers : Answers}
    (valid : answers.Valid b input fuel) {active : Active} {memo : Memo} {j : Nat} {target : Target}
    (fits : active.Valid b.grammar b.states) (enough : b.goalBound ≤ fuel + 1 + active.depth)
    (known : MemoValid b input memo) (posed : Posed b.grammar b.states (.nulls j target)) :
    Concluded b input active (.nulls j target) ((b.nullsWith answers active memo j target).results.map .single)
      (b.nullsWith answers active memo j target).cut (b.nullsWith answers active memo j target).memo := by
  unfold Source.nullsWith
  cases hit : memo.trees.find? (.nulls j target) with
  | some found => exact concluded_hit known (known.trees hit)
  | none =>
    cases place : active.depth? (.nulls j target) with
    | some d => exact concluded_cut known place
    | none =>
      have inner := collected_all h valid (fits.push posed place) (by simp only [Active.push]; omega) known
        (nodup_emptyCompletions b j target) (j := j) fun ref member => by
          obtain ⟨item, found, state, done, -⟩ := mem_emptyCompletions.mp member
          exact ⟨state, item, target, found, done⟩
      have trees := nulls_answered h fits inner
      generalize (b.emptyCompletions j target).foldl _ _ = result at *
      obtain ⟨results, cut, memo⟩ := result
      dsimp only at inner trees ⊢
      generalize outerCut active.depth cut = outer at *
      cases outer with
      | none => exact concluded_kept_trees inner.memo trees
      | some d => exact ⟨inner.memo, trees⟩

structure Gathered (b : Source) (input : List Token) (active : Active) (ref : ItemRef) (links : List Link)
    (found : Found Stem) : Prop where
  memo : MemoValid b input found.memo
  results : Best b.limit b.maxPenalty
    (fun x => ∃ link ∈ links, Via b.states (Sound b.grammar input b.states) ref link x)
    (fun x => ∃ link ∈ links, Via b.states (Derived b.grammar b.states (avoided active found.cut)) ref link x)
    found.results

theorem Via.before {states : Array State} {D : Goal → Stem → Prop} {ref : ItemRef} {link : Link} {x : Stem}
    (h : Via states D ref link x) : ∃ s, D (.stems link.previous) s ∧ s.penalty ≤ x.penalty := by
  cases h with
  | pass _ before => exact ⟨_, before, Nat.le_refl _⟩
  | scan _ _ _ before => exact ⟨_, before, Penalty.le_add_right _ _⟩
  | part _ before _ => exact ⟨_, before, Penalty.le_add_right _ _⟩

theorem Via.parts {states : Array State} {D : Goal → Stem → Prop} {ref : ItemRef} {link : Link} {x : Stem} {goal : Goal}
    (asks : childGoal ref.state link.child = some goal) (h : Via states D ref link x) :
    ∃ s y, D (.stems link.previous) s ∧ D goal y ∧ x = s.join y := by
  cases h with
  | pass child =>
    rw [child] at asks
    cases asks
  | scan child =>
    rw [child] at asks
    cases asks
  | part asks' before inner =>
    cases asks.symm.trans asks'
    exact ⟨_, _, before, inner, rfl⟩

/-- A link that leads nowhere changes nothing. -/
theorem Gathered.skip {active : Active} {ref : ItemRef} {links : List Link} {link : Link} {results : List Stem}
    {cut cut' : Option Nat} {memo memo' : Memo} (now : Gathered b input active ref links ⟨results, cut, memo⟩)
    (known : MemoValid b input memo') (sub : avoided active cut ⊆ avoided active cut')
    (none : ∀ x, Via b.states (Derived b.grammar b.states (avoided active cut')) ref link x →
      ¬ x.penalty ≤ b.maxPenalty) : Gathered b input active ref (links ++ [link]) ⟨results, cut', memo'⟩ := by
  refine ⟨known, Best.mono now.results ?_ ?_⟩
  · rintro x ⟨other, member, via⟩
    exact ⟨other, List.mem_append_left _ member, via⟩
  · rintro x ⟨other, member, via⟩ cheap
    rcases List.mem_append.mp member with old | here
    · exact ⟨other, old, via.mono fun _ _ derived => derived.antitone sub⟩
    · rw [List.mem_singleton.mp here] at via
      exact absurd cheap (none x via)

/-- The stems of one more link. -/
theorem Gathered.add (h : b.Valid start input) {active : Active} {ref : ItemRef} {item : Item} {links : List Link}
    {link : Link} {results new : List Stem} {cut cut' : Option Nat} {memo memo' : Memo}
    (now : Gathered b input active ref links ⟨results, cut, memo⟩) (place : itemAt b.states ref = some item)
    (inside : ∀ other ∈ links ++ [link], other ∈ item.links) (fresh : link ∉ links)
    (known : MemoValid b input memo') (sub : avoided active cut ⊆ avoided active cut')
    (best : Best b.limit b.maxPenalty (Via b.states (Sound b.grammar input b.states) ref link)
      (Via b.states (Derived b.grammar b.states (avoided active cut')) ref link) new) :
    Gathered b input active ref (links ++ [link]) ⟨b.addStems results new, cut', memo'⟩ := by
  refine ⟨known, Best.mono (now.results.merge best ?_) ?_ ?_⟩
  · rintro x y ⟨other, member, via⟩ via' same
    have equal := links_distinct h.charted.valid place (inside other (List.mem_append_left _ member))
      (inside link (by simp)) via via' same
    exact fresh (equal ▸ member)
  · rintro x (⟨other, member, via⟩ | via)
    · exact ⟨other, List.mem_append_left _ member, via⟩
    · exact ⟨link, by simp, via⟩
  · rintro x ⟨other, member, via⟩ _
    rcases List.mem_append.mp member with old | here
    · exact .inl ⟨other, old, via.mono fun _ _ derived => derived.antitone sub⟩
    · rw [List.mem_singleton.mp here] at via
      exact .inr via

/-- The stems that a link over an explicit nothing leads to. -/
theorem link_passed {active : Active} {ref : ItemRef} {link : Link} {stems : List Stem} {cut whole : Option Nat}
    (child : link.child = .empty) (before : Answered b input (avoided active cut) (.stems link.previous) stems)
    (sub : avoided active cut ⊆ avoided active whole) :
    Best b.limit b.maxPenalty (Via b.states (Sound b.grammar input b.states) ref link)
      (Via b.states (Derived b.grammar b.states (avoided active whole)) ref link) stems := by
  apply Best.mono before
  · exact fun _ => .pass child
  · intro x via _
    cases via with
    | pass _ before => exact before.antitone sub
    | scan child' => cases child.symm.trans child'
    | part asks => simp [child, childGoal] at asks

/-- The stems that a link over a token leads to. -/
theorem link_scanned (h : b.Valid start input) {active : Active} {ref : ItemRef} {link : Link} {stems : List Stem}
    {cut whole : Option Nat} {s : State} {t : Token} (child : link.child = .token)
    (state : b.states[ref.state]? = some s) (read : s.token = some t)
    (before : Answered b input (avoided active cut) (.stems link.previous) stems)
    (sub : avoided active cut ⊆ avoided active whole) :
    Best b.limit b.maxPenalty (Via b.states (Sound b.grammar input b.states) ref link)
      (Via b.states (Derived b.grammar b.states (avoided active whole)) ref link)
      (pairs b.limit b.maxPenalty stems [.leaf t (ref.state - 1)]) := by
  have leaf : Best b.limit b.maxPenalty (· = .single (.leaf t (ref.state - 1)))
      (· = .single (.leaf t (ref.state - 1))) ([.leaf t (ref.state - 1)].map .single) :=
    best_one h.positive rfl (Nat.zero_le _) fun _ same => same
  apply Best.mono (Best.pairs h.positive before leaf fun _ same => ⟨_, same⟩)
  · rintro x ⟨stem, y, first, rfl, rfl⟩
    exact .scan child state read first
  · intro x via _
    cases via with
    | pass child' => cases child.symm.trans child'
    | scan _ here read' first =>
      cases state.symm.trans here
      cases read.symm.trans read'
      exact ⟨_, _, first.antitone sub, rfl, rfl⟩
    | part asks => simp [child, childGoal] at asks

/-- Behind a link over a token there is a leaf. -/
theorem exists_leaf {ref : ItemRef} {key previous : ItemKey} {link : Link} {s : State}
    (linked : LinkValid b.grammar b.states ref.state key link previous) (child : link.child = .token)
    (state : b.states[ref.state]? = some s) :
    ∃ t, b.leaf? ref.state = some (.leaf t (ref.state - 1)) ∧ s.token = some t := by
  have consumed := linked.child
  rw [child] at consumed
  cases consumed with
  | token _ _ here read =>
    cases state.symm.trans here
    exact ⟨_, by simp [Source.leaf?, state, read], read⟩

/-- The pairs of a link's stems with the trees of what it stepped over. -/
theorem link_pairs (h : b.Valid start input) {active : Active} {ref : ItemRef} {link : Link} {goal : Goal}
    {stems : List Stem} {trees : List Tree} {cut cut' whole : Option Nat}
    (asks : childGoal ref.state link.child = some goal)
    (before : Answered b input (avoided active cut) (.stems link.previous) stems)
    (inner : Answered b input (avoided active cut') goal (trees.map .single))
    (sub : avoided active cut ⊆ avoided active whole) (sub' : avoided active cut' ⊆ avoided active whole) :
    Best b.limit b.maxPenalty (Via b.states (Sound b.grammar input b.states) ref link)
      (Via b.states (Derived b.grammar b.states (avoided active whole)) ref link)
      (pairs b.limit b.maxPenalty stems trees) := by
  have singles (x : Stem) (derived : Derived b.grammar b.states (avoided active cut') goal x) : ∃ t, x = .single t := by
    have sound := derived.sound h.charted
    cases goal with
    | stems ref => cases child : link.child <;> simp [childGoal, child] at asks
    | trees ref =>
      obtain ⟨-, -, t, -, -, same, -⟩ := sound.trees_parses h.charted.valid
      exact ⟨t, same⟩
    | nulls j target =>
      obtain ⟨t, same, -⟩ := sound
      exact ⟨t, same⟩
  refine Best.mono (Best.pairs h.positive before inner singles) ?_ ?_
  · rintro x ⟨s, y, first, second, rfl⟩
    exact .part asks first second
  · intro x via _
    obtain ⟨s, y, first, second, rfl⟩ := via.parts asks
    exact ⟨s, y, first.antitone sub, second.antitone sub', rfl⟩

/-- What a link asks for is about an item that is there or a target that is known. -/
theorem posed_child (h : b.Valid start input) {ref : ItemRef} {key previous : ItemKey} {link : Link} {goal : Goal}
    (linked : LinkValid b.grammar b.states ref.state key link previous) (bound : ref.state < b.states.size)
    (asks : childGoal ref.state link.child = some goal) : Posed b.grammar b.states goal := by
  have consumed := linked.child
  generalize link.child = child at *
  cases consumed with
  | token => cases asks
  | empty => cases asks
  | null _ op =>
    cases asks
    exact ⟨bound, linked.valid.known_target h.inScope op⟩
  | completed _ _ has _ done =>
    cases asks
    obtain ⟨item, found, rfl⟩ := has
    exact ⟨item, _, found, done⟩

/-- One more link followed. -/
theorem gathered_next (h : b.Valid start input) {fuel : Nat} {answers : Answers} (valid : answers.Valid b input fuel)
    {active : Active} (fits : active.Valid b.grammar b.states) (enough : b.goalBound ≤ fuel + active.depth)
    {ref : ItemRef} {item : Item} {links : List Link} {link : Link} {found : Found Stem}
    (place : itemAt b.states ref = some item) (inside : ∀ other ∈ links ++ [link], other ∈ item.links)
    (fresh : link ∉ links) (now : Gathered b input active ref links found) :
    Gathered b input active ref (links ++ [link]) (b.followLink answers active ref found link) := by
  obtain ⟨results, cut, memo⟩ := found
  obtain ⟨askStems, askTrees, askNulls⟩ := answers
  obtain ⟨previous, linked⟩ := (h.charted.valid.itemAt place).link (inside link (by simp))
  obtain ⟨s, state, -⟩ := Option.bind_eq_some_iff.mp place
  have bound := (Array.getElem?_eq_some_iff.mp state).1
  have posed : Posed b.grammar b.states (.stems link.previous) := by
    obtain ⟨before, there, -⟩ := linked.has
    exact ⟨before, there⟩
  have first := valid.stems fits enough now.memo posed
  unfold Source.followLink
  dsimp only at first ⊢
  generalize askStems active memo link.previous = result at *
  obtain ⟨stems, stemCut, memo⟩ := result
  dsimp only at first ⊢
  have left := avoided_shallower_left active cut stemCut
  have right := avoided_shallower_right active cut stemCut
  split
  case isTrue none =>
    obtain rfl := List.isEmpty_iff.mp none
    refine now.skip first.memo left fun x via cheap => ?_
    obtain ⟨s, derived, less⟩ := via.before
    exact Best.none_owed first.results h.positive s (derived.antitone right) (Nat.le_trans less cheap)
  case isFalse =>
    cases child : link.child with
    | empty => exact now.add h place inside fresh first.memo left (link_passed child first.results right)
    | token =>
      obtain ⟨t, leaf, read⟩ := exists_leaf linked child state
      dsimp only
      rw [leaf]
      exact now.add h place inside fresh first.memo left (link_scanned h child state read first.results right)
    | completed c =>
      have asks : childGoal ref.state link.child = some (.trees c) := by rw [child]; rfl
      have second := valid.trees fits enough first.memo (posed_child h linked bound asks)
      dsimp only at second ⊢
      generalize askTrees active memo c = result at *
      obtain ⟨trees, treeCut, memo⟩ := result
      dsimp only at second ⊢
      have left' := avoided_shallower_left active (shallower cut stemCut) treeCut
      exact now.add h place inside fresh second.memo (left.trans left')
        (link_pairs h asks first.results second.results (right.trans left') (avoided_shallower_right ..))
    | null target =>
      have asks : childGoal ref.state link.child = some (.nulls ref.state target) := by rw [child]; rfl
      have second := valid.nulls fits enough first.memo (posed_child h linked bound asks)
      dsimp only at second ⊢
      generalize askNulls active memo ref.state target = result at *
      obtain ⟨trees, treeCut, memo⟩ := result
      dsimp only at second ⊢
      have left' := avoided_shallower_left active (shallower cut stemCut) treeCut
      exact now.add h place inside fresh second.memo (left.trans left')
        (link_pairs h asks first.results second.results (right.trans left') (avoided_shallower_right ..))

/-- The stems that all links of an item lead to. -/
theorem gathered_all (h : b.Valid start input) {fuel : Nat} {answers : Answers} (valid : answers.Valid b input fuel)
    {active : Active} {memo : Memo} (fits : active.Valid b.grammar b.states)
    (enough : b.goalBound ≤ fuel + active.depth) (known : MemoValid b input memo) {ref : ItemRef} {item : Item}
    (place : itemAt b.states ref = some item) :
    Gathered b input active ref item.links.toList
      (item.links.foldl (b.followLink answers active ref) ⟨[], none, memo⟩) := by
  rw [← Array.foldl_toList]
  apply foldl_done (h.charted.valid.itemAt place).distinct
  · intro done link found inside fresh now
    exact gathered_next h valid fits enough place (fun other member => Array.mem_toList_iff.mp (inside other member))
      fresh now
  · exact ⟨known, best_nil (by simp)⟩

theorem stems_answered (h : b.Valid start input) {active : Active} (fits : active.Valid b.grammar b.states)
    {ref : ItemRef} {item : Item} {found : Found Stem} (place : itemAt b.states ref = some item)
    (linked : item.links ≠ #[]) (gathered : Gathered b input (active.push (.stems ref)) ref item.links.toList found) :
    Answered b input (avoided active (outerCut active.depth found.cut)) (.stems ref) found.results := by
  refine Best.mono gathered.results ?_ fun x derived _ => ?_
  · rintro x ⟨link, member, via⟩
    exact via.sound h.charted place (Array.mem_toList_iff.mp member)
  · obtain ⟨opening, -⟩ | ⟨link, member, via⟩ := derived.via place
    · exact absurd opening linked
    · exact ⟨link, Array.mem_toList_iff.mpr member,
        via.mono fun _ _ derived => derived.antitone (avoided_push fits _ _)⟩

theorem stemsWith_concluded (h : b.Valid start input) {fuel : Nat} {answers : Answers}
    (valid : answers.Valid b input fuel) {active : Active} {memo : Memo} {ref : ItemRef}
    (fits : active.Valid b.grammar b.states) (enough : b.goalBound ≤ fuel + 1 + active.depth)
    (known : MemoValid b input memo) (posed : Posed b.grammar b.states (.stems ref)) :
    Concluded b input active (.stems ref) (b.stemsWith answers active memo ref).results
      (b.stemsWith answers active memo ref).cut (b.stemsWith answers active memo ref).memo := by
  obtain ⟨item, place⟩ := id posed
  have place' : b.item? ref = some item := place
  unfold Source.stemsWith
  cases hit : memo.stems.find? ref with
  | some found => exact concluded_hit known (known.stems hit)
  | none =>
    rw [place']
    dsimp only
    split
    case isTrue none =>
      have opening : item.links = #[] := by simpa using none
      apply concluded_kept_stems known
      refine best_one h.positive ?_ (Nat.zero_le _) fun y derived => ?_
      · exact Sound.step h.charted.valid h.charted.read (.start place opening) (by simp)
      · obtain ⟨-, same⟩ | ⟨link, member, -⟩ := derived.via place
        · exact same
        · simp [opening] at member
    case isFalse some =>
      cases depth : active.depth? (.stems ref) with
      | some d => exact concluded_cut known depth
      | none =>
        have inner := gathered_all h valid (fits.push posed depth) (by simp only [Active.push]; omega) known place
        have stems := stems_answered h fits place (by simpa using some) inner
        generalize item.links.foldl _ _ = result at *
        obtain ⟨results, cut, memo⟩ := result
        dsimp only at inner stems ⊢
        generalize outerCut active.depth cut = outer at *
        cases outer with
        | none => exact concluded_kept_stems inner.memo stems
        | some d => exact ⟨inner.memo, stems⟩

/-- With enough fuel all answers are right. -/
theorem answers_valid (h : b.Valid start input) (fuel : Nat) :
    Answers.Valid b input fuel ⟨b.stems fuel, b.trees fuel, b.nulls fuel⟩ := by
  induction fuel with
  | zero =>
    exact ⟨fun fits enough => absurd enough fits.not_exhausted, fun fits enough => absurd enough fits.not_exhausted,
      fun fits enough => absurd enough fits.not_exhausted⟩
  | succ fuel ih =>
    refine ⟨fun fits enough known posed => ?_, fun fits enough known posed => ?_, fun fits enough known posed => ?_⟩
    · dsimp only
      rw [Source.stems]
      exact stemsWith_concluded h ih fits enough known posed
    · dsimp only
      rw [Source.trees]
      exact treesWith_concluded h ih fits enough known posed
    · dsimp only
      rw [Source.nulls]
      exact nullsWith_concluded h ih fits enough known posed

/-- The trees of some completed items of one state, found from scratch. -/
theorem treesOf_best (h : b.Valid start input) {refs : List ItemRef} {j : Nat} (distinct : refs.Nodup)
    (posed : ∀ ref ∈ refs, ref.state = j ∧ Posed b.grammar b.states (.trees ref)) :
    Best b.limit b.maxPenalty (fun x => ∃ ref ∈ refs, Sound b.grammar input b.states (.trees ref) x)
      (fun x => ∃ ref ∈ refs, Derived b.grammar b.states ∅ (.trees ref) x) ((b.treesOf refs).map .single) := by
  have all := collected_all h (answers_valid h b.goalBound) Active.none_valid (by simp [Active.none]) blank_valid
    distinct posed
  refine Best.mono all.results (fun _ sound => sound) ?_
  rintro x ⟨ref, member, derived⟩ _
  refine ⟨ref, member, derived.antitone ?_⟩
  rintro goal ⟨least, d, -, found, -⟩
  simp at found

/-- The trees of a target that derives nothing, found from scratch. -/
theorem nullTrees_best (h : b.Valid start input) {j : Nat} {target : Target}
    (posed : Posed b.grammar b.states (.nulls j target)) :
    Answered b input ∅ (.nulls j target) ((b.nullTrees j target).map .single) := by
  have all := (answers_valid h b.goalBound).nulls Active.none_valid (by simp [Active.none]) blank_valid posed
  apply all.results.antitone
  rintro goal ⟨least, d, -, found, -⟩
  simp at found

theorem emptyTrees_best (h : b.Valid start input) {r : RuleId} (posed : Posed b.grammar b.states (.nulls 0 (.rule r))) :
    Answered b input ∅ (.nulls 0 (.rule r)) ((b.emptyTrees r).map .single) :=
  nullTrees_best h posed

end Earley.Forest
