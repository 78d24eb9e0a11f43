import Earley.Proofs.ChartBound
import Earley.Proofs.Construction
import Earley.Proofs.ForestGoals

/-!
# Goals being worked on

Only finitely many goals can come up, and none is worked on twice at once. So goals are nested less deeply than
the search allows for, and it is never cut short for that reason.
-/

namespace Earley

def Chart.Target.Known (g : Grammar) : Chart.Target → Prop
  | .rule r => r.index < g.rules.size
  | .group k => k.index < g.groups.size
  | .iteration k => k.index < g.groups.size

namespace Chart

/-- The symbols that an item walks along are in scope. -/
theorem Owner.Walks.inScope {g : Grammar} (inScope : g.Scoped) {owner : Owner} (walks : owner.Walks g) {s : Symbol}
    (inside : s ∈ g.symbolsOf owner) : s.InScope g.rules.size g.groups.size g.sets.size := by
  cases owner with
  | group k => exact walks.elim
  | rule r n =>
    obtain ⟨d, known, chosen⟩ := walks.production
    exact inScope.rule known (List.mem_of_getElem? chosen) inside
  | iteration k =>
    obtain ⟨d, known⟩ := walks
    have bound := (Array.getElem?_eq_some_iff.mp known).1
    have inner : s.InScope g.rules.size k.index g.sets.size :=
      inScope.group known (symbolsOf_iteration known ▸ inside)
    exact inner.mono (Nat.le_refl _) (Nat.le_of_lt bound) (Nat.le_refl _)

/-- What an item predicts is in the tables. -/
theorem ItemKey.Valid.known_target {g : Grammar} (inScope : g.Scoped) {j : Nat} {key : ItemKey} {target : Target}
    (valid : key.Valid g j) (op : key.op = .predict target) : target.Known g := by
  cases valid with
  | @dotted owner dot origin walks =>
    have steps : (g.dottedKey owner dot origin).op.part? = some target.part := by rw [op]; rfl
    rw [part?_dotted] at steps
    obtain ⟨s, here, same⟩ := Option.map_eq_some_iff.mp steps
    have scope := walks.inScope inScope (List.mem_of_getElem? here)
    cases target with
    | rule r =>
      cases same
      exact scope
    | group k =>
      cases same
      exact scope
    | iteration k => cases same
  | group known _ _ member =>
    rcases mem_groupKeys.mp member with ⟨-, rfl⟩ | ⟨-, rfl⟩
    · cases op
      exact (Array.getElem?_eq_some_iff.mp known).1
    · cases op

end Chart

namespace Forest

open Chart

def Posed (g : Grammar) (states : Array State) : Goal → Prop
  | .stems ref => ∃ item, itemAt states ref = some item
  | .trees ref => ∃ item target, itemAt states ref = some item ∧ item.key.op = .complete target
  | .nulls j target => j < states.size ∧ target.Known g

def itemGoals (j : Nat) (s : State) : List Goal :=
  (List.range s.items.size).flatMap fun i => [.stems ⟨j, i⟩, .trees ⟨j, i⟩]

def nullGoals (g : Grammar) (j : Nat) : List Goal :=
  (List.range g.rules.size).map (fun r => .nulls j (.rule ⟨r⟩)) ++
    (List.range g.groups.size).flatMap fun k => [.nulls j (.group ⟨k⟩), .nulls j (.iteration ⟨k⟩)]

def allGoals (g : Grammar) (states : Array State) : List Goal :=
  (states.toList.zipIdx.flatMap fun (s, j) => itemGoals j s) ++ (List.range states.size).flatMap (nullGoals g)

theorem total_double {α : Type} (measure : α → Nat) (as : List α) :
    total (fun a => 2 * measure a) as = 2 * total measure as := by
  induction as with
  | nil => rfl
  | cons a as ih => simp [ih, Nat.mul_add]

theorem length_allGoals (b : Source) : (allGoals b.grammar b.states).length + 1 = b.goalBound := by
  have items : (b.states.toList.zipIdx.flatMap fun (s, j) => itemGoals j s).length
      = total (fun s => 2 * s.items.size) b.states.toList :=
    length_flatMap_zipIdx (fun s j => by simp [itemGoals, List.length_flatMap, Nat.mul_comm]) _ _
  have nulls (j : Nat) : (nullGoals b.grammar j).length = b.grammar.rules.size + 2 * b.grammar.groups.size := by
    simp [nullGoals, List.length_flatMap, Nat.mul_comm]
  rw [allGoals, List.length_append, items, total_double, List.length_flatMap]
  simp [nulls, Source.goalBound]

theorem mem_allGoals {g : Grammar} {states : Array State} {goal : Goal} (h : Posed g states goal) :
    goal ∈ allGoals g states := by
  have item {ref : ItemRef} {item : Item} (found : itemAt states ref = some item) :
      ∃ s, (s, ref.state) ∈ states.toList.zipIdx ∧ ref.index < s.items.size := by
    obtain ⟨s, state, inside⟩ := Option.bind_eq_some_iff.mp found
    exact ⟨s, by simpa [List.mem_zipIdx_iff_getElem?] using state, (Array.getElem?_eq_some_iff.mp inside).1⟩
  cases goal with
  | stems ref =>
    obtain ⟨_, found⟩ := h
    obtain ⟨s, state, inside⟩ := item found
    refine List.mem_append_left _ (List.mem_flatMap.mpr ⟨_, state, ?_⟩)
    exact List.mem_flatMap.mpr ⟨ref.index, List.mem_range.mpr inside, by simp⟩
  | trees ref =>
    obtain ⟨_, _, found, -⟩ := h
    obtain ⟨s, state, inside⟩ := item found
    refine List.mem_append_left _ (List.mem_flatMap.mpr ⟨_, state, ?_⟩)
    exact List.mem_flatMap.mpr ⟨ref.index, List.mem_range.mpr inside, by simp⟩
  | nulls j target =>
    obtain ⟨bound, known⟩ := h
    refine List.mem_append_right _ (List.mem_flatMap.mpr ⟨j, List.mem_range.mpr bound, ?_⟩)
    cases target with
    | rule r => exact List.mem_append_left _ (List.mem_map.mpr ⟨r.index, List.mem_range.mpr known, rfl⟩)
    | group k =>
      exact List.mem_append_right _ (List.mem_flatMap.mpr ⟨k.index, List.mem_range.mpr known, by simp⟩)
    | iteration k =>
      exact List.mem_append_right _ (List.mem_flatMap.mpr ⟨k.index, List.mem_range.mpr known, by simp⟩)

/-- Every goal worked on is posed and has a depth of its own. -/
structure Active.Valid (g : Grammar) (states : Array State) (active : Active) : Prop where
  goals : ∃ goals : List Goal, goals.Nodup ∧ goals.length = active.depth ∧
    ∀ goal, goal ∈ goals ↔ ∃ d, active.depth? goal = some d
  posed : ∀ {goal d}, active.depth? goal = some d → Posed g states goal
  below : ∀ {goal d}, active.depth? goal = some d → d < active.depth

variable {g : Grammar} {states : Array State}

theorem Active.none_valid : Active.none.Valid g states :=
  ⟨⟨[], .nil, rfl, by simp⟩, by simp, by simp⟩

theorem Active.Valid.push {active : Active} (h : active.Valid g states) {goal : Goal} (posed : Posed g states goal)
    (new : active.depth? goal = .none) : (active.push goal).Valid g states := by
  obtain ⟨goals, distinct, length, member⟩ := h.goals
  refine ⟨⟨goal :: goals, ?_, by simp [Active.push, length], fun other => ?_⟩, fun {other d} found => ?_,
    fun {other d} found => ?_⟩
  · refine List.nodup_cons.mpr ⟨fun inside => ?_, distinct⟩
    obtain ⟨d, found⟩ := (member goal).mp inside
    rw [new] at found
    cases found
  · rw [List.mem_cons, member, Active.depth?_push]
    by_cases same : goal = other
    · simp [same]
    · simp [same, Ne.symm same]
  · rw [Active.depth?_push] at found
    split at found
    case isTrue same => exact same ▸ posed
    case isFalse => exact h.posed found
  · rw [Active.depth?_push] at found
    split at found
    · cases found
      exact Nat.lt_succ_self _
    · exact Nat.lt_succ_of_lt (h.below found)

/-- Goals are never nested as deeply as the search allows for. -/
theorem Active.Valid.depth_lt {b : Source} {active : Active} (h : active.Valid b.grammar b.states) :
    active.depth < b.goalBound := by
  obtain ⟨goals, distinct, length, member⟩ := h.goals
  have inside : goals ⊆ allGoals b.grammar b.states := by
    intro goal listed
    obtain ⟨d, found⟩ := (member goal).mp listed
    exact mem_allGoals (h.posed found)
  have := (distinct.subperm inside).length_le
  rw [← length_allGoals]
  omega

theorem Active.Valid.not_exhausted {b : Source} {active : Active} (h : active.Valid b.grammar b.states) :
    ¬ b.goalBound ≤ 0 + active.depth := by
  have := h.depth_lt
  omega

/-- The goals that a result with the given cut may have left out: those worked on from that depth on. -/
def avoided (active : Active) (cut : Option Nat) : Set Goal :=
  {goal | ∃ least d, cut = some least ∧ active.depth? goal = some d ∧ least ≤ d}

theorem avoided_none (active : Active) : avoided active .none = ∅ := by
  ext goal
  simp [avoided]

theorem avoided_shallower_left (active : Active) (a b : Option Nat) :
    avoided active a ⊆ avoided active (shallower a b) := by
  rintro goal ⟨least, d, rfl, found, le⟩
  cases b with
  | none => exact ⟨least, d, rfl, found, le⟩
  | some other => exact ⟨_, d, rfl, found, Nat.le_trans (Nat.min_le_left ..) le⟩

theorem avoided_shallower_right (active : Active) (a b : Option Nat) :
    avoided active b ⊆ avoided active (shallower a b) := by
  rintro goal ⟨least, d, rfl, found, le⟩
  cases a with
  | none => exact ⟨least, d, rfl, found, le⟩
  | some other => exact ⟨_, d, rfl, found, Nat.le_trans (Nat.min_le_right ..) le⟩

/-- Once a goal is done, only cuts on behalf of goals further out remain. -/
theorem avoided_push {active : Active} (h : active.Valid g states) (goal : Goal) (cut : Option Nat) :
    avoided (active.push goal) cut ⊆ insert goal (avoided active (outerCut active.depth cut)) := by
  rintro other ⟨least, d, rfl, found, le⟩
  rw [Active.depth?_push] at found
  split at found
  case isTrue same => exact Set.mem_insert_iff.mpr (.inl same.symm)
  case isFalse =>
    have := h.below found
    refine Set.mem_insert_iff.mpr (.inr ⟨least, d, ?_, found, le⟩)
    simp only [outerCut, Option.filter_some, decide_eq_true_eq]
    rw [if_pos (by omega)]

end Forest

end Earley
