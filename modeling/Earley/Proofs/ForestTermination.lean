import Earley.Forest.Marked
import Earley.Proofs.ForestTransparency
import Earley.Proofs.ParserSafety

/-!
# The search for trees ends

A goal is struck out whenever the work on it ends, and it is not written down twice. So the goals in the table are
distinct, at most as many as there are, and each that is written down leaves one less to come. The search that marks
its goals has a result for this reason, and it is the result of the search that counts its depth (`search_ends`).
-/

namespace Earley

namespace Forest.Marked

open Chart

variable {b : Source} {start : RuleId} {input : List Token} {fuel : Nat} {active : Active} {work : Work}

def Proper (b : Source) (table : List (Goal × Nat)) : Prop :=
  (table.map Prod.fst).Nodup ∧ ∀ x ∈ table, x.1 ∈ allGoals b.grammar b.states

/-- The table has the goals that are being worked on, with their depths. -/
structure Work.Valid (b : Source) (active : Active) (work : Work) : Prop where
  depth : work.active.length = active.depth
  lookup : ∀ goal, work.active.lookup goal = active.depth? goal
  proper : Proper b work.active
  tables : ∀ table ∈ work.tables, Proper b table

/-- Work that ends with the results of the other search and the table it began with. -/
structure Tracks {α : Type} (b : Source) (table : List (Goal × Nat)) (found : Found α) (out : Outcome α) : Prop where
  results : out.results = found.results
  cut : out.cut = found.cut
  memo : out.work.memo = found.memo
  active : out.work.active = table
  tables : ∀ table ∈ out.work.tables, Proper b table

theorem Work.idle_valid (b : Source) (memo : Memo) : (Work.idle memo).Valid b .none :=
  ⟨rfl, by simp [Work.idle], ⟨.nil, by simp [Work.idle]⟩, by simp [Work.idle]⟩

theorem Tracks.valid {α : Type} {found : Found α} {out : Outcome α} (valid : work.Valid b active)
    (tracks : Tracks b work.active found out) : out.work.Valid b active :=
  ⟨tracks.active ▸ valid.depth, tracks.active ▸ valid.lookup, tracks.active ▸ valid.proper, tracks.tables⟩

/-- Fewer goals are down than the search that counts allows for. -/
theorem Work.Valid.depth_lt (valid : work.Valid b active) : active.depth < b.goalBound := by
  have inside : work.active.map Prod.fst ⊆ allGoals b.grammar b.states := by
    intro goal listed
    obtain ⟨x, member, rfl⟩ := List.mem_map.mp listed
    exact valid.proper.2 x member
  have := (valid.proper.1.subperm inside).length_le
  rw [List.length_map, valid.depth] at this
  rw [← length_allGoals]
  omega

theorem Work.Valid.not_exhausted (valid : work.Valid b active) : ¬ b.goalBound ≤ 0 + active.depth := by
  have := valid.depth_lt
  omega

theorem lookup_none {goal : Goal} {table : List (Goal × Nat)} (new : table.lookup goal = none) :
    ∀ x ∈ table, x.1 ≠ goal := by
  intro x member same
  have := List.lookup_eq_none_iff.mp new x member
  simp [same] at this

/-- A goal that is not down yet is written down, and nothing else changes. -/
theorem Work.Valid.enter (valid : work.Valid b active) {goal : Goal} (known : goal ∈ allGoals b.grammar b.states)
    (new : active.depth? goal = none) : ∃ entered, work.enter goal = .ok entered ∧ entered.memo = work.memo ∧
      entered.active = (goal, active.depth) :: work.active ∧ entered.Valid b (active.push goal) := by
  have free : work.active.lookup goal = none := (valid.lookup goal).trans new
  have proper : Proper b ((goal, active.depth) :: work.active) := by
    refine ⟨List.nodup_cons.mpr ⟨fun inside => ?_, valid.proper.1⟩, ?_⟩
    · obtain ⟨x, member, same⟩ := List.mem_map.mp inside
      exact lookup_none free x member same
    · exact List.forall_mem_cons.mpr ⟨known, valid.proper.2⟩
  simp only [Work.enter, free, valid.depth]
  refine ⟨_, rfl, rfl, rfl, ?_, fun other => ?_, proper, List.forall_mem_cons.mpr ⟨proper, valid.tables⟩⟩
  · simp [Active.push, valid.depth]
  · rw [Active.depth?_push, List.lookup_cons, ← valid.lookup other]
    by_cases same : goal = other
    · simp [same]
    · rw [beq_eq_false_iff_ne.mpr (Ne.symm same), if_neg same]

theorem Work.Valid.enter_again (valid : work.Valid b active) {goal : Goal} {d : Nat}
    (down : active.depth? goal = some d) : work.enter goal = .error d := by
  simp only [Work.enter, (valid.lookup goal).trans down]

/-- The goal that was written down last is struck out, and the table is as it was before. -/
theorem settle_tracks {α : Type} (valid : work.Valid b active) {goal : Goal} (new : active.depth? goal = none)
    (keep : Memo → List α → Memo) (results : List α) {cut : Option Nat} {memo : Memo} {after : Work}
    (down : after.active = (goal, active.depth) :: work.active) (remembered : after.memo = memo)
    (tables : ∀ table ∈ after.tables, Proper b table) :
    Tracks b work.active (settled active.depth keep results cut memo)
      (settle goal work.active.length keep results cut after) := by
  have back : (after.leave goal).active = work.active := by
    have others : work.active.filter (fun x => x.1 ≠ goal) = work.active :=
      List.filter_eq_self.mpr fun x member =>
        decide_eq_true (lookup_none ((valid.lookup goal).trans new) x member)
    simp only [Work.leave, down]
    rw [List.filter_cons_of_neg (by simp), others]
  rw [valid.depth, settle, settled]
  cases outerCut active.depth cut with
  | none => exact ⟨rfl, rfl, congrArg (keep · results) remembered, back, tables⟩
  | some d => exact ⟨rfl, rfl, remembered, back, tables⟩

/-- Where each element is tracked, so is the whole list. -/
theorem foldlM_tracks {α β : Type} {step : Outcome α → β → Option (Outcome α)} {next : Found α → β → Found α}
    {table : List (Goal × Nat)} {as : List β}
    (each : ∀ a ∈ as, ∀ found out, Tracks b table found out →
      ∃ out', step out a = some out' ∧ Tracks b table (next found a) out')
    {found : Found α} {out : Outcome α} (tracks : Tracks b table found out) :
    ∃ out', as.foldlM step out = some out' ∧ Tracks b table (as.foldl next found) out' := by
  induction as generalizing found out with
  | nil => exact ⟨out, rfl, tracks⟩
  | cons a as ih =>
    obtain ⟨first, others⟩ := List.forall_mem_cons.mp each
    obtain ⟨out', stepped, tracks'⟩ := first found out tracks
    simp only [List.foldlM_cons, stepped, Option.bind_eq_bind, Option.bind_some, List.foldl_cons]
    exact ih others tracks'

/-- Goals about the items of a chart are about items that there are. -/
theorem item_of_mem_allGoals {g : Grammar} {states : Array State} {ref : ItemRef}
    (known : .stems ref ∈ allGoals g states ∨ .trees ref ∈ allGoals g states) :
    ∃ item, itemAt states ref = some item := by
  have found : ∃ s j, (s, j) ∈ states.toList.zipIdx ∧ ∃ i < s.items.size, (⟨j, i⟩ : ItemRef) = ref := by
    simp only [allGoals, nullGoals, itemGoals, List.mem_append, List.mem_flatMap, List.mem_map, List.mem_range,
      List.mem_cons, List.not_mem_nil, or_false] at known
    grind
  obtain ⟨s, j, state, i, inside, rfl⟩ := found
  have there : states[j]? = some s := by simpa [List.mem_zipIdx_iff_getElem?] using state
  exact ⟨s.items[i], by simp [itemAt, there, inside]⟩

/-- With at most `fuel` goals left, the search that marks its goals ends as the one that counts does. -/
structure Agrees (b : Source) (fuel : Nat) : Prop where
  stems : ∀ {active} {work : Work} {ref}, work.Valid b active → b.goalBound ≤ fuel + active.depth →
    .stems ref ∈ allGoals b.grammar b.states →
    ∃ out, work.stems b ref = some out ∧ Tracks b work.active (b.stems fuel active work.memo ref) out
  trees : ∀ {active} {work : Work} {ref}, work.Valid b active → b.goalBound ≤ fuel + active.depth →
    .trees ref ∈ allGoals b.grammar b.states →
    ∃ out, work.trees b ref = some out ∧ Tracks b work.active (b.trees fuel active work.memo ref) out
  nulls : ∀ {active} {work : Work} {j target}, work.Valid b active → b.goalBound ≤ fuel + active.depth →
    .nulls j target ∈ allGoals b.grammar b.states →
    ∃ out, work.nulls b j target = some out ∧
      Tracks b work.active (b.nulls fuel active work.memo j target) out

abbrev counted (b : Source) (fuel : Nat) : Answers := ⟨b.stems fuel, b.trees fuel, b.nulls fuel⟩

theorem Work.Valid.unchanged {α : Type} (valid : work.Valid b active) (results : List α) (cut : Option Nat) :
    Tracks b work.active ⟨results, cut, work.memo⟩ ⟨results, cut, work⟩ := ⟨rfl, rfl, rfl, rfl, valid.tables⟩

theorem trees_tracks (agrees : Agrees b fuel) (valid : work.Valid b active)
    (enough : b.goalBound ≤ fuel + 1 + active.depth) {ref : ItemRef}
    (known : .trees ref ∈ allGoals b.grammar b.states) :
    ∃ out, work.trees b ref = some out ∧
      Tracks b work.active (b.treesWith (counted b fuel) active work.memo ref) out := by
  rw [Work.trees, Source.treesWith]
  cases work.memo.trees.find? (.trees ref) with
  | some hit => exact ⟨_, rfl, valid.unchanged hit none⟩
  | none =>
    cases new : active.depth? (.trees ref) with
    | some d =>
      rw [valid.enter_again new]
      exact ⟨_, rfl, valid.unchanged [] (some d)⟩
    | none =>
      obtain ⟨entered, down, same, table, valid'⟩ := valid.enter known new
      obtain ⟨item, there⟩ := item_of_mem_allGoals (.inr known)
      obtain ⟨out, ended, tracks⟩ :=
        agrees.stems valid' (by simp only [Active.push]; omega) (mem_allGoals ⟨item, there⟩)
      rw [same] at tracks
      simp only [down, ended, Option.bind_eq_bind, Option.bind_some, tracks.results, tracks.cut]
      exact ⟨_, rfl, settle_tracks valid new (·.keepTrees (.trees ref)) _ (tracks.active.trans table) tracks.memo
        tracks.tables⟩

theorem followLink_tracks (h : b.Valid start input) (agrees : Agrees b fuel) (valid : work.Valid b active)
    (enough : b.goalBound ≤ fuel + active.depth) {ref : ItemRef} {item : Item} (place : itemAt b.states ref = some item)
    {link : Link} (member : link ∈ item.links) (found : Found Stem) (out : Outcome Stem)
    (tracks : Tracks b work.active found out) :
    ∃ out', out.followLink b ref link = some out' ∧
      Tracks b work.active (b.followLink (counted b fuel) active ref found link) out' := by
  obtain ⟨before, posed⟩ := posed_link h place member
  obtain ⟨first, ended, tracks₁⟩ := agrees.stems (tracks.valid valid) enough (mem_allGoals before)
  rw [tracks.memo, tracks.active] at tracks₁
  have valid₁ := tracks₁.valid valid
  simp only [Outcome.followLink, Source.followLink, ended, Option.bind_eq_bind, Option.bind_some, tracks₁.results,
    tracks.results, tracks.cut, tracks₁.cut]
  split
  · exact ⟨_, rfl, rfl, rfl, tracks₁.memo, tracks₁.active, tracks₁.tables⟩
  · cases child : link.child with
    | empty => exact ⟨_, rfl, rfl, rfl, tracks₁.memo, tracks₁.active, tracks₁.tables⟩
    | token =>
      dsimp only
      cases b.leaf? ref.state with
      | none => exact ⟨_, rfl, rfl, rfl, tracks₁.memo, tracks₁.active, tracks₁.tables⟩
      | some leaf => exact ⟨_, rfl, rfl, rfl, tracks₁.memo, tracks₁.active, tracks₁.tables⟩
    | completed c =>
      obtain ⟨second, ended₂, tracks₂⟩ := agrees.trees valid₁ enough (mem_allGoals (posed _ (by rw [child]; rfl)))
      rw [tracks₁.memo, tracks₁.active] at tracks₂
      simp only [ended₂, Option.bind_some, tracks₂.results, tracks₂.cut]
      exact ⟨_, rfl, rfl, rfl, tracks₂.memo, tracks₂.active, tracks₂.tables⟩
    | null target =>
      obtain ⟨second, ended₂, tracks₂⟩ := agrees.nulls valid₁ enough (mem_allGoals (posed _ (by rw [child]; rfl)))
      rw [tracks₁.memo, tracks₁.active] at tracks₂
      simp only [ended₂, Option.bind_some, tracks₂.results, tracks₂.cut]
      exact ⟨_, rfl, rfl, rfl, tracks₂.memo, tracks₂.active, tracks₂.tables⟩

theorem stems_tracks (h : b.Valid start input) (agrees : Agrees b fuel) (valid : work.Valid b active)
    (enough : b.goalBound ≤ fuel + 1 + active.depth) {ref : ItemRef}
    (known : .stems ref ∈ allGoals b.grammar b.states) :
    ∃ out, work.stems b ref = some out ∧
      Tracks b work.active (b.stemsWith (counted b fuel) active work.memo ref) out := by
  obtain ⟨item, there⟩ := item_of_mem_allGoals (.inl known)
  have place : b.item? ref = some item := there
  rw [Work.stems, Source.stemsWith]
  cases work.memo.stems.find? ref with
  | some hit => exact ⟨_, rfl, valid.unchanged hit none⟩
  | none =>
    simp only [place]
    split
    · exact ⟨_, rfl, rfl, rfl, rfl, rfl, valid.tables⟩
    · cases new : active.depth? (.stems ref) with
      | some d =>
        rw [valid.enter_again new]
        exact ⟨_, rfl, valid.unchanged [] (some d)⟩
      | none =>
        obtain ⟨entered, down, same, table, valid'⟩ := valid.enter known new
        have enough' : b.goalBound ≤ fuel + (active.push (.stems ref)).depth := by simp only [Active.push]; omega
        obtain ⟨out, ended, tracks⟩ := foldlM_tracks
          (fun link member => followLink_tracks h agrees valid' enough' there (Array.mem_toList_iff.mp member))
          (valid'.unchanged [] none)
        rw [same, Array.foldl_toList] at tracks
        simp only [down, ended, Option.bind_eq_bind, Option.bind_some, tracks.results, tracks.cut]
        exact ⟨_, rfl, settle_tracks valid new (·.keepStems ref) _ (tracks.active.trans table) tracks.memo
          tracks.tables⟩

theorem followCompletion_tracks (agrees : Agrees b fuel) (valid : work.Valid b active)
    (enough : b.goalBound ≤ fuel + active.depth) {ref : ItemRef} (known : .trees ref ∈ allGoals b.grammar b.states)
    (found : Found Tree) (out : Outcome Tree) (tracks : Tracks b work.active found out) :
    ∃ out', out.followCompletion b ref = some out' ∧
      Tracks b work.active (b.followCompletion (counted b fuel) active found ref) out' := by
  obtain ⟨inner, ended, tracks'⟩ := agrees.trees (tracks.valid valid) enough known
  rw [tracks.memo, tracks.active] at tracks'
  simp only [Outcome.followCompletion, Source.followCompletion, ended, Option.bind_eq_bind, Option.bind_some,
    tracks.results, tracks.cut, tracks'.results, tracks'.cut]
  exact ⟨_, rfl, rfl, rfl, tracks'.memo, tracks'.active, tracks'.tables⟩

theorem nulls_tracks (agrees : Agrees b fuel) (valid : work.Valid b active)
    (enough : b.goalBound ≤ fuel + 1 + active.depth) {j : Nat} {target : Target}
    (known : .nulls j target ∈ allGoals b.grammar b.states) :
    ∃ out, work.nulls b j target = some out ∧
      Tracks b work.active (b.nullsWith (counted b fuel) active work.memo j target) out := by
  rw [Work.nulls, Source.nullsWith]
  cases work.memo.trees.find? (.nulls j target) with
  | some hit => exact ⟨_, rfl, valid.unchanged hit none⟩
  | none =>
    cases new : active.depth? (.nulls j target) with
    | some d =>
      rw [valid.enter_again new]
      exact ⟨_, rfl, valid.unchanged [] (some d)⟩
    | none =>
      obtain ⟨entered, down, same, table, valid'⟩ := valid.enter known new
      have enough' : b.goalBound ≤ fuel + (active.push (.nulls j target)).depth := by simp only [Active.push]; omega
      have there : ∀ ref ∈ b.emptyCompletions j target, .trees ref ∈ allGoals b.grammar b.states := by
        intro ref member
        obtain ⟨item, found, -, done, -⟩ := mem_emptyCompletions.mp member
        exact mem_allGoals ⟨item, target, found, done⟩
      obtain ⟨out, ended, tracks⟩ := foldlM_tracks
        (fun ref member => followCompletion_tracks agrees valid' enough' (there ref member)) (valid'.unchanged [] none)
      rw [same] at tracks
      simp only [down, ended, Option.bind_eq_bind, Option.bind_some, tracks.results, tracks.cut]
      exact ⟨_, rfl, settle_tracks valid new (·.keepTrees (.nulls j target)) _ (tracks.active.trans table) tracks.memo
        tracks.tables⟩

/-- Each goal written down leaves one less to come, so it is by the goals left that the search ends. -/
theorem agrees (h : b.Valid start input) (fuel : Nat) : Agrees b fuel := by
  induction fuel with
  | zero =>
    exact ⟨fun valid enough => absurd enough valid.not_exhausted, fun valid enough => absurd enough valid.not_exhausted,
      fun valid enough => absurd enough valid.not_exhausted⟩
  | succ fuel ih =>
    refine ⟨fun valid enough known => ?_, fun valid enough known => ?_, fun valid enough known => ?_⟩
    · rw [Source.stems]
      exact stems_tracks h ih valid enough known
    · rw [Source.trees]
      exact trees_tracks ih valid enough known
    · rw [Source.nulls]
      exact nulls_tracks ih valid enough known

/-- A search begun while there is no other ends, and leaves no goal behind. -/
theorem search_valid (h : b.Valid start input) (memo : Memo) {goal : Goal}
    (known : goal ∈ allGoals b.grammar b.states) :
    ∃ work, search b memo goal = some work ∧ work.active = [] ∧ ∀ table ∈ work.tables, Proper b table := by
  have idle := Work.idle_valid b memo
  have enough : b.goalBound ≤ b.goalBound + Active.none.depth := Nat.le_add_right ..
  cases goal with
  | stems ref =>
    obtain ⟨out, ended, tracks⟩ := (agrees h b.goalBound).stems idle enough known
    exact ⟨out.work, by simp [search, ended], tracks.active, tracks.tables⟩
  | trees ref =>
    obtain ⟨out, ended, tracks⟩ := (agrees h b.goalBound).trees idle enough known
    exact ⟨out.work, by simp [search, ended], tracks.active, tracks.tables⟩
  | nulls j target =>
    obtain ⟨out, ended, tracks⟩ := (agrees h b.goalBound).nulls idle enough known
    exact ⟨out.work, by simp [search, ended], tracks.active, tracks.tables⟩

theorem treesOf_eq (h : b.Valid start input) {refs : List ItemRef}
    (known : ∀ ref ∈ refs, .trees ref ∈ allGoals b.grammar b.states) :
    (treesOf b refs).map (·.results) = some (b.treesOf refs) := by
  have idle := Work.idle_valid b .blank
  obtain ⟨out, ended, tracks⟩ := foldlM_tracks
    (fun ref member => followCompletion_tracks (agrees h b.goalBound) idle (Nat.le_add_right ..) (known ref member))
    (idle.unchanged [] none)
  rw [treesOf, ended, Option.map_some, tracks.results]
  rfl

theorem nullTrees_eq (h : b.Valid start input) {j : Nat} {target : Target}
    (known : .nulls j target ∈ allGoals b.grammar b.states) :
    ((Work.idle .blank).nulls b j target).map (·.results) = some (b.nullTrees j target) := by
  obtain ⟨out, ended, tracks⟩ :=
    (agrees h b.goalBound).nulls (Work.idle_valid b .blank) (Nat.le_add_right ..) known
  rw [ended, Option.map_some, tracks.results]
  rfl

theorem emptyTrees_eq (h : b.Valid start input) {r : RuleId}
    (known : .nulls 0 (.rule r) ∈ allGoals b.grammar b.states) :
    (emptyTrees b r).map (·.results) = some (b.emptyTrees r) :=
  nullTrees_eq h known

end Forest.Marked

namespace Parser

open Chart Forest

variable {p : Parser}

/-- Until a parser has run there is no goal, and after a run the chart is that of an input. -/
theorem Known.search (known : p.Known) (built : Reachable p.grammar) {limit : Nat} (positive : 0 < limit)
    (maxPenalty : Penalty) (memo : Memo) {goal : Goal} (asked : goal ∈ allGoals p.grammar p.states) :
    ∃ work, Marked.search ⟨p.grammar, p.states, limit, maxPenalty⟩ memo goal = some work ∧ work.active = [] ∧
      ∀ table ∈ work.tables, Marked.Proper ⟨p.grammar, p.states, limit, maxPenalty⟩ table := by
  cases known with
  | nothing fresh =>
    rw [fresh] at asked
    simp [allGoals] at asked
  | @ran start tokens _ states =>
    have charted := (build_charted built.analyzed start tokens).1
    rw [← states] at charted
    exact Marked.search_valid ⟨charted, built.inScope, positive⟩ memo asked

theorem Known.markedTrees_eq (known : p.Known) (built : Reachable p.grammar) (limit : Nat) :
    p.markedTrees limit = some (p.cheapestTrees limit) := by
  unfold markedTrees cheapestTrees
  cases known with
  | nothing _ idle =>
    have none : p.hasParse = false := by simp [hasParse, idle]
    simp only [none]
    cases p.grammar.start <;> rfl
  | @ran start tokens starts states outcome =>
    have charted := (build_charted built.analyzed start tokens).1
    rw [← states] at charted
    let b : Source := ⟨p.grammar, p.states, max limit 1, p.config.maxPenalty⟩
    have valid : b.Valid start _ := ⟨charted, built.inScope, Nat.le_max_right limit 1⟩
    obtain ⟨first, begun, -⟩ := charted.begun
    simp only [starts]
    split
    · rfl
    · split
      · exact Marked.emptyTrees_eq valid
          (mem_allGoals ⟨(Array.getElem?_eq_some_iff.mp begun).1, built.inScope.start starts⟩)
      · refine Marked.treesOf_eq valid fun ref member => ?_
        obtain ⟨item, found, -, -, done⟩ := mem_acceptingRefs.mp member
        exact mem_allGoals ⟨item, _, found, done⟩

/-- Whatever calls a parser has seen, and however many and however dear trees are asked for, the work on a goal ends and
leaves no goal being worked on, whatever is remembered when it begins. All the time the goals being worked on were
distinct and among the finitely many that there are. So all trees are found without a count of the depth. -/
theorem search_ends (p : Parser) (arises : p.Arises) (limit : Nat) :
    (∀ maxPenalty memo, ∀ goal ∈ allGoals p.grammar p.states, ∃ work,
      Marked.search ⟨p.grammar, p.states, max limit 1, maxPenalty⟩ memo goal = some work ∧ work.active = [] ∧
      ∀ table ∈ work.tables, (table.map Prod.fst).Nodup ∧ ∀ x ∈ table, x.1 ∈ allGoals p.grammar p.states) ∧
    p.markedTrees limit = some (p.cheapestTrees limit) := by
  obtain ⟨built, known⟩ := arises.known
  exact ⟨fun maxPenalty memo goal asked => known.search built (Nat.le_max_right limit 1) maxPenalty memo asked,
    known.markedTrees_eq built limit⟩

/-- The trees of a letter by rules that derive each other for free. -/
theorem search_knotGrammar_ends :
    ∃ outcome q, (run [.ofChar 'a']).run (.new knotGrammar {}) = .ok outcome q ∧
      (∃ ref ∈ acceptingRefs q.states ⟨2⟩, ∃ work,
        Marked.search ⟨q.grammar, q.states, 256, 0⟩ .blank (.trees ref) = some work ∧ work.active = []) ∧
      q.markedTrees 256 = some (q.cheapestTrees 256) ∧ (q.cheapestTrees 256).length = 4 := by
  have ran := run_eq (.new knotGrammar {}) [.ofChar 'a'] rfl knotGrammar_start
  have arises : Arises (.new knotGrammar {}) := .new knotGrammar_reachable {}
  obtain ⟨ends, found⟩ := search_ends _ (arises.run ran) 256
  have roots : acceptingRefs (build knotGrammar ⟨2⟩ [.ofChar 'a']).1 ⟨2⟩ ≠ [] := by decide +kernel
  have asked : ∀ ref ∈ acceptingRefs (build knotGrammar ⟨2⟩ [.ofChar 'a']).1 ⟨2⟩,
      Goal.trees ref ∈ allGoals knotGrammar (build knotGrammar ⟨2⟩ [.ofChar 'a']).1 := by decide +kernel
  obtain ⟨ref, member⟩ := List.exists_mem_of_ne_nil _ roots
  obtain ⟨work, ended, idle, -⟩ := ends 0 .blank (.trees ref) (asked ref member)
  refine ⟨_, _, ran, ⟨ref, member, work, ended, idle⟩, found, ?_⟩
  decide +kernel

end Parser

end Earley
