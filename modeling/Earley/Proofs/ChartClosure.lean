import Earley.Proofs.ChartItems

/-!
# Closing a state

Serving an item adds what the item calls for and keeps all items justified. So a state all of whose items have
been served is closed: whatever an item predicts, passes over or completes there has had its effect.
-/

namespace Earley

open Chart

/-- The cost of deriving nothing from a target is that of some trees. -/
theorem Grammar.Analyzed.parses_null {g : Grammar} (h : g.Analyzed) {target : Target} {q : Penalty}
    (found : g.targetNullCost target = some q) (input : List Token) (i : Nat) :
    ∃ us, g.Parses input [target.part] i i us q := by
  have nowhere : Grammar.Placed [] input i := by intro n t here; simp at here
  cases target with
  | rule r => exact (h.realized.rule found).parses input i nowhere
  | group k => exact (h.realized.group found).parses input i nowhere
  | iteration k =>
    obtain ⟨d, known, cost⟩ := Option.bind_eq_some_iff.mp found
    obtain ⟨us, inner⟩ := (h.realized.production cost).parses input i nowhere
    exact ⟨_, by simpa [Target.part] using Grammar.Parses.iteration known inner .nil⟩

/-- Whatever has a tree over no input has a cost of deriving nothing, and no tree costs less. -/
theorem Grammar.Analyzed.targetNullCost_le {g : Grammar} (h : g.Analyzed) {target : Target} {input : List Token}
    {i : Nat} {us : List Tree} {q : Penalty} (parsed : g.Parses input [target.part] i i us q) :
    ∃ c, g.targetNullCost target = some c ∧ c ≤ q := by
  have derived := parsed.derives
  rw [slice_self] at derived
  obtain ⟨a, total, le⟩ := h.settled.le_of_derives derived rfl
  cases target with
  | rule r =>
    rw [show List.flatMap _ _ = [Symbol.rule r] from rfl, NullCost.production_singleton] at total
    exact ⟨a, total, le⟩
  | group k =>
    rw [show List.flatMap _ _ = [Symbol.group k] from rfl, NullCost.production_singleton] at total
    exact ⟨a, total, le⟩
  | iteration k =>
    cases parsed with
    | iteration known =>
      simp only [Target.part, List.flatMap_cons, List.flatMap_nil, partSymbols, known, List.append_nil] at total
      exact ⟨a, by simp [Grammar.targetNullCost, known, total], le⟩

theorem Grammar.Analyzed.isSome_targetNullCost {g : Grammar} (h : g.Analyzed) {target : Target} {input : List Token}
    {i : Nat} {us : List Tree} {q : Penalty} (parsed : g.Parses input [target.part] i i us q) :
    (g.targetNullCost target).isSome = true := by
  obtain ⟨c, cost, -⟩ := h.targetNullCost_le parsed
  exact Option.isSome_iff_exists.mpr ⟨c, cost⟩

namespace Chart

/-- Closed states, whose items are all justified. -/
structure PastValid (g : Grammar) (input : List Token) (past : Array State) : Prop where
  coherent : ∀ {j : Nat} {s : State}, past[j]? = some s → s.Coherent
  items : ∀ {j : Nat} {s : State}, past[j]? = some s → s.All (ItemValid g input past j)

structure Growing (g : Grammar) (input : List Token) (past : Array State) (s : State) : Prop where
  coherent : s.Coherent
  items : s.All (ItemValid g input (past.push s) past.size)

structure GrownFrom (g : Grammar) (input : List Token) (past : Array State) (s s' : State) : Prop where
  growing : Growing g input past s'
  more : s.Extends s'

variable {g : Grammar} {input : List Token} {past : Array State} {s s' s'' : State}

theorem Growing.refl (h : Growing g input past s) : GrownFrom g input past s s := ⟨h, .refl s⟩

theorem GrownFrom.trans (h : GrownFrom g input past s s') (k : GrownFrom g input past s' s'') :
    GrownFrom g input past s s'' := ⟨k.growing, h.more.trans k.more⟩

theorem hasKey_push {i : Nat} {item : Item} (found : s.items[i]? = some item) :
    HasKey (past.push s) ⟨past.size, i⟩ item.key :=
  ⟨item, by simp [itemAt, found], rfl⟩

theorem Growing.add (h : Growing g input past s) {cause : Cause} {key : ItemKey}
    (reason : cause.Justifies g input (past.push s) past.size key) :
    GrownFrom g input past s (s.add past.size cause key).1 ∧
      ∃ (i : Nat) (item : Item), (s.add past.size cause key).1.items[i]? = some item ∧ item.key = key ∧
        cause.Noted item := by
  have added := State.add_added h.coherent past.size cause key
  obtain ⟨item, found, same, noted⟩ := added.noted
  have later := chartExtends_push past added.more
  have reason' := reason.mono later
  refine ⟨⟨⟨added.coherent, ?_⟩, added.more⟩, _, item, found, same, noted⟩
  have here : HasKey (past.push (s.add past.size cause key).1) (s.add past.size cause key).2 key :=
    ⟨item, by simp [itemAt, added.state, found], same⟩
  intro i other place
  exact added.all (fun found => (h.items found).mono later)
    (fun known same => Cause.Justifies.rearrive (same ▸ reason') known) (reason'.arrive added.state here) place

/-- Adding keys for a good reason. -/
theorem Growing.addAll (h : Growing g input past s) {cause : Cause} {keys : List ItemKey}
    (reason : ∀ key ∈ keys, cause.Justifies g input (past.push s) past.size key) :
    GrownFrom g input past s (s.addAll past.size cause keys).1 ∧
      ∀ key ∈ keys, ∃ (i : Nat) (item : Item), (s.addAll past.size cause keys).1.items[i]? = some item ∧
        item.key = key ∧ cause.Noted item := by
  induction keys generalizing s with
  | nil => exact ⟨h.refl, by simp⟩
  | cons key keys ih =>
    obtain ⟨here, others⟩ := List.forall_mem_cons.mp reason
    obtain ⟨first, i, item, found, same, noted⟩ := h.add here
    have later := chartExtends_push past first.more
    obtain ⟨rest, present⟩ := ih first.growing fun key member => (others key member).mono later
    refine ⟨first.trans rest, List.forall_mem_cons.mpr ⟨?_, present⟩⟩
    obtain ⟨item', found', grows⟩ := rest.more.item found
    exact ⟨i, item', found', grows.key.trans same, noted.grows grows⟩

/-- Notes on an item that no later step looks at. -/
theorem Growing.note (h : Growing g input past s) (i : Nat) (f : Item → Item)
    (same : ∀ item : Item, (f item).key = item.key ∧ (f item).start = item.start ∧ (f item).links = item.links ∧
      (f item).penalty = item.penalty) : GrownFrom g input past s (s.mapItem i f) := by
  have more : s.Extends (s.mapItem i f) := State.mapItem_extends s i fun item =>
    ⟨(same item).1, (same item).2.1, fun member => by rw [(same item).2.2.1]; exact member⟩
  refine ⟨⟨h.coherent.mapItem i fun item => (same item).1, ?_⟩, more⟩
  intro j item found
  rw [State.getElem?_mapItem] at found
  have kept {item : Item} (found : s.items[j]? = some item) :=
    (h.items found).mono (chartExtends_push past more)
  split at found
  · obtain ⟨old, place, rfl⟩ := Option.map_eq_some_iff.mp found
    obtain ⟨key, start, links, penalty⟩ := same old
    have valid := kept place
    exact ⟨by rw [key]; exact valid.key, by rw [key, links]; exact valid.opening,
      by rw [key, links]; exact valid.origin, by rw [links]; exact valid.distinct,
      by rw [key, links]; exact valid.link, by rw [key, start]; exact valid.begun,
      by rw [key, penalty]; exact valid.real⟩
  · exact kept found

/-- Moving an item on adds the items after it, with a link to it. -/
theorem Growing.advance (h : Growing g input past s) (ref : ItemRef) {item : Item} (child : Child) {cost : Penalty}
    {part : Part} {us : List Tree} (has : HasKey (past.push s) ref item.key)
    (valid : ItemValid g input (past.push s) ref.state item)
    (consumed : ChildValid g (past.push s) past.size ref.state item.key child)
    (steps : item.key.op.part? = some part) (crossed : g.Parses input [part] ref.state past.size us cost) :
    GrownFrom g input past s (Chart.advance g past.size s ref item child cost).1 ∧
      ((ref.state = past.size → g.isSaturated item.key = false) → ∀ key ∈ g.nextKeys item.key,
        (Chart.advance g past.size s ref item child cost).1.HoldsLink key ⟨ref, child⟩) := by
  unfold Chart.advance
  split
  case isTrue stuck =>
    refine ⟨h.refl, fun moved => ?_⟩
    rw [moved stuck.1] at stuck
    cases stuck.2
  case isFalse free =>
    have moved : ref.state = past.size → g.isSaturated item.key = false := fun same => by
      cases saturated : g.isSaturated item.key with
      | false => rfl
      | true => exact absurd ⟨same, saturated⟩ free
    obtain ⟨ts, behind⟩ := valid.real
    have reason (key : ItemKey) (member : key ∈ g.nextKeys item.key) :
        (Cause.advanced ⟨ref, child⟩ (item.penalty + cost) item.start).Justifies g input (past.push s) past.size key := by
      obtain ⟨origin, later⟩ := next_origin valid.key member
      refine ⟨valid.key.next crossed.start_le_finish steps member, later,
        ⟨item.key, has, valid.key, member, moved, consumed⟩, ?_, _, behind.next valid.key steps crossed member⟩
      rw [origin, firstKey_next valid.key steps member]
      exact valid.begun
    obtain ⟨grown, present⟩ := h.addAll reason
    refine ⟨grown, fun _ key member => ?_⟩
    obtain ⟨i, new, found, same, noted⟩ := present key member
    exact ⟨i, new, found, same, noted⟩

/-- Only groups predict repetitions, and they are known. -/
theorem ItemKey.Valid.known_iteration {j : Nat} {key : ItemKey} {k : GroupId} (h : key.Valid g j)
    (op : key.op = .predict (.iteration k)) : ∃ d, g.group? k = some d := by
  cases h with
  | @dotted owner dot origin =>
    have steps : (g.dottedKey owner dot origin).op.part? = some (.iteration k) := by rw [op]; rfl
    rw [part?_dotted] at steps
    obtain ⟨s, -, wrong⟩ := Option.map_eq_some_iff.mp steps
    cases wrong
  | @group k' d origin count key known counted begun member =>
    rcases mem_groupKeys.mp member with ⟨-, rfl⟩ | ⟨-, rfl⟩
    · cases op
      exact ⟨d, known⟩
    · cases op

/-- What serving the item at position `i` of state number `j` leaves behind in the state. -/
structure Served (g : Grammar) (states : Array State) (j : Nat) (s : State) (i : Nat) (key : ItemKey) : Prop where
  opened : ∀ {target}, key.op = .predict target → ∀ {k}, k ∈ g.openingKeys target j → s.Holds k
  skipped : ∀ {target}, key.op = .predict target → (g.targetNullCost target).isSome = true →
    g.isSaturated key = false → ∀ {k}, k ∈ g.nextKeys key → s.HoldsLink k ⟨⟨j, i⟩, .null target⟩
  passed : key.op = .passEmpty → ∀ {k}, k ∈ g.nextKeys key → s.HoldsLink k ⟨⟨j, i⟩, .empty⟩
  resumed : ∀ {target}, key.op = .complete target → key.origin < j → ∀ {opened : State} {w : Nat} {waiter : Item},
    states[key.origin]? = some opened → opened.items[w]? = some waiter → waiter.key.op = .predict target →
    ∀ {k}, k ∈ g.nextKeys waiter.key → s.HoldsLink k ⟨⟨key.origin, w⟩, .completed ⟨j, i⟩⟩

theorem Served.mono {states : Array State} {j i : Nat} {key : ItemKey} (h : Served g states j s i key)
    (more : s.Extends s') : Served g states j s' i key where
  opened op _ member := (h.opened op member).mono more
  skipped op null free _ member := (h.skipped op null free member).mono more
  passed op _ member := (h.passed op member).mono more
  resumed op old _ _ _ state waits predicts _ member := (h.resumed op old state waits predicts member).mono more

/-- An item that predicts is served by what starts there and, where that can be nothing, by a step over it. -/
theorem Served.of_predict {i : Nat} {key : ItemKey} {target : Target} (op : key.op = .predict target)
    (opened : ∀ {k}, k ∈ g.openingKeys target past.size → s.Holds k)
    (skipped : (g.targetNullCost target).isSome = true → g.isSaturated key = false →
      ∀ {k}, k ∈ g.nextKeys key → s.HoldsLink k ⟨⟨past.size, i⟩, .null target⟩) :
    Served g past past.size s i key := by
  refine ⟨fun op' => ?_, fun op' => ?_, fun op' => ?_, fun op' => ?_⟩ <;> cases op.symm.trans op'
  · exact opened
  · exact skipped

theorem Growing.predict (analyzed : g.Analyzed) (h : Growing g input past s) {i : Nat} {item : Item} {target : Target}
    (found : s.items[i]? = some item) (op : item.key.op = .predict target) :
    GrownFrom g input past s (Chart.predict g past.size s ⟨past.size, i⟩ item target) ∧
      Served g past past.size (Chart.predict g past.size s ⟨past.size, i⟩ item target) i item.key := by
  have valid := h.items found
  have reason (key : ItemKey) (member : key ∈ g.openingKeys target past.size) :
      (Cause.predicted ⟨past.size, i⟩).Justifies g input (past.push s) past.size key := by
    obtain ⟨origin, dot, count⟩ := origin_opening member
    refine ⟨valid_opening (fun k same => ?_) member, dot, count, origin, behind_opening member⟩
    exact valid.key.known_iteration (same ▸ op)
  obtain ⟨first, present⟩ := h.addAll reason
  unfold Chart.predict
  dsimp only
  generalize s.addAll past.size (.predicted ⟨past.size, i⟩) (g.openingKeys target past.size) = result at *
  have second := first.growing.note i (·.notePredicted result.2) fun _ => ⟨rfl, rfl, rfl, rfl⟩
  have grown := first.trans second
  have opened {t : State} (more : (result.1.mapItem i (·.notePredicted result.2)).Extends t) {key : ItemKey}
      (member : key ∈ g.openingKeys target past.size) : t.Holds key := by
    obtain ⟨n, new, place, same, -⟩ := present key member
    exact State.Holds.mono ⟨n, new, place, same⟩ (second.more.trans more)
  split
  case h_1 cost null =>
    obtain ⟨us, crossed⟩ := analyzed.parses_null null input past.size
    have later := chartExtends_push past grown.more
    obtain ⟨third, linked⟩ := grown.growing.advance ⟨past.size, i⟩ (.null target) ((hasKey_push found).mono later)
      (valid.mono later) (.null rfl op (by simp [null])) (by rw [op]; rfl) crossed
    refine ⟨grown.trans third, .of_predict op (opened third.more) fun _ free k member => ?_⟩
    exact linked (fun _ => free) k member
  case h_2 null =>
    refine ⟨grown, .of_predict op (opened (.refl _)) fun some => ?_⟩
    simp [null] at some

theorem ItemKey.Valid.not_saturated {j : Nat} {key : ItemKey} (h : key.Valid g j) (op : key.op = .passEmpty) :
    g.isSaturated key = false := by
  cases h with
  | dotted walks => exact isSaturated_dotted walks _ _
  | group _ _ _ member => rcases mem_groupKeys.mp member with ⟨-, rfl⟩ | ⟨-, rfl⟩ <;> cases op

/-- Passing over an explicit nothing. -/
theorem Growing.passEmpty (h : Growing g input past s) {i : Nat} {item : Item} (found : s.items[i]? = some item)
    (op : item.key.op = .passEmpty) :
    GrownFrom g input past s (Chart.advance g past.size s ⟨past.size, i⟩ item .empty 0).1 ∧
      Served g past past.size (Chart.advance g past.size s ⟨past.size, i⟩ item .empty 0).1 i item.key := by
  have valid := h.items found
  have crossed : g.Parses input [.symbol .empty] past.size past.size [] 0 := .empty .nil
  obtain ⟨grown, linked⟩ := h.advance ⟨past.size, i⟩ .empty (hasKey_push found) valid (.empty rfl op)
    (by rw [op]; rfl) crossed
  refine ⟨grown, fun op' => ?_, fun op' => ?_, fun _ k member => ?_, fun op' => ?_⟩
  case refine_3 => exact linked (fun _ => valid.key.not_saturated op) k member
  all_goals cases op.symm.trans op'

/-- Moving on one item that waited for a completed target. -/
theorem Growing.resume (old : PastValid g input past) (h : Growing g input past s) {i w : Nat} {opened : State}
    {key : ItemKey} {waiter : Item} {target : Target} {us : List Tree} {cost : Penalty}
    (has : HasKey (past.push s) ⟨past.size, i⟩ key) (op : key.op = .complete target)
    (state : past[key.origin]? = some opened) (waits : opened.items[w]? = some waiter)
    (predicts : waiter.key.op = .predict target)
    (crossed : g.Parses input [target.part] key.origin past.size us cost) :
    GrownFrom g input past s (Chart.resume g past.size ⟨past.size, i⟩ cost key.origin opened s w) ∧
      ∀ k ∈ g.nextKeys waiter.key, (Chart.resume g past.size ⟨past.size, i⟩ cost key.origin opened s w).HoldsLink k
        ⟨⟨key.origin, w⟩, .completed ⟨past.size, i⟩⟩ := by
  have before : key.origin < past.size := (Array.getElem?_eq_some_iff.mp state).1
  have valid := (old.items state waits).mono (chartExtends_past past s)
  have there : HasKey (past.push s) ⟨key.origin, w⟩ waiter.key :=
    ⟨waiter, by simp [itemAt, getElem?_push_lt s before, state, waits], rfl⟩
  obtain ⟨first, linked⟩ := h.advance ⟨key.origin, w⟩ (.completed ⟨past.size, i⟩) there valid
    (.completed before predicts has rfl op rfl) (by rw [predicts]; rfl) crossed
  simp only [Chart.resume, waits]
  generalize Chart.advance g past.size s ⟨key.origin, w⟩ waiter (.completed ⟨past.size, i⟩) cost = result at *
  have second := first.growing.note i (·.noteCompleted result.2) fun _ => ⟨rfl, rfl, rfl, rfl⟩
  exact ⟨first.trans second, fun k member =>
    (linked (fun same => absurd same (Nat.ne_of_lt before)) k member).mono second.more⟩

/-- Moving on everything in a list that waited for a completed target. -/
theorem Growing.resumeAll (old : PastValid g input past) (h : Growing g input past s) {i : Nat} {opened : State}
    {key : ItemKey} {target : Target} {us : List Tree} {cost : Penalty} (ws : List Nat)
    (has : HasKey (past.push s) ⟨past.size, i⟩ key) (op : key.op = .complete target)
    (state : past[key.origin]? = some opened)
    (waits : ∀ w ∈ ws, ∃ waiter : Item, opened.items[w]? = some waiter ∧ waiter.key.op = .predict target)
    (crossed : g.Parses input [target.part] key.origin past.size us cost) :
    GrownFrom g input past s (ws.foldl (Chart.resume g past.size ⟨past.size, i⟩ cost key.origin opened) s) ∧
      ∀ (w : Nat) (waiter : Item), w ∈ ws → opened.items[w]? = some waiter → ∀ k ∈ g.nextKeys waiter.key,
        (ws.foldl (Chart.resume g past.size ⟨past.size, i⟩ cost key.origin opened) s).HoldsLink k
          ⟨⟨key.origin, w⟩, .completed ⟨past.size, i⟩⟩ := by
  induction ws generalizing s with
  | nil => exact ⟨h.refl, by simp⟩
  | cons w ws ih =>
    obtain ⟨⟨waiter, here, predicts⟩, others⟩ := List.forall_mem_cons.mp waits
    obtain ⟨first, linked⟩ := h.resume old has op state here predicts crossed
    obtain ⟨rest, present⟩ := ih first.growing (has.mono (chartExtends_push past first.more)) others
    refine ⟨first.trans rest, fun v other member place k next => ?_⟩
    rcases List.mem_cons.mp member with rfl | later
    · cases here.symm.trans place
      exact (linked k next).mono rest.more
    · exact present v other later place k next

theorem Growing.complete (old : PastValid g input past) (h : Growing g input past s) {i : Nat} {item : Item}
    {target : Target} (found : s.items[i]? = some item) (op : item.key.op = .complete target) :
    GrownFrom g input past s (Chart.complete g past s ⟨past.size, i⟩ item target) ∧
      Served g past past.size (Chart.complete g past s ⟨past.size, i⟩ item target) i item.key := by
  have valid := h.items found
  obtain ⟨ts, behind⟩ := valid.real
  obtain ⟨-, crossed⟩ := behind.complete valid.key op
  unfold Chart.complete
  cases state : past[item.key.origin]? with
  | none =>
    refine ⟨h.refl, fun op' => ?_, fun op' => ?_, fun op' => ?_, fun _ _ _ _ _ some => ?_⟩
    case refine_4 => cases state.symm.trans some
    all_goals cases op.symm.trans op'
  | some opened =>
    have waits (w : Nat) : w ∈ opened.waiters target ↔ _ := (old.coherent state).mem_waiters
    obtain ⟨grown, linked⟩ := h.resumeAll old (opened.waiters target) (hasKey_push found) op state
      (fun w => (waits w).mp) crossed
    refine ⟨grown, fun op' => ?_, fun op' => ?_, fun op' => ?_, ?_⟩
    case refine_4 =>
      intro target' op' _ opened' w waiter state' place predicts k member
      cases op.symm.trans op'
      cases state.symm.trans state'
      exact linked w waiter ((waits w).mpr ⟨waiter, place, predicts⟩) place k member
    all_goals cases op.symm.trans op'

/-- Serving an item leaves all items justified and the item served. -/
theorem Growing.serve (analyzed : g.Analyzed) (old : PastValid g input past) (h : Growing g input past s) {i : Nat}
    {item : Item} (found : s.items[i]? = some item) :
    GrownFrom g input past s (Chart.serve g past s i) ∧
      Served g past past.size (Chart.serve g past s i) i item.key := by
  simp only [Chart.serve, found]
  cases op : item.key.op with
  | predict target => exact h.predict analyzed found op
  | passEmpty => exact h.passEmpty found op
  | scan u =>
    refine ⟨h.refl, fun op' => ?_, fun op' => ?_, fun op' => ?_, fun op' => ?_⟩ <;> cases op.symm.trans op'
  | complete target => exact h.complete old found op

end Chart

end Earley
