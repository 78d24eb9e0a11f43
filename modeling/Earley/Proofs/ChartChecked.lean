import Earley.Chart.Checked
import Earley.Proofs.ChartOrder
import Earley.Proofs.ForestActive

/-!
# Recognition never goes wrong

With identifiers in scope, every access of recognition is to something that is there, and every number fits if the
numbers of all productions, states and items do. So the steps that check this always have a result, and it is the
one that the unchecked steps give.
-/

namespace Earley.Chart

variable {fits : Nat → Bool} {g : Grammar} {input : List Token} {past : Array State} {s s' : State}

theorem State.Extends.size_le (h : s.Extends s') : s.items.size ≤ s'.items.size := by
  apply Nat.le_of_not_lt
  intro less
  obtain ⟨b, found, -⟩ := h.item (Array.getElem?_eq_getElem less)
  exact Nat.lt_irrefl _ (Array.getElem?_eq_some_iff.mp found).1

theorem State.Fits.before (h : s'.Fits fits) (more : s.Extends s') : s.Fits fits :=
  fun i inside => h i (Nat.lt_of_lt_of_le inside more.size_le)

/-- What an item is about is in the tables. -/
theorem ItemKey.Valid.known_owner {j : Nat} {key : ItemKey} (valid : key.Valid g j) : key.owner.target.Known g := by
  cases valid with
  | @dotted owner _ _ walks =>
    cases owner with
    | group k => exact walks.elim
    | rule r n =>
      obtain ⟨d, known, -⟩ := walks.production
      exact Grammar.lt_size_of_rule? known
    | iteration k =>
      obtain ⟨d, known⟩ := walks
      exact (Array.getElem?_eq_some_iff.mp known).1
  | group known _ _ member =>
    rcases mem_groupKeys.mp member with ⟨-, rfl⟩ | ⟨-, rfl⟩ <;> exact (Array.getElem?_eq_some_iff.mp known).1

/-- What an item completes is what it is about. -/
theorem ItemKey.Valid.owner_target {j : Nat} {key : ItemKey} {target : Target} (valid : key.Valid g j)
    (op : key.op = .complete target) : key.owner.target = target := by
  cases valid with
  | dotted _ place => exact (complete_dotted place op).2
  | group _ _ _ member => rcases mem_groupKeys.mp member with ⟨-, rfl⟩ | ⟨-, rfl⟩ <;> cases op; rfl

/-- What an item waits to scan is in the tables. -/
theorem ItemKey.Valid.inScope_scan (inScope : g.Scoped) {j : Nat} {key : ItemKey} {u : Usage} (valid : key.Valid g j)
    (op : key.op = .scan u) : (Symbol.usage u).InScope g.rules.size g.groups.size g.sets.size := by
  cases valid with
  | @dotted owner dot origin walks =>
    have steps : (g.dottedKey owner dot origin).op.part? = some (.symbol (.usage u)) := by rw [op]; rfl
    rw [part?_dotted] at steps
    obtain ⟨s, there, same⟩ := Option.map_eq_some_iff.mp steps
    cases same
    exact walks.inScope inScope (List.mem_of_getElem? there)
  | group _ _ _ member => rcases mem_groupKeys.mp member with ⟨-, rfl⟩ | ⟨-, rfl⟩ <;> cases op

theorem setIfInBounds_push (past : Array State) (s s' : State) :
    (past.push s).setIfInBounds past.size s' = past.push s' := by
  apply Array.ext
  · simp
  · intro i _ _
    grind

/-- A chart that is continued by one whose numbers fit. -/
theorem ChartFits.before {states : Array State} (h : ChartFits fits states)
    (keeps : ∀ {j : Nat} {s : State}, past[j]? = some s → states[j]? = some s) : ChartFits fits past := by
  refine ⟨fun j inside => h.state j ?_, fun found => h.items (keeps found)⟩
  exact (Array.getElem?_eq_some_iff.mp (keeps (Array.getElem?_eq_getElem inside))).1

namespace Checked

theorem refTo_eq {j i : Nat} (state : fits j) (index : fits i) : refTo fits j i = some ⟨j, i⟩ := by
  simp [refTo, number, state, index]

theorem change_eq {i : Nat} {item : Item} (found : s.items[i]? = some item) (f : Item → Item) :
    change (past.push s) ⟨past.size, i⟩ f = some (past.push (s.mapItem i f)) := by
  simp [change, found, setIfInBounds_push]

theorem add_eq (h : s.Coherent) (here : fits past.size) {cause : Cause} {key : ItemKey}
    (room : (s.add past.size cause key).1.Fits fits) :
    add fits (past.push s) past.size cause key =
      some (past.push (s.add past.size cause key).1, (s.add past.size cause key).2) := by
  have fit {i : Nat} (inside : i < (s.add past.size cause key).1.items.size) := refTo_eq here (room i inside)
  rcases State.add_cases h past.size cause key with ⟨i, item, found, rfl, result⟩ | ⟨new, result⟩
  · have bound := (Array.getElem?_eq_some_iff.mp found).1
    have known := h.index.mpr ⟨item, found, rfl⟩
    rw [result] at fit ⊢
    simp [add, known, change_eq found, fit (i := i) (by simpa [State.mapItem] using bound)]
  · have missing : s.index.find? key = none := by
      apply Option.eq_none_iff_forall_not_mem.mpr
      intro i known
      obtain ⟨item, found, same⟩ := h.index.mp known
      exact new ⟨i, item, found, same⟩
    rw [result] at fit ⊢
    simp [add, missing, fit (i := s.items.size) (by simp), setIfInBounds_push]

theorem addAll_eq (h : s.Coherent) (here : fits past.size) {cause : Cause} {keys : List ItemKey}
    (room : (s.addAll past.size cause keys).1.Fits fits) :
    addAll fits (past.push s) past.size cause keys =
      some (past.push (s.addAll past.size cause keys).1, (s.addAll past.size cause keys).2) := by
  induction keys generalizing s with
  | nil => rfl
  | cons key keys ih =>
    have added := State.add_added h past.size cause key
    have more := (State.addAll_coherent added.coherent past.size cause keys).2
    simp only [State.addAll] at room ⊢
    simp [addAll, add_eq h here (room.before more), ih added.coherent room]

theorem nexts_eq (small : GrammarFits fits g) {j : Nat} {key : ItemKey} {part : Part} (valid : key.Valid g j)
    (steps : key.op.part? = some part) : nexts fits g key = some (g.nextKeys key) := by
  cases valid with
  | @dotted owner dot origin walks place =>
    rw [part?_dotted] at steps
    obtain ⟨symbol, there, -⟩ := Option.map_eq_some_iff.mp steps
    have inside : dot < (g.symbolsOf owner).length := (List.getElem?_eq_some_iff.mp there).1
    cases owner with
    | group k => exact walks.elim
    | rule r n =>
      obtain ⟨d, known, chosen⟩ := walks.production
      have room := small.places known (List.mem_of_getElem? chosen) (dot + 1) inside
      simp [nexts, Grammar.dottedKey, number, room, known]
    | iteration k =>
      obtain ⟨d, known⟩ := walks
      have room := small.group known (dot + 1) (symbolsOf_iteration known ▸ inside)
      simp [nexts, Grammar.dottedKey, number, room, known]
  | group known _ _ member => rcases mem_groupKeys.mp member with ⟨-, rfl⟩ | ⟨-, rfl⟩ <;> simp [nexts, known]

theorem openings_eq (small : GrammarFits fits g) {target : Target} (known : target.Known g) (origin : Nat) :
    openings fits g target origin = some (g.openingKeys target origin) := by
  cases target with
  | rule r =>
    obtain ⟨d, found⟩ := Grammar.rule?_of_lt known
    simpa [openings, found] using small.productions found
  | group k => simp [openings, Grammar.group?, Array.getElem?_eq_getElem (show k.index < g.groups.size from known)]
  | iteration k => simp [openings, Grammar.group?, Array.getElem?_eq_getElem (show k.index < g.groups.size from known)]

structure SameStep (a b : Item) : Prop where
  key : b.key = a.key
  start : b.start = a.start
  penalty : b.penalty = a.penalty

theorem advance_eq (h : s.Coherent) (here : fits past.size) {ref : ItemRef} {item item' : Item} {child : Child}
    {cost : Penalty} (found : itemAt (past.push s) ref = some item') (same : SameStep item item')
    (keys : nexts fits g item.key = some (g.nextKeys item.key))
    (room : (Chart.advance g past.size s ref item child cost).1.Fits fits) :
    advance fits g (past.push s) past.size ref child cost =
      some (past.push (Chart.advance g past.size s ref item child cost).1,
        (Chart.advance g past.size s ref item child cost).2) := by
  have place : item? (past.push s) ref = some item' := found
  simp only [advance, place, same.key, same.start, same.penalty, keys, Option.bind_eq_bind, Option.bind_some]
  unfold Chart.advance at room ⊢
  split
  case isTrue => rfl
  case isFalse free =>
    rw [if_neg free] at room
    exact addAll_eq h here room

/-- Predictions touch nothing of an item that a step reads. -/
theorem sameStep_addAll (h : s.Coherent) (j : Nat) (predictor : ItemRef) (keys : List ItemKey) {i : Nat} {item : Item}
    (found : s.items[i]? = some item) :
    ∃ item', (s.addAll j (.predicted predictor) keys).1.items[i]? = some item' ∧ SameStep item item' := by
  induction keys generalizing s item with
  | nil => exact ⟨item, found, rfl, rfl, rfl⟩
  | cons key keys ih =>
    have added := State.add_added h j (.predicted predictor) key
    have first : ∃ item', (s.add j (.predicted predictor) key).1.items[i]? = some item' ∧ SameStep item item' := by
      rcases State.add_cases h j (.predicted predictor) key with ⟨m, old, place, -, result⟩ | ⟨-, result⟩
      · rw [result, State.getElem?_mapItem, found]
        split
        · exact ⟨_, rfl, rfl, rfl, rfl⟩
        · exact ⟨item, rfl, rfl, rfl, rfl⟩
      · have bound := (Array.getElem?_eq_some_iff.mp found).1
        rw [result, State.getElem?_push, if_neg (Nat.ne_of_lt bound)]
        exact ⟨item, found, rfl, rfl, rfl⟩
    obtain ⟨item', found', same⟩ := first
    obtain ⟨item'', found'', same'⟩ := ih added.coherent found'
    exact ⟨item'', found'', same'.key.trans same.key, same'.start.trans same.start, same'.penalty.trans same.penalty⟩

theorem predict_eq (small : GrammarFits fits g) (h : s.Coherent) (here : fits past.size) {i : Nat} {item : Item}
    {target : Target} (found : s.items[i]? = some item) (op : item.key.op = .predict target)
    (valid : item.key.Valid g past.size) (known : target.Known g)
    (room : (Chart.predict g past.size s ⟨past.size, i⟩ item target).Fits fits) :
    predict fits g (past.push s) ⟨past.size, i⟩ target =
      some (past.push (Chart.predict g past.size s ⟨past.size, i⟩ item target)) := by
  obtain ⟨coherent, -⟩ := State.addAll_coherent h past.size (.predicted ⟨past.size, i⟩) (g.openingKeys target past.size)
  obtain ⟨item', found', same⟩ := sameStep_addAll h past.size ⟨past.size, i⟩ (g.openingKeys target past.size) found
  have added (room : (s.addAll past.size (.predicted ⟨past.size, i⟩) (g.openingKeys target past.size)).1.Fits fits) :=
    addAll_eq h here room
  unfold Chart.predict at room ⊢
  dsimp only at room ⊢
  simp only [predict, openings_eq small known, Option.bind_eq_bind, Option.bind_some]
  generalize s.addAll past.size (.predicted ⟨past.size, i⟩) (g.openingKeys target past.size) = result at *
  have noted : result.1.Extends (result.1.mapItem i (·.notePredicted result.2)) :=
    mapItem_note_extends i fun _ => ⟨rfl, rfl, rfl⟩
  have still := coherent.mapItem i (f := (·.notePredicted result.2)) fun _ => rfl
  cases null : g.targetNullCost target with
  | none =>
    simp only [null] at room ⊢
    simp [added (room.before noted), change_eq found']
  | some cost =>
    simp only [null] at room ⊢
    have later := (advance_coherent (g := g) still past.size ⟨past.size, i⟩ item (.null target) cost).2
    -- The item is read again after it has predicted, and by then it may have gained a predictor: itself.
    have place : itemAt (past.push (result.1.mapItem i (·.notePredicted result.2))) ⟨past.size, i⟩ =
        some (item'.notePredicted result.2) := by
      simp [itemAt, State.getElem?_mapItem, found']
    have moved := advance_eq still here place ⟨same.key, same.start, same.penalty⟩
      (nexts_eq small valid (by rw [op]; rfl)) room
    simp [added (room.before (noted.trans later)), change_eq found', moved]

theorem resume_eq (h : s.Coherent) (here : fits past.size) {i w origin : Nat} {cost : Penalty} {opened : State}
    {item waiter : Item} (found : s.items[i]? = some item) (state : past[origin]? = some opened)
    (waits : opened.items[w]? = some waiter) (origins : fits origin) (positions : fits w)
    (keys : nexts fits g waiter.key = some (g.nextKeys waiter.key))
    (room : (Chart.resume g past.size ⟨past.size, i⟩ cost origin opened s w).Fits fits) :
    resume fits g ⟨past.size, i⟩ cost origin (past.push s) w =
      some (past.push (Chart.resume g past.size ⟨past.size, i⟩ cost origin opened s w)) := by
  obtain ⟨coherent, more⟩ :=
    advance_coherent (g := g) h past.size ⟨origin, w⟩ waiter (.completed ⟨past.size, i⟩) cost
  obtain ⟨item', found', -⟩ := more.item found
  have there : itemAt (past.push s) ⟨origin, w⟩ = some waiter := by
    simp [itemAt, getElem?_push_lt s (Array.getElem?_eq_some_iff.mp state).1, state, waits]
  simp only [Chart.resume, waits] at room ⊢
  have moved := advance_eq h here there ⟨rfl, rfl, rfl⟩ keys
    (room.before (mapItem_note_extends i fun _ => ⟨rfl, rfl, rfl⟩))
  simp [resume, refTo_eq origins positions, moved, change_eq found']

theorem resumeAll_eq (h : s.Coherent) (here : fits past.size) {i origin : Nat} {cost : Penalty} {opened : State}
    {item : Item} {ws : List Nat} (found : s.items[i]? = some item) (state : past[origin]? = some opened)
    (origins : fits origin)
    (waits : ∀ w ∈ ws, fits w ∧ ∃ waiter, opened.items[w]? = some waiter ∧
      nexts fits g waiter.key = some (g.nextKeys waiter.key))
    (room : (ws.foldl (Chart.resume g past.size ⟨past.size, i⟩ cost origin opened) s).Fits fits) :
    ws.foldlM (resume fits g ⟨past.size, i⟩ cost origin) (past.push s) =
      some (past.push (ws.foldl (Chart.resume g past.size ⟨past.size, i⟩ cost origin opened) s)) := by
  induction ws generalizing s item with
  | nil => rfl
  | cons w ws ih =>
    obtain ⟨⟨positions, waiter, place, keys⟩, others⟩ := List.forall_mem_cons.mp waits
    obtain ⟨coherent, more⟩ := resume_coherent (g := g) h past.size ⟨past.size, i⟩ cost origin opened w
    obtain ⟨item', found', -⟩ := more.item found
    have later := (resumeAll_coherent (g := g) coherent past.size ⟨past.size, i⟩ cost origin opened ws).2
    simp only [List.foldl_cons] at room ⊢
    simp [List.foldlM_cons, resume_eq h here found state place origins positions keys (room.before later),
      ih coherent found' others room]

theorem targetPenalty_eq {target : Target} (known : target.Known g) :
    targetPenalty g target = some (g.targetPenalty target) := by
  cases target with
  | rule r =>
    obtain ⟨d, found⟩ := Grammar.rule?_of_lt known
    simp [targetPenalty, Grammar.targetPenalty, Grammar.rulePenalty, found]
  | group k => rfl
  | iteration k => rfl

theorem complete_eq (small : GrammarFits fits g) (old : PastValid g input past) (fit : ChartFits fits past)
    (h : s.Coherent) (here : fits past.size) {i : Nat} {item : Item} {target : Target}
    (found : s.items[i]? = some item) (op : item.key.op = .complete target) (valid : item.key.Valid g past.size)
    (room : (Chart.complete g past s ⟨past.size, i⟩ item target).Fits fits) :
    complete fits g (past.push s) ⟨past.size, i⟩ target =
      some (past.push (Chart.complete g past s ⟨past.size, i⟩ item target)) := by
  have place : item? (past.push s) ⟨past.size, i⟩ = some item := by simp [item?, found]
  have le := valid.origin_le
  unfold Chart.complete at room ⊢
  have known : target.Known g := valid.owner_target op ▸ valid.known_owner
  simp only [complete, targetPenalty_eq known, place, Option.bind_eq_bind, Option.bind_some]
  cases state : past[item.key.origin]? with
  | none =>
    have outside := Array.getElem?_eq_none_iff.mp state
    rw [if_pos (Nat.le_antisymm le outside)]
    rfl
  | some opened =>
    have before := (Array.getElem?_eq_some_iff.mp state).1
    simp only [state] at room
    rw [if_neg (Nat.ne_of_lt before), getElem?_push_lt s before, state]
    refine resumeAll_eq h here found state (fit.state _ before) ?_ room
    intro w member
    obtain ⟨waiter, waits, predicts⟩ := (old.coherent state).mem_waiters.mp member
    refine ⟨fit.items state w (Array.getElem?_eq_some_iff.mp waits).1, waiter, waits, ?_⟩
    exact nexts_eq small (old.items state waits).key (by rw [predicts]; rfl)

theorem serve_eq (small : GrammarFits fits g) (inScope : g.Scoped) (old : PastValid g input past)
    (fit : ChartFits fits past) (h : Growing g input past s) (here : fits past.size) {i : Nat}
    (inside : i < s.items.size) (room : (Chart.serve g past s i).Fits fits) (position : fits i) :
    serve fits g (past.push s) past.size i = some (past.push (Chart.serve g past s i)) := by
  have found := Array.getElem?_eq_getElem inside
  have place : item? (past.push s) ⟨past.size, i⟩ = some s.items[i] := by simp [item?]
  have valid := (h.items found).key
  simp only [serve, refTo_eq here position, place, Option.bind_eq_bind, Option.bind_some]
  simp only [Chart.serve, found] at room ⊢
  cases op : s.items[i].key.op with
  | predict target =>
    simp only [op] at room ⊢
    exact predict_eq small h.coherent here found op valid (valid.known_target inScope op) room
  | passEmpty =>
    simp only [op] at room ⊢
    simp [advance_eq h.coherent here place ⟨rfl, rfl, rfl⟩ (nexts_eq small valid (by rw [op]; rfl)) room]
  | scan u => rfl
  | complete target =>
    simp only [op] at room ⊢
    exact complete_eq small old fit h.coherent here found op valid room

theorem serveFrom_eq (small : GrammarFits fits g) (inScope : g.Scoped) (analyzed : g.Analyzed)
    (old : PastValid g input past) (fit : ChartFits fits past) (h : Growing g input past s) (here : fits past.size)
    {fuel i : Nat} (enough : g.keyBound past.size ≤ fuel + i)
    (room : (Chart.serveFrom g past fuel s i).Fits fits) :
    serveFrom fits g past.size fuel (past.push s) i = some (past.push (Chart.serveFrom g past fuel s i)) := by
  induction fuel generalizing s i with
  | zero =>
    have full := h.size_le
    unfold serveFrom Chart.serveFrom
    simp [show ¬ i < s.items.size by omega]
  | succ fuel ih =>
    unfold serveFrom
    unfold Chart.serveFrom at room ⊢
    simp only [getElem?_push_size, Option.bind_eq_bind, Option.bind_some]
    split
    case isTrue inside =>
      rw [if_pos inside] at room
      have step := (h.serve analyzed old (Array.getElem?_eq_getElem inside)).1
      have rest := closesTo_serveFrom analyzed old step.growing (fun _ => List.mem_range)
        (show _ ≤ fuel + (i + 1) by omega)
      -- Items are only added, so what fits in the end has fitted after this step.
      have served := room.before (rest.growing analyzed old step.growing).more
      have position := (served.before step.more) i inside
      simp [serve_eq small inScope old fit h here inside served position, ih step.growing (by omega) room]
    case isFalse => rfl

theorem close_eq (small : GrammarFits fits g) (inScope : g.Scoped) (analyzed : g.Analyzed)
    (old : PastValid g input past) (fit : ChartFits fits past) (h : Growing g input past s) (here : fits past.size)
    (room : (Chart.close g past s).Fits fits) :
    close fits g (past.push s) past.size = some (past.push (Chart.close g past s)) :=
  serveFrom_eq small inScope analyzed old fit h here (Nat.le_add_right _ _) room

theorem acceptsNext_eq (inScope : g.Scoped) {j : Nat} {item : Item} (valid : item.key.Valid g j) (t : Token) :
    acceptsNext g item t = some (Chart.acceptsNext g item t) := by
  unfold acceptsNext Chart.acceptsNext
  split
  case h_1 set op =>
    have known : set.index < g.sets.size := valid.inScope_scan inScope op
    simp [op, Grammar.accepts, Grammar.set?, Array.getElem?_eq_getElem known]
  case h_2 u _ op => simp [op]
  case h_3 _ plain =>
    split
    case h_1 u op => exact absurd op (plain u)
    case h_2 => rfl

theorem accepting_eq (inScope : g.Scoped) {j : Nat} {t : Token} {ws : List Nat} (state : fits j)
    (found : ∀ i ∈ ws, fits i ∧ ∃ item, s.items[i]? = some item ∧ item.key.Valid g j) :
    accepting fits g s j t ws = some ((ws.filterMap fun i => s.items[i]?.bind fun item =>
      if Chart.acceptsNext g item t then some (i, item) else none).map fun entry => ⟨j, entry.1⟩) := by
  induction ws with
  | nil => rfl
  | cons i ws ih =>
    obtain ⟨⟨position, item, place, valid⟩, others⟩ := List.forall_mem_cons.mp found
    simp only [accepting, refTo_eq state position, place, acceptsNext_eq inScope valid t, ih others,
      Option.bind_eq_bind, Option.bind_some, List.filterMap_cons]
    cases Chart.acceptsNext g item t <;> rfl

theorem scanAll_extends (h : s.Coherent) (j m : Nat) (order : List (Nat × Item)) :
    s.Extends (order.foldl (fun s (i, item) => (Chart.advance g m s ⟨j, i⟩ item .token 0).1) s) := by
  induction order generalizing s with
  | nil => exact .refl s
  | cons entry order ih =>
    obtain ⟨coherent, more⟩ := advance_coherent (g := g) h m ⟨j, entry.1⟩ entry.2 .token 0
    exact more.trans (ih coherent)

/-- Moving on items of an earlier state into the last one. -/
theorem scanAll_eq (h : s.Coherent) (here : fits past.size) {j : Nat} {last : State} (state : past[j]? = some last)
    {order : List (Nat × Item)} (found : ∀ entry ∈ order, last.items[entry.1]? = some entry.2 ∧
      nexts fits g entry.2.key = some (g.nextKeys entry.2.key))
    (room : (order.foldl (fun s (i, item) => (Chart.advance g past.size s ⟨j, i⟩ item .token 0).1) s).Fits fits) :
    (order.map fun entry => (⟨j, entry.1⟩ : ItemRef)).foldlM
        (fun states ref => (advance fits g states past.size ref .token 0).map (·.1)) (past.push s) =
      some (past.push (order.foldl (fun s (i, item) => (Chart.advance g past.size s ⟨j, i⟩ item .token 0).1) s)) := by
  induction order generalizing s with
  | nil => rfl
  | cons entry order ih =>
    obtain ⟨⟨place, keys⟩, others⟩ := List.forall_mem_cons.mp found
    have coherent := (advance_coherent (g := g) h past.size ⟨j, entry.1⟩ entry.2 .token 0).1
    have there : itemAt (past.push s) ⟨j, entry.1⟩ = some entry.2 := by
      simp [itemAt, getElem?_push_lt s (Array.getElem?_eq_some_iff.mp state).1, state, place]
    have first := room.before (scanAll_extends coherent j past.size order)
    have rest := ih coherent others room
    simp [advance_eq h here there ⟨rfl, rfl, rfl⟩ keys first, rest]

/-- A scan leads to what the unchecked scan leads to, or to nothing as that does. -/
theorem scan?_eq (small : GrammarFits fits g) (inScope : g.Scoped) {last : State}
    (valid : PastValid g input (past.push last)) (fit : ChartFits fits (past.push last)) {t : Token}
    (room : ∀ opened, Chart.scan? g past.size last t = some opened → fits (past.size + 1) ∧ opened.Fits fits) :
    scan? fits g (past.push last) past.size t =
      some ((Chart.scan? g past.size last t).map (past.push last).push) := by
  have state := getElem?_push_size past last
  have coherent := valid.coherent state
  have found : ∀ i ∈ last.scanners.toList,
      fits i ∧ ∃ item, last.items[i]? = some item ∧ item.key.Valid g past.size := by
    intro i member
    obtain ⟨item, u, place, -⟩ := coherent.mem_scanners.mp member
    exact ⟨fit.items state i (Array.getElem?_eq_some_iff.mp place).1, item, place, (valid.items state place).key⟩
  have scanned : accepting fits g last past.size t last.scanners.toList =
      some ((last.accepting g t).map fun entry => ⟨past.size, entry.1⟩) :=
    accepting_eq inScope (fit.state _ (by simp)) found
  have ready : ∀ entry ∈ last.accepting g t, last.items[entry.1]? = some entry.2 ∧
      nexts fits g entry.2.key = some (g.nextKeys entry.2.key) := by
    intro entry member
    obtain ⟨place, u, op, -⟩ := (mem_accepting coherent).mp member
    exact ⟨place, nexts_eq small (valid.items state place).key (by rw [op]; rfl)⟩
  simp only [scan?, state, scanned, Option.bind_eq_bind, Option.bind_some]
  unfold Chart.scan? at room ⊢
  cases accepted : last.accepting g t with
  | nil => rfl
  | cons entry order =>
    rw [accepted] at room ready
    obtain ⟨next, room⟩ := room _ rfl
    have opened := scanAll_eq (State.entered_coherent (some t)) (by simpa using next) state ready (by simpa using room)
    simp only [Array.size_push] at opened
    simp only [List.map_cons, Option.map_some] at opened ⊢
    rw [opened]
    rfl

theorem grow_eq (small : GrammarFits fits g) (inScope : g.Scoped) (analyzed : g.Analyzed) {last : State}
    {rest : List Token} (valid : PastValid g input (past.push last)) (left : input.drop past.size = rest)
    (fit : ChartFits fits (Chart.grow g past last rest).1) :
    grow fits g (past.push last) past.size rest = some (Chart.grow g past last rest) := by
  induction rest generalizing past last with
  | nil => rfl
  | cons t rest ih =>
    have before := fit.before (readsTo_grow analyzed valid left).keeps
    obtain ⟨read, left⟩ := getElem?_of_drop left
    unfold grow
    unfold Chart.grow at fit ⊢
    rcases scan?_cases valid read with ⟨none, -⟩ | ⟨opened, some, growing, -, -⟩
    · have refused := scan?_eq small inScope valid before (t := t) (by simp [none])
      simp [refused, none]
    · simp only [some] at fit ⊢
      have closed := (growing.close analyzed valid).1
      have valid' := valid.push closed.growing
      have left' : input.drop (past.push last).size = rest := by simpa using left
      have after := fit.before (readsTo_grow analyzed valid' left').keeps
      have here : fits (past.push last).size = true := after.state _ (by simp)
      have room := after.items (getElem?_push_size (past.push last) _)
      have accepted := scan?_eq small inScope valid before (t := t) (by
        intro other same
        cases some.symm.trans same
        exact ⟨by simpa using here, room.before closed.more⟩)
      have closes := close_eq small inScope analyzed valid before growing here room
      have further := ih valid' left' fit
      simp only [Array.size_push] at closes further
      simp [accepted, some, closes, further]

theorem build_eq (small : GrammarFits fits g) (inScope : g.Scoped) (analyzed : g.Analyzed) {start : RuleId}
    (known : start.index < g.rules.size) {tokens : List Token} (fit : ChartFits fits (Chart.build g start tokens).1) :
    build fits g start tokens = some (Chart.build g start tokens) := by
  have growing := (firstState_growing g start (tokens.takeWhile (!·.isFinish))).1
  have nothing : PastValid g (tokens.takeWhile (!·.isFinish)) #[] := ⟨by simp, by simp⟩
  have closed := (growing.close analyzed nothing).1
  have valid := nothing.push closed.growing
  have first := fit.before (readsTo_grow analyzed valid rfl).keeps
  have here : fits 0 = true := first.state 0 (by simp)
  have room := first.items (getElem?_push_size #[] _)
  have opened : (State.addAll (.entered none) 0 .initial (g.openingKeys (.rule start) 0)).1.Fits fits :=
    room.before closed.more
  have added : addAll fits (Array.push #[] (.entered none)) 0 .initial (g.openingKeys (.rule start) 0) = _ :=
    addAll_eq (State.entered_coherent none) here opened
  have closes : close fits g (Array.push #[] (firstState g start)) 0 = _ :=
    close_eq small inScope analyzed nothing ⟨by simp, by simp⟩ growing here room
  have further : grow fits g (Array.push #[] (Chart.close g #[] (firstState g start))) 0 _ = _ :=
    grow_eq small inScope analyzed valid rfl fit
  simp only [build, openings_eq small (show Target.Known g (.rule start) from known), Option.bind_eq_bind,
    Option.bind_some]
  refine (congrArg (Option.bind · _) added).trans ((congrArg (Option.bind · _) closes).trans further)

/-- References to items that are there fit. -/
theorem refsTo_eq {states : Array State} (fit : ChartFits fits states) {refs : List ItemRef}
    (found : ∀ ref ∈ refs, ∃ item, itemAt states ref = some item) :
    refs.mapM (fun ref => refTo fits ref.state ref.index) = some refs := by
  induction refs with
  | nil => rfl
  | cons ref refs ih =>
    obtain ⟨⟨item, first⟩, others⟩ := List.forall_mem_cons.mp found
    obtain ⟨s, state, place⟩ := Option.bind_eq_some_iff.mp first
    have index := fit.items state _ (Array.getElem?_eq_some_iff.mp place).1
    simp [refTo_eq (fit.state _ (Array.getElem?_eq_some_iff.mp state).1) index, ih others]

theorem acceptingRefs_eq {states : Array State} (fit : ChartFits fits states) (start : RuleId) :
    acceptingRefs fits states start = some (Chart.acceptingRefs states start) := by
  refine refsTo_eq fit fun ref member => ?_
  obtain ⟨item, found, -⟩ := mem_acceptingRefs.mp member
  exact ⟨item, found⟩

theorem startsEmpty_eq {start : RuleId} (known : start.index < g.rules.size) (states : Array State) :
    startsEmpty g states start = some (Chart.startsEmpty g states start) := by
  obtain ⟨d, found⟩ := Grammar.rule?_of_lt known
  simp [startsEmpty, Chart.startsEmpty, found, Grammar.productions]

end Checked

end Earley.Chart
