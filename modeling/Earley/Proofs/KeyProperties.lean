import Earley.Proofs.ChartRun

/-!
# Properties of keys

Items come into a state by prediction and by steps from earlier items, and nothing else adds a key. So a property of
keys that every prediction starts with and every step keeps holds of all items of a chart.
-/

namespace Earley.Chart

variable {K : ItemKey → Prop} {g : Grammar} {s : State}

structure State.Keyed (K : ItemKey → Prop) (s : State) : Prop where
  coherent : s.Coherent
  all : s.All fun item => K item.key

theorem State.entered_keyed (token : Option Token) : (State.entered token).Keyed K := by
  refine ⟨entered_coherent token, ?_⟩
  intro i item found
  simp [entered] at found

theorem State.Keyed.addAll (h : s.Keyed K) {j : Nat} {cause : Cause} {keys : List ItemKey}
    (new : ∀ key ∈ keys, K key) : (s.addAll j cause keys).1.Keyed K := by
  induction keys generalizing s with
  | nil => exact h
  | cons key keys ih =>
    obtain ⟨here, others⟩ := List.forall_mem_cons.mp new
    have added := add_added h.coherent j cause key
    apply ih _ others
    refine ⟨added.coherent, added.all h.all (fun {item} known _ => ?_) ?_⟩
    · rw [(item.grows_rearrive cause).key]
      exact known
    · rw [Item.key_arrive]
      exact here

theorem State.Keyed.mapItem (h : s.Keyed K) (i : Nat) {f : Item → Item} (keys : ∀ item, (f item).key = item.key) :
    (s.mapItem i f).Keyed K := by
  refine ⟨h.coherent.mapItem i keys, ?_⟩
  intro j item found
  rw [getElem?_mapItem] at found
  split at found
  · obtain ⟨old, place, rfl⟩ := Option.map_eq_some_iff.mp found
    rw [keys]
    exact h.all place
  · exact h.all found

/-- Moving an item on adds none but its next keys. -/
theorem State.Keyed.advance (h : s.Keyed K) (j : Nat) (ref : ItemRef) {item : Item} (child : Child) (cost : Penalty)
    (next : ∀ key ∈ g.nextKeys item.key, K key) : (Chart.advance g j s ref item child cost).1.Keyed K := by
  rw [Chart.advance]
  split
  · exact h
  · exact h.addAll next

theorem State.Keyed.predict (h : s.Keyed K) (j : Nat) (ref : ItemRef) {item : Item} {target : Target}
    (opening : ∀ key ∈ g.openingKeys target j, K key) (next : ∀ key ∈ g.nextKeys item.key, K key) :
    (Chart.predict g j s ref item target).Keyed K := by
  have opened : (s.addAll j (.predicted ref) (g.openingKeys target j)).1.Keyed K := h.addAll opening
  have noted (refs : List ItemRef) := opened.mapItem ref.index (f := (·.notePredicted refs)) fun _ => rfl
  rw [Chart.predict]
  dsimp only
  split
  · exact State.Keyed.advance (noted _) j ref _ _ next
  · exact noted _

/-- What items of the keys with the property lead to has it as well: their steps, and what their predictions
start with. -/
structure Inherited (K : ItemKey → Prop) (g : Grammar) (input : List Token) : Prop where
  next : ∀ {key}, K key → ∀ key' ∈ g.nextKeys key, K key'
  opening : ∀ {j key target ts p}, K key → key.Valid g j → Behind g input key j ts p → key.op = .predict target →
    ∀ key' ∈ g.openingKeys target j, K key'

variable {input : List Token} {past : Array State}

theorem State.Keyed.complete (h : s.Keyed K) (inherited : Inherited K g input)
    (old : ∀ {j : Nat} {s : State}, past[j]? = some s → s.Keyed K) (ref : ItemRef) (item : Item) (target : Target) :
    (Chart.complete g past s ref item target).Keyed K := by
  rw [Chart.complete]
  split
  case h_1 opened state =>
    refine List.foldlRecOn _ _ h fun s now i _ => ?_
    rw [Chart.resume]
    split
    case h_1 waiter found =>
      have moved := now.advance past.size ⟨item.key.origin, i⟩ (.completed ref) (item.penalty + g.targetPenalty target)
        (inherited.next ((old state).all found))
      exact moved.mapItem ref.index fun _ => rfl
    case h_2 => exact now
  case h_2 => exact h

theorem State.Keyed.serve (h : s.Keyed K) (inherited : Inherited K g input)
    (old : ∀ {j : Nat} {s : State}, past[j]? = some s → s.Keyed K) (growing : Growing g input past s) (i : Nat) :
    (Chart.serve g past s i).Keyed K := by
  rw [Chart.serve]
  split
  case h_1 item found =>
    have next := inherited.next (h.all found)
    dsimp only
    split
    case h_1 target op =>
      have valid := growing.items found
      obtain ⟨ts, behind⟩ := valid.real
      exact h.predict _ _ (inherited.opening (h.all found) valid.key behind op) next
    case h_2 => exact h.advance _ _ _ _ next
    case h_3 => exact h
    case h_4 target op => exact h.complete inherited old _ item target
  case h_2 => exact h

/-- Closing a state keeps the property. -/
theorem State.Keyed.close (h : s.Keyed K) (analyzed : g.Analyzed) (inherited : Inherited K g input)
    (valid : PastValid g input past) (old : ∀ {j : Nat} {s : State}, past[j]? = some s → s.Keyed K)
    (growing : Growing g input past s) : (Chart.close g past s).Keyed K := by
  have served (fuel i : Nat) : (Chart.serveFrom g past fuel s i).Keyed K := by
    induction fuel generalizing s i with
    | zero => exact h
    | succ fuel ih =>
      rw [Chart.serveFrom]
      split
      case isTrue inside =>
        obtain ⟨grown, -⟩ := growing.serve analyzed valid (Array.getElem?_eq_getElem inside)
        exact ih (h.serve inherited old growing i) grown.growing (i + 1)
      case isFalse => exact h
  exact served _ 0

theorem State.Keyed.scan? (h : s.Keyed K) (inherited : Inherited K g input) {j : Nat} {t : Token} {next : State}
    (scanned : Chart.scan? g j s t = some next) : next.Keyed K := by
  rw [Chart.scan?] at scanned
  split at scanned
  case h_1 => cases scanned
  case h_2 =>
    cases scanned
    refine List.foldlRecOn _ _ (State.entered_keyed _) fun s' now (i, item) member => ?_
    exact now.advance (j + 1) ⟨j, i⟩ .token 0 (inherited.next (h.all ((mem_accepting h.coherent).mp member).1))

theorem keyed_push (old : ∀ {j : Nat} {s : State}, past[j]? = some s → s.Keyed K) {last : State}
    (new : last.Keyed K) {j : Nat} {s : State} (state : (past.push last)[j]? = some s) : s.Keyed K := by
  rw [Array.getElem?_push] at state
  split at state
  · cases state
    exact new
  · exact old state

variable {start : RuleId}

theorem Charted.grow_keyed {last : State} {rest : List Token} (analyzed : g.Analyzed) (inherited : Inherited K g input)
    (h : Charted g start input (past.push last))
    (old : ∀ {j : Nat} {s : State}, (past.push last)[j]? = some s → s.Keyed K)
    (left : input.drop past.size = rest) {j : Nat} {s : State} (state : (Chart.grow g past last rest).1[j]? = some s) :
    s.Keyed K := by
  induction rest generalizing past last with
  | nil => exact old state
  | cons t rest ih =>
    have read : input[past.size]? = some t := by
      have first : (input.drop past.size)[0]? = some t := by rw [left]; rfl
      rwa [List.getElem?_drop, Nat.add_zero] at first
    have later : input.drop (past.push last).size = rest := by
      rw [Array.size_push, ← List.drop_drop, left, List.drop_one, List.tail_cons]
    rw [Chart.grow] at state
    rcases scan?_cases h.valid read with ⟨none, -⟩ | ⟨next, some, growing, token, scans⟩
    · rw [none] at state
      exact old state
    · rw [some] at state
      have closed := State.Keyed.close ((old (getElem?_push_size past last)).scan? inherited some) analyzed inherited
        h.valid old growing
      exact ih (h.push analyzed read growing token scans) (keyed_push old closed) later state

/-- A property that the start rule's prediction begins with and that is inherited holds of all keys of a chart. -/
theorem grown_keyed (analyzed : g.Analyzed) (inherited : Inherited K g input)
    (first : ∀ key ∈ g.openingKeys (.rule start) 0, K key) {j : Nat} {s : State}
    (state : (grow g #[] (close g #[] (firstState g start)) input).1[j]? = some s) : s.Keyed K := by
  have opened : (firstState g start).Keyed K := (State.entered_keyed _).addAll first
  have closed := opened.close analyzed inherited ⟨by simp, by simp⟩ (by simp)
    (firstState_growing g start input).1
  exact (firstState_charted analyzed start input).grow_keyed analyzed inherited (keyed_push (by simp) closed) rfl state

end Earley.Chart
