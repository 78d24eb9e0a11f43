import Earley.Proofs.ChartBound

/-!
# The chart of an input

What holds of all states once an input has been read: every item is justified and served, and every item that
could scan the token after its state has done so. No state follows the last just because the input ends there or
because none of its items accepts the next token.
-/

namespace Earley.Chart

variable {g : Grammar} {start : RuleId} {input : List Token} {past : Array State} {s : State}

/-- The states that the tokens read so far have led to, all of them closed. -/
structure Charted (g : Grammar) (start : RuleId) (input : List Token) (states : Array State) : Prop where
  valid : PastValid g input states
  served : ∀ {j : Nat} {s : State}, states[j]? = some s → ∀ {i : Nat} {item : Item}, s.items[i]? = some item →
    Served g states j s i item.key
  begun : ∃ s, states[0]? = some s ∧ ∀ k ∈ g.openingKeys (.rule start) 0, s.Holds k
  read : ∀ {j : Nat} {s : State}, states[j + 1]? = some s → ∃ t, input[j]? = some t ∧ s.token = some t
  /-- Every item that accepts the next token has moved on with it. -/
  scanned : ∀ {j : Nat} {s s' : State} {t : Token}, states[j]? = some s → states[j + 1]? = some s' →
    input[j]? = some t → ∀ {i : Nat} {item : Item} {u : Usage}, s.items[i]? = some item → item.key.op = .scan u →
    g.accepts u t = true → ∀ {k}, k ∈ g.nextKeys item.key → s'.HoldsLink k ⟨⟨j, i⟩, .token⟩

theorem PastValid.push (h : PastValid g input past) (new : Growing g input past s) :
    PastValid g input (past.push s) where
  coherent {j t} found := by
    rw [Array.getElem?_push] at found
    split at found
    · cases found
      exact new.coherent
    · exact h.coherent found
  items {j t} found := by
    rw [Array.getElem?_push] at found
    split at found
    case isTrue last =>
      cases found
      rw [last]
      exact new.items
    case isFalse =>
      intro i item place
      exact (h.items found place).mono (chartExtends_past past s)

/-- A completion only looks at states before its own. -/
theorem Served.push {j i : Nat} {key : ItemKey} {t : State} (h : Served g past j t i key) (bound : j ≤ past.size) :
    Served g (past.push s) j t i key where
  opened := h.opened
  skipped := h.skipped
  passed := h.passed
  resumed op before _ _ _ state waits predicts _ member := by
    rw [getElem?_push_lt s (Nat.lt_of_lt_of_le before bound)] at state
    exact h.resumed op before state waits predicts member

/-- A closed state after served ones leaves all served. -/
theorem served_push (old : ∀ {j : Nat} {s : State}, past[j]? = some s → ∀ {i : Nat} {item : Item},
      s.items[i]? = some item → Served g past j s i item.key)
    {closed : State} (new : ∀ n, ServedBelow g past closed n) {j : Nat} {s : State}
    (state : (past.push closed)[j]? = some s) {i : Nat} {item : Item} (found : s.items[i]? = some item) :
    Served g (past.push closed) j s i item.key := by
  rw [Array.getElem?_push] at state
  split at state
  case isTrue top =>
    cases state
    rw [top]
    exact (new (i + 1) i item (Nat.lt_succ_self i) found).push (Nat.le_refl _)
  case isFalse =>
    have bound := (Array.getElem?_eq_some_iff.mp state).1
    exact (old state found).push (Nat.le_of_lt bound)

theorem firstState_growing (g : Grammar) (start : RuleId) (input : List Token) :
    Growing g input #[] (firstState g start) ∧ ∀ k ∈ g.openingKeys (.rule start) 0, (firstState g start).Holds k := by
  have blank : Growing g input #[] (.entered none) := by
    refine ⟨State.entered_coherent none, ?_⟩
    intro i item found
    simp [State.entered] at found
  have reason (key : ItemKey) (member : key ∈ g.openingKeys (.rule start) 0) :
      Cause.initial.Justifies g input (Array.push #[] (State.entered none)) 0 key := by
    obtain ⟨origin, dot, count⟩ := origin_opening member
    exact ⟨valid_opening (fun _ same => by cases same) member, dot, count, origin, behind_opening member⟩
  obtain ⟨grown, present⟩ := blank.addAll reason
  refine ⟨grown.growing, fun k member => ?_⟩
  obtain ⟨i, item, found, same, -⟩ := present k member
  exact ⟨i, item, found, same⟩

theorem mem_accepting (h : s.Coherent) {t : Token} {i : Nat} {item : Item} :
    (i, item) ∈ s.accepting g t ↔ s.items[i]? = some item ∧ ∃ u, item.key.op = .scan u ∧ g.accepts u t = true := by
  have accepts_iff : acceptsNext g item t = true ↔ ∃ u, item.key.op = .scan u ∧ g.accepts u t = true := by
    unfold acceptsNext
    split <;> simp_all
  simp only [State.accepting, List.mem_filterMap, Option.bind_eq_some_iff]
  constructor
  · rintro ⟨i', -, item', found, result⟩
    split at result
    · cases result
      exact ⟨found, accepts_iff.mp ‹_›⟩
    · cases result
  · rintro ⟨found, scans⟩
    obtain ⟨u, op, -⟩ := id scans
    exact ⟨i, h.mem_scanners.mpr ⟨item, u, found, op⟩, item, found, by rw [if_pos (accepts_iff.mpr scans)]⟩

/-- Moving on some items that accept a token, into the state after it. -/
theorem Growing.scanAll {t : Token} {j : Nat} {last : State} (old : PastValid g input past)
    (next : past.size = j + 1) (state : past[j]? = some last) (read : input[j]? = some t)
    (accepting : List (Nat × Item)) (scans : ∀ i item, (i, item) ∈ accepting →
      last.items[i]? = some item ∧ ∃ u, item.key.op = .scan u ∧ g.accepts u t = true)
    (h : Growing g input past s) (token : s.token = some t) :
    GrownFrom g input past s
        (accepting.foldl (fun s (i, item) => (Chart.advance g (j + 1) s ⟨j, i⟩ item .token 0).1) s) ∧
      ∀ i item, (i, item) ∈ accepting → ∀ k ∈ g.nextKeys item.key,
        (accepting.foldl (fun s (i, item) => (Chart.advance g (j + 1) s ⟨j, i⟩ item .token 0).1) s).HoldsLink k
          ⟨⟨j, i⟩, .token⟩ := by
  induction accepting generalizing s with
  | nil => exact ⟨h.refl, by simp⟩
  | cons first others ih =>
    obtain ⟨i, item⟩ := first
    obtain ⟨found, u, op, accepted⟩ := scans i item (List.mem_cons_self ..)
    have valid := (old.items state found).mono (chartExtends_past past s)
    have has : HasKey (past.push s) ⟨j, i⟩ item.key :=
      ⟨item, by simp [itemAt, getElem?_push_lt s (show j < past.size by omega), state, found], rfl⟩
    have crossed : g.Parses input [.symbol (.usage u)] j past.size [.leaf t j] 0 := by
      rw [next]
      exact .usage read accepted .nil
    obtain ⟨grown, linked⟩ := h.advance ⟨j, i⟩ .token has valid
      (.token next.symm op (getElem?_push_size past s) token accepted) (by rw [op]; rfl) crossed
    rw [next] at grown linked
    obtain ⟨rest, present⟩ := ih (fun i item member => scans i item (List.mem_cons_of_mem _ member)) grown.growing
      (grown.more.token.trans token)
    refine ⟨grown.trans rest, fun i' item' member k after => ?_⟩
    rcases List.mem_cons.mp member with here | later
    · cases here
      exact (linked (fun same => by dsimp only at same; omega) k after).mono rest.more
    · exact present i' item' later k after

/-- What a scan leads to: no state, if nothing accepts the token, or one with all items that do. -/
theorem scan?_cases {t : Token} {last : State} (old : PastValid g input (past.push last))
    (read : input[past.size]? = some t) :
    (scan? g past.size last t = none ∧ ∀ {i : Nat} {item : Item} {u : Usage}, last.items[i]? = some item →
      item.key.op = .scan u → g.accepts u t = false) ∨
    ∃ next, scan? g past.size last t = some next ∧ Growing g input (past.push last) next ∧ next.token = some t ∧
      ∀ {i : Nat} {item : Item} {u : Usage}, last.items[i]? = some item → item.key.op = .scan u →
        g.accepts u t = true → ∀ k ∈ g.nextKeys item.key, next.HoldsLink k ⟨⟨past.size, i⟩, .token⟩ := by
  have here : (past.push last)[past.size]? = some last := getElem?_push_size past last
  have mem {i : Nat} {item : Item} : (i, item) ∈ last.accepting g t ↔ _ := mem_accepting (old.coherent here)
  unfold scan?
  split
  case h_1 none =>
    refine .inl ⟨rfl, fun {i item u} found op => ?_⟩
    cases accepted : g.accepts u t with
    | false => rfl
    | true => simpa [none] using mem.mpr ⟨found, u, op, accepted⟩
  case h_2 =>
    have blank : Growing g input (past.push last) (.entered (some t)) := by
      refine ⟨State.entered_coherent _, ?_⟩
      intro i item found
      simp [State.entered] at found
    obtain ⟨grown, linked⟩ := blank.scanAll old (by simp) here read (last.accepting g t) (fun _ _ => mem.mp) rfl
    exact .inr ⟨_, rfl, grown.growing, grown.more.token, fun {i item u} found op accepted k member =>
      linked i item (mem.mpr ⟨found, u, op, accepted⟩) k member⟩

/-- The chart with one more state. -/
theorem Charted.push {t : Token} {last next : State} (analyzed : g.Analyzed)
    (h : Charted g start input (past.push last)) (read : input[past.size]? = some t)
    (growing : Growing g input (past.push last) next) (token : next.token = some t)
    (scans : ∀ {i : Nat} {item : Item} {u : Usage}, last.items[i]? = some item → item.key.op = .scan u →
      g.accepts u t = true → ∀ k ∈ g.nextKeys item.key, next.HoldsLink k ⟨⟨past.size, i⟩, .token⟩) :
    Charted g start input ((past.push last).push (close g (past.push last) next)) := by
  obtain ⟨grown, served⟩ := growing.close analyzed h.valid
  generalize close g (past.push last) next = closed at *
  have old {j : Nat} (less : j < past.size + 1) : ((past.push last).push closed)[j]? = (past.push last)[j]? :=
    getElem?_push_lt closed (by simpa using less)
  have new : ((past.push last).push closed)[past.size + 1]? = some closed := by
    simpa using getElem?_push_size (past.push last) closed
  refine ⟨h.valid.push grown.growing, served_push h.served served, ?_, ?_, ?_⟩
  · obtain ⟨first, state, holds⟩ := h.begun
    exact ⟨first, by rw [old (by omega)]; exact state, holds⟩
  · intro j t' state
    rw [Array.getElem?_push] at state
    split at state
    case isTrue top =>
      cases state
      obtain rfl : j = past.size := by simpa using top
      exact ⟨t, read, grown.more.token.trans token⟩
    case isFalse => exact h.read state
  · intro j s s' t' state state' read' i item u found op accepted k member
    have bound := (Array.getElem?_eq_some_iff.mp state').1
    simp only [Array.size_push] at bound
    rw [old (by omega)] at state
    rcases Nat.lt_or_eq_of_le (show j ≤ past.size by omega) with earlier | rfl
    · rw [old (by omega)] at state'
      exact h.scanned state state' read' found op accepted member
    · rw [getElem?_push_size] at state
      cases state
      cases new.symm.trans state'
      cases read.symm.trans read'
      exact (scans found op accepted k member).mono grown.more

/-- How reading ends: after the last token, or in a state none of whose items accepts the next one. -/
def Ends (g : Grammar) (input : List Token) (states : Array State) : Option Nat → Prop
  | none => states.size = input.length + 1
  | some j => states.size = j + 1 ∧ ∃ t s, input[j]? = some t ∧ states[j]? = some s ∧
      ∀ {i : Nat} {item : Item} {u : Usage}, s.items[i]? = some item → item.key.op = .scan u → g.accepts u t = false

theorem Charted.grow {last : State} {rest : List Token} (analyzed : g.Analyzed)
    (h : Charted g start input (past.push last)) (left : input.drop past.size = rest)
    (bound : past.size ≤ input.length) :
    Charted g start input (grow g past last rest).1 ∧
      Ends g input (grow g past last rest).1 (grow g past last rest).2 := by
  induction rest generalizing past last with
  | nil =>
    refine ⟨h, ?_⟩
    have := List.drop_eq_nil_iff.mp left
    simp only [Ends, Chart.grow, Array.size_push]
    omega
  | cons t rest ih =>
    have read : input[past.size]? = some t := by
      have first : (input.drop past.size)[0]? = some t := by rw [left]; rfl
      rwa [List.getElem?_drop, Nat.add_zero] at first
    have inside := (List.getElem?_eq_some_iff.mp read).1
    have later : input.drop (past.push last).size = rest := by
      rw [Array.size_push, ← List.drop_drop, left, List.drop_one, List.tail_cons]
    unfold Chart.grow
    rcases scan?_cases h.valid read with ⟨none, refused⟩ | ⟨next, some, growing, token, scans⟩
    · rw [none]
      exact ⟨h, by simp, t, last, read, getElem?_push_size past last, refused⟩
    · rw [some]
      exact ih (h.push analyzed read growing token scans) later (by simpa using Nat.succ_le_of_lt inside)

/-- The first state, once it is closed, is a chart as far as nothing has been read. -/
theorem firstState_charted (analyzed : g.Analyzed) (start : RuleId) (input : List Token) :
    Charted g start input (Array.push #[] (close g #[] (firstState g start))) := by
  obtain ⟨growing, opened⟩ := firstState_growing g start input
  have nothing : PastValid g input #[] := ⟨by simp, by simp⟩
  obtain ⟨grown, served⟩ := growing.close analyzed nothing
  generalize close g #[] (firstState g start) = closed at *
  refine ⟨nothing.push grown.growing, served_push (by simp) served, ?_, ?_, ?_⟩
  · exact ⟨closed, by simp, fun k member => (opened k member).mono grown.more⟩
  · intro j s state
    simp at state
  · intro j s s' t state state'
    simp at state'

/-- The states that some tokens lead to from the first one are a chart of them. -/
theorem grow_charted (analyzed : g.Analyzed) (start : RuleId) (input : List Token) :
    Charted g start input (grow g #[] (close g #[] (firstState g start)) input).1 ∧
      Ends g input (grow g #[] (close g #[] (firstState g start)) input).1
        (grow g #[] (close g #[] (firstState g start)) input).2 :=
  (firstState_charted analyzed start input).grow analyzed rfl (Nat.zero_le _)

/-- The states built for some tokens are a chart of those before the end of the input. -/
theorem build_charted (analyzed : g.Analyzed) (start : RuleId) (tokens : List Token) :
    Charted g start (tokens.takeWhile (!·.isFinish)) (build g start tokens).1 ∧
      Ends g (tokens.takeWhile (!·.isFinish)) (build g start tokens).1 (build g start tokens).2 :=
  grow_charted analyzed start (tokens.takeWhile (!·.isFinish))

end Earley.Chart
