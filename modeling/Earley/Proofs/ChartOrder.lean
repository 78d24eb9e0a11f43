import Earley.Proofs.ChartRemarks
import Earley.Proofs.Recognition

/-!
# The order of service does not matter

A closed state records the remarks that it was opened with and all that become due because of them, in whatever order
its items are served. What a state is opened with depends on the keys of the state before it alone. So all ways of
reading an input leave the same behind, up to penalties and the order of items and lists.
-/

namespace Earley

namespace Chart

/-- What is recorded when some remarks are given and every item that is there is served. -/
inductive Recorded (g : Grammar) (holds : Place → Prop) (j : Nat) (given : ItemKey → Remark → Prop) :
    ItemKey → Remark → Prop where
  | given {key : ItemKey} {r : Remark} (h : given key r) : Recorded g holds j given key r
  | due {served key : ItemKey} {r : Remark} (there : Recorded g holds j given served .present)
      (due : Due g holds j served key r) : Recorded g holds j given key r

variable {name name' : ItemRef → Option Place} {g : Grammar} {input : List Token} {past past' : Array State}

def NamedAll (name : ItemRef → Option Place) (states : Array State) : Prop :=
  ∀ {j : Nat} {s : State}, states[j]? = some s → s.Named name j

/-- A state that is being closed: what it records is given or due, and what the served items make due is there. -/
structure Underway (name : ItemRef → Option Place) (g : Grammar) (past : Array State)
    (given : ItemKey → Remark → Prop) (served : List Nat) (s : State) : Prop where
  sound : ∀ {key r}, s.Records name key r → Recorded g (HoldsAt past) past.size given key r
  given : ∀ {key r}, given key r → s.Records name key r
  served : ∀ {i}, i ∈ served → ∃ item, s.items[i]? = some item ∧
    ∀ {key r}, Due g (HoldsAt past) past.size item.key key r → s.Records name key r

section Closing

variable {given : ItemKey → Remark → Prop} {served : List Nat} {s closed : State}

theorem Underway.serve (analyzed : g.Analyzed) (old : PastValid g input past) (names : NamedAll name past)
    (growing : Growing g input past s) (h : Underway name g past given served s) {i : Nat}
    (inside : i < s.items.size) (named : (Chart.serve g past s i).Named name past.size) :
    Underway name g past given (i :: served) (Chart.serve g past s i) := by
  have found := Array.getElem?_eq_getElem inside
  have more := (growing.serve analyzed old found).1.more
  have records {key : ItemKey} {r : Remark} : (Chart.serve g past s i).Records name key r ↔ _ :=
    records_serve (fun state => ⟨old.coherent state, names state⟩) growing.coherent found named
  refine ⟨fun recorded => ?_, fun first => records.mpr (.inl (h.given first)), fun {m} member => ?_⟩
  · rcases records.mp recorded with earlier | due
    · exact h.sound earlier
    · exact .due (h.sound (State.records_present.mpr ⟨i, _, found, rfl⟩)) due
  · rcases List.mem_cons.mp member with rfl | before
    · obtain ⟨item, found', grows⟩ := more.item found
      refine ⟨item, found', fun due => records.mpr (.inr ?_)⟩
      rwa [← grows.key]
    · obtain ⟨item, place, done⟩ := h.served before
      obtain ⟨item', place', grows⟩ := more.item place
      refine ⟨item', place', fun due => records.mpr (.inl (done ?_))⟩
      rwa [← grows.key]

theorem Underway.finish (h : Underway name g past given served s) (all : ∀ i < s.items.size, i ∈ served)
    {key : ItemKey} {r : Remark} :
    s.Records name key r ↔ Recorded g (HoldsAt past) past.size given key r := by
  refine ⟨h.sound, fun recorded => ?_⟩
  -- By induction on how the remark comes about: the item that makes it due is there, so it has been served.
  induction recorded with
  | given first => exact h.given first
  | due _ due ih =>
    obtain ⟨i, item, found, rfl⟩ := State.records_present.mp ih
    obtain ⟨item', found', done⟩ := h.served (all i (Array.getElem?_eq_some_iff.mp found).1)
    cases found.symm.trans found'
    exact done due

theorem ClosesTo.growing (analyzed : g.Analyzed) (old : PastValid g input past) (growing : Growing g input past s)
    (h : ClosesTo g past served s closed) : GrownFrom g input past s closed := by
  induction h with
  | done => exact growing.refl
  | next inside _ _ ih =>
    have step := (growing.serve analyzed old (Array.getElem?_eq_getElem inside)).1
    exact step.trans (ih step.growing)

/-- Whatever the order, a closed state records what is given and what is due. -/
theorem ClosesTo.records (analyzed : g.Analyzed) (old : PastValid g input past) (names : NamedAll name past)
    (growing : Growing g input past s) (h : ClosesTo g past served s closed) (named : closed.Named name past.size)
    (underway : Underway name g past given served s) {key : ItemKey} {r : Remark} :
    closed.Records name key r ↔ Recorded g (HoldsAt past) past.size given key r := by
  induction h with
  | done all => exact underway.finish all
  | next inside _ rest ih =>
    have step := (growing.serve analyzed old (Array.getElem?_eq_getElem inside)).1
    have before := named.before (rest.growing analyzed old step.growing).more
    exact ih step.growing named (underway.serve analyzed old names growing inside before)

end Closing

/-- Two states record the same, each in its own naming. -/
structure Alike (name name' : ItemRef → Option Place) (s s' : State) : Prop where
  token : s.token = s'.token
  records : ∀ {key r}, s.Records name key r ↔ s'.Records name' key r

theorem Alike.holds {s s' : State} (h : Alike name name' s s') {key : ItemKey} : s.Holds key ↔ s'.Holds key := by
  rw [← State.records_present, h.records, State.records_present]

structure AlikeAll (name name' : ItemRef → Option Place) (states states' : Array State) : Prop where
  size : states.size = states'.size
  state : ∀ {j : Nat} {s s' : State}, states[j]? = some s → states'[j]? = some s' → Alike name name' s s'

theorem AlikeAll.symm {states states' : Array State} (h : AlikeAll name name' states states') :
    AlikeAll name' name states' states :=
  ⟨h.size.symm, fun state state' => ⟨(h.state state' state).token.symm, (h.state state' state).records.symm⟩⟩

theorem AlikeAll.exists {states states' : Array State} (h : AlikeAll name name' states states') {j : Nat} {s : State}
    (state : states[j]? = some s) : ∃ s', states'[j]? = some s' ∧ Alike name name' s s' := by
  have bound := h.size ▸ (Array.getElem?_eq_some_iff.mp state).1
  exact ⟨_, Array.getElem?_eq_getElem bound, h.state state (Array.getElem?_eq_getElem bound)⟩

theorem AlikeAll.push {s s' : State} (h : AlikeAll name name' past past') (new : Alike name name' s s') :
    AlikeAll name name' (past.push s) (past'.push s') := by
  refine ⟨by simp [h.size], fun {j t t'} state state' => ?_⟩
  rw [Array.getElem?_push] at state state'
  rw [← h.size] at state'
  split at state
  case isTrue top =>
    rw [if_pos top] at state'
    cases state
    cases state'
    exact new
  case isFalse below =>
    rw [if_neg below] at state'
    exact h.state state state'

theorem AlikeAll.holdsAt (h : AlikeAll name name' past past') : HoldsAt past = HoldsAt past' := by
  have half {name name' : ItemRef → Option Place} {past past' : Array State} (h : AlikeAll name name' past past')
      {place : Place} : HoldsAt past place → HoldsAt past' place := by
    rintro ⟨s, state, holds⟩
    obtain ⟨s', state', alike⟩ := h.exists state
    exact ⟨s', state', alike.holds.mp holds⟩
  funext place
  exact propext ⟨half h, half h.symm⟩

structure Closing (name : ItemRef → Option Place) (g : Grammar) (input : List Token) (past : Array State)
    (s closed : State) : Prop where
  old : PastValid g input past
  growing : Growing g input past s
  closes : ClosesTo g past [] s closed
  names : NamedAll name (past.push closed)

theorem Closing.valid (analyzed : g.Analyzed) {s closed : State} (h : Closing name g input past s closed) :
    PastValid g input (past.push closed) :=
  h.old.push (h.closes.growing analyzed h.old h.growing).growing

theorem Closing.records (analyzed : g.Analyzed) {s closed : State} (h : Closing name g input past s closed)
    {key : ItemKey} {r : Remark} : closed.Records name key r ↔
      Recorded g (HoldsAt past) past.size (s.Records name) key r := by
  have names : NamedAll name past := fun state => by
    apply h.names
    rw [getElem?_push_lt closed (Array.getElem?_eq_some_iff.mp state).1]
    exact state
  exact h.closes.records analyzed h.old names h.growing (h.names (getElem?_push_size past closed))
    ⟨.given, id, by simp⟩

/-- Closing states that are alike leads to states that are alike. -/
theorem Closing.alike (analyzed : g.Analyzed) {s s' closed closed' : State} (h : Closing name g input past s closed)
    (h' : Closing name' g input past' s' closed') (before : AlikeAll name name' past past')
    (opened : Alike name name' s s') : Alike name name' closed closed' := by
  have more := h.closes.growing analyzed h.old h.growing
  have more' := h'.closes.growing analyzed h'.old h'.growing
  have given : s.Records name = s'.Records name' := by
    funext key r
    exact propext opened.records
  refine ⟨more.more.token.trans (opened.token.trans more'.more.token.symm), ?_⟩
  intro key r
  rw [h.records analyzed, h'.records analyzed, before.holdsAt, before.size, given]

def ItemKey.Takes (g : Grammar) (t : Token) (key : ItemKey) : Prop := ∃ u, key.op = .scan u ∧ g.accepts u t = true

section Scanning

variable {t : Token} {last last' : State} {order : List (Nat × Item)}

theorem exists_mem_accepting (h : last.Coherent) {P : ItemKey → Prop} :
    (∃ entry ∈ last.accepting g t, P entry.2.key) ↔ ∃ key, last.Holds key ∧ key.Takes g t ∧ P key := by
  constructor
  · rintro ⟨⟨i, item⟩, member, holds⟩
    obtain ⟨found, takes⟩ := (mem_accepting h).mp member
    exact ⟨item.key, ⟨i, item, found, rfl⟩, takes, holds⟩
  · rintro ⟨key, ⟨i, item, found, rfl⟩, takes, holds⟩
    exact ⟨(i, item), (mem_accepting h).mpr ⟨found, takes⟩, holds⟩

/-- The items that a token moves on record their links, in whatever order they are moved. -/
theorem records_scanAll {s : State} (h : s.Coherent) {j : Nat}
    (places : ∀ entry ∈ order, name ⟨j, entry.1⟩ = some ⟨j, entry.2.key⟩) {key : ItemKey} {r : Remark} :
    (order.foldl (fun s (i, item) => (advance g (j + 1) s ⟨j, i⟩ item .token 0).1) s).Records name key r ↔
      s.Records name key r ∨ ∃ entry ∈ order, Place.Sends g (j + 1) ⟨j, entry.2.key⟩ .token key r := by
  induction order generalizing s with
  | nil => simp
  | cons entry order ih =>
    obtain ⟨here, others⟩ := List.forall_mem_cons.mp places
    simp only [List.foldl_cons, List.exists_mem_cons_iff]
    rw [ih (advance_coherent h ..).1 others, records_advance h here, or_assoc]
    rfl

theorem records_enter (h : last.Coherent) {j : Nat} (named : last.Named name j)
    (accepting : order.Perm (last.accepting g t)) {key : ItemKey} {r : Remark} :
    (enter g j t order).Records name key r ↔
      ∃ k, last.Holds k ∧ k.Takes g t ∧ Place.Sends g (j + 1) ⟨j, k⟩ .token key r := by
  have places (entry : Nat × Item) (member : entry ∈ order) : name ⟨j, entry.1⟩ = some ⟨j, entry.2.key⟩ :=
    named.place ((mem_accepting h).mp (accepting.mem_iff.mp member)).1
  rw [enter, records_scanAll (State.entered_coherent _) places]
  simp only [State.not_records_entered, false_or, accepting.mem_iff]
  exact exists_mem_accepting h (P := fun k => Place.Sends g (j + 1) ⟨j, k⟩ .token key r)

theorem enter_growing (valid : PastValid g input (past.push last)) (read : input[past.size]? = some t)
    (accepting : order.Perm (last.accepting g t)) :
    Growing g input (past.push last) (enter g past.size t order) ∧ (enter g past.size t order).token = some t := by
  have here := getElem?_push_size past last
  have blank : Growing g input (past.push last) (.entered (some t)) := by
    refine ⟨State.entered_coherent _, ?_⟩
    intro i item found
    simp [State.entered] at found
  have scans (i : Nat) (item : Item) (member : (i, item) ∈ order) :=
    (mem_accepting (valid.coherent here)).mp (accepting.mem_iff.mp member)
  have grown := (blank.scanAll valid (by simp) here read order scans rfl).1
  exact ⟨grown.growing, grown.more.token⟩

/-- What a token opens depends on the keys of the state before it alone. -/
theorem enter_alike {order' : List (Nat × Item)} (h : last.Coherent) (h' : last'.Coherent) {j : Nat}
    (named : last.Named name j) (named' : last'.Named name' j) (alike : Alike name name' last last')
    (accepting : order.Perm (last.accepting g t)) (accepting' : order'.Perm (last'.accepting g t))
    (token : (enter g j t order).token = (enter g j t order').token) :
    Alike name name' (enter g j t order) (enter g j t order') := by
  refine ⟨token, ?_⟩
  intro key r
  rw [records_enter h named accepting, records_enter h' named' accepting']
  simp only [alike.holds]

theorem accepting_eq_nil_iff (h : last.Coherent) :
    last.accepting g t = [] ↔ ∀ key, last.Holds key → ¬ key.Takes g t := by
  have present := exists_mem_accepting h (g := g) (t := t) (P := fun _ => True)
  constructor
  · intro none key holds takes
    obtain ⟨entry, member, -⟩ := present.mpr ⟨key, holds, takes, trivial⟩
    simp [none] at member
  · intro refused
    apply List.eq_nil_iff_forall_not_mem.mpr
    intro entry member
    obtain ⟨key, holds, takes, -⟩ := present.mp ⟨entry, member, trivial⟩
    exact refused key holds takes

theorem Alike.accepting_eq_nil (alike : Alike name name' last last') (h : last.Coherent) (h' : last'.Coherent) :
    last.accepting g t = [] ↔ last'.accepting g t = [] := by
  simp only [accepting_eq_nil_iff h, accepting_eq_nil_iff h', alike.holds]

end Scanning

section Reading

variable {last last' : State} {rest : List Token} {states states' : Array State} {failed failed' : Option Nat}

theorem ReadsTo.keeps (h : ReadsTo g past last rest states failed) {j : Nat} {s : State}
    (state : (past.push last)[j]? = some s) : states[j]? = some s := by
  induction h with
  | finished => exact state
  | refused => exact state
  | @read past states last next _ _ _ _ _ _ _ _ ih =>
    apply ih
    rw [getElem?_push_lt next (Array.getElem?_eq_some_iff.mp state).1]
    exact state

theorem ReadsTo.names (h : ReadsTo g past last rest states failed) (names : NamedAll name states) :
    NamedAll name (past.push last) :=
  fun state => names (h.keeps state)

theorem getElem?_of_drop {t : Token} {n : Nat} (left : input.drop n = t :: rest) :
    input[n]? = some t ∧ input.drop (n + 1) = rest := by
  have first : (input.drop n)[0]? = some t := by rw [left]; rfl
  refine ⟨by simpa using first, ?_⟩
  rw [← List.drop_drop, left, List.drop_one, List.tail_cons]

/-- Reading on after a token, whose state is one way of closing what the token opens. -/
theorem closing_of_read (valid : PastValid g input (past.push last)) {t : Token} {next : State}
    {order : List (Nat × Item)} (read : input[past.size]? = some t) (accepting : order.Perm (last.accepting g t))
    (closes : ClosesTo g (past.push last) [] (enter g past.size t order) next)
    (later : ReadsTo g (past.push last) next rest states failed) (names : NamedAll name states) :
    Closing name g input (past.push last) (enter g past.size t order) next :=
  ⟨valid, (enter_growing valid read accepting).1, closes, later.names names⟩

/-- Two ways of reading the same tokens from states that are alike. -/
theorem ReadsTo.alike (analyzed : g.Analyzed) (h : ReadsTo g past last rest states failed)
    (h' : ReadsTo g past' last' rest states' failed') (names : NamedAll name states) (names' : NamedAll name' states')
    (valid : PastValid g input (past.push last)) (valid' : PastValid g input (past'.push last'))
    (before : AlikeAll name name' past past') (alike : Alike name name' last last')
    (left : input.drop past.size = rest) :
    AlikeAll name name' states states' ∧ failed = failed' ∧ PastValid g input states ∧ PastValid g input states' := by
  induction h generalizing past' last' with
  | finished =>
    cases h' with
    | finished => exact ⟨before.push alike, rfl, valid, valid'⟩
  | @refused past last _ _ nothing =>
    cases h' with
    | refused => exact ⟨before.push alike, by rw [before.size], valid, valid'⟩
    | read accepting something =>
      have coherent := valid.coherent (getElem?_push_size past last)
      have nothing' := (alike.accepting_eq_nil coherent (valid'.coherent (getElem?_push_size past' last'))).mp nothing
      rw [nothing'] at accepting
      exact absurd accepting.eq_nil something
  | @read past states last next t rest failed order accepting something closes later ih =>
    have here := getElem?_push_size past last
    have here' := getElem?_push_size past' last'
    cases h' with
    | refused nothing' =>
      have nothing := (alike.accepting_eq_nil (valid.coherent here) (valid'.coherent here')).mpr nothing'
      rw [nothing] at accepting
      exact absurd accepting.eq_nil something
    | @read _ _ _ next' _ _ _ order' accepting' something' closes' later' =>
      -- Both ways open a state with the same remarks and close it, each in its own order.
      obtain ⟨read, left⟩ := getElem?_of_drop left
      have read' : input[past'.size]? = some t := before.size ▸ read
      have opened := closing_of_read valid read accepting closes later names
      have opened' := closing_of_read valid' read' accepting' closes' later' names'
      have token := (enter_growing valid read accepting).2.trans (enter_growing valid' read' accepting').2.symm
      have named := later.names names ((getElem?_push_lt next (by simp)).trans here)
      have named' := later'.names names' ((getElem?_push_lt next' (by simp)).trans here')
      rw [← before.size] at opened' token named'
      have entered := enter_alike (valid.coherent here) (valid'.coherent here') named named' alike accepting
        accepting' token
      have closed := opened.alike analyzed opened' (before.push alike) entered
      exact ih later' names (opened.valid analyzed) (opened'.valid analyzed) (before.push alike) closed
        (by simpa using left)

theorem firstState_alike (g : Grammar) (start : RuleId) :
    Alike name name' (firstState g start) (firstState g start) := by
  refine ⟨rfl, fun {key r} => ?_⟩
  unfold firstState
  rw [State.records_addAll (State.entered_coherent none), State.records_addAll (State.entered_coherent none)]
  simp only [State.not_records_entered, false_or]
  cases r <;> rfl

/-- All ways of reading an input lead to charts that are alike. -/
theorem Reads.alike (analyzed : g.Analyzed) {start : RuleId} {tokens : List Token}
    (h : Reads g start tokens states failed) (h' : Reads g start tokens states' failed') (names : NamedAll name states)
    (names' : NamedAll name' states') :
    AlikeAll name name' states states' ∧ failed = failed' ∧ PastValid g (tokens.takeWhile (!·.isFinish)) states ∧
      PastValid g (tokens.takeWhile (!·.isFinish)) states' := by
  obtain ⟨first, closes, later⟩ := h
  obtain ⟨first', closes', later'⟩ := h'
  have growing := (firstState_growing g start (tokens.takeWhile (!·.isFinish))).1
  have nothing : PastValid g (tokens.takeWhile (!·.isFinish)) #[] := ⟨by simp, by simp⟩
  have opened : Closing name g _ #[] _ first := ⟨nothing, growing, closes, later.names names⟩
  have opened' : Closing name' g _ #[] _ first' := ⟨nothing, growing, closes', later'.names names'⟩
  have blank : AlikeAll name name' #[] #[] := ⟨rfl, by simp⟩
  exact later.alike analyzed later' names names' (opened.valid analyzed) (opened'.valid analyzed) blank
    (opened.alike analyzed opened' blank (firstState_alike g start)) rfl

end Reading

section Account

variable {states states' : Array State}

theorem namedAll_placeOf (states : Array State) : NamedAll (placeOf states) states :=
  fun state => ⟨fun found => by simp [placeOf, state, found]⟩

/-- The start of an item is the first item of its derivation. -/
theorem PastValid.placeOf_start (valid : PastValid g input states) {j i : Nat} {s : State} {item : Item}
    (state : states[j]? = some s) (found : s.items[i]? = some item) :
    placeOf states item.start = some ⟨item.key.origin, firstKey g item.key⟩ := by
  obtain ⟨origin, first, place, same⟩ := (valid.items state found).begun
  obtain ⟨t, state', found'⟩ := Option.bind_eq_some_iff.mp place
  simp only [placeOf, state', found', Option.bind_some, Option.map_some, same]
  rw [origin]

/-- In a coherent state an item notes what is recorded about its key. -/
theorem State.Coherent.notes_iff {s : State} (h : s.Coherent) {i : Nat} {item : Item}
    (found : s.items[i]? = some item) {r : Remark} : item.Notes name r ↔ s.Records name item.key r := by
  constructor
  · exact fun notes => ⟨i, item, found, rfl, notes⟩
  · rintro ⟨m, other, found', same, notes⟩
    obtain rfl := h.unique found found' same.symm
    cases found.symm.trans found'
    exact notes

/-- An item of one of two charts that are alike has a counterpart in the other. -/
theorem AlikeAll.entry_eq (h : AlikeAll (placeOf states) (placeOf states') states states')
    (valid : PastValid g input states) (valid' : PastValid g input states') {j : Nat} {s s' : State} {item : Item}
    (state : states[j]? = some s) (state' : states'[j]? = some s') (member : item ∈ s.items) :
    ∃ item' ∈ s'.items, item.entry (placeOf states) = item'.entry (placeOf states') := by
  have alike := h.state state state'
  obtain ⟨i, found⟩ := Array.mem_iff_getElem?.mp member
  obtain ⟨i', item', found', same⟩ := alike.holds.mp ⟨i, item, found, rfl⟩
  have remarks : {r | item.Notes (placeOf states) r} = {r | item'.Notes (placeOf states') r} := by
    ext r
    simp only [Set.mem_ofPred_eq, (valid.coherent state).notes_iff found, (valid'.coherent state').notes_iff found',
      alike.records, same]
  refine ⟨item', Array.mem_of_getElem? found', ?_⟩
  simp only [Item.entry, valid.placeOf_start state found, valid'.placeOf_start state' found', remarks, same]

/-- Charts that are alike leave the same behind. -/
theorem AlikeAll.account_eq (h : AlikeAll (placeOf states) (placeOf states') states states')
    (valid : PastValid g input states) (valid' : PastValid g input states') : account states = account states' := by
  apply List.ext_getElem?
  intro j
  simp only [account, List.getElem?_map, Array.getElem?_toList]
  cases state : states[j]? with
  | none =>
    have outside := Array.getElem?_eq_none_iff.mp state
    rw [Array.getElem?_eq_none_iff.mpr (h.size ▸ outside)]
    rfl
  | some s =>
    obtain ⟨s', state', alike⟩ := h.exists state
    have entries : {e | ∃ item ∈ s.items, e = item.entry (placeOf states)} =
        {e | ∃ item ∈ s'.items, e = item.entry (placeOf states')} := by
      ext e
      constructor
      · rintro ⟨item, member, rfl⟩
        exact h.entry_eq valid valid' state state' member
      · rintro ⟨item', member, rfl⟩
        exact h.symm.entry_eq valid' valid state' state member
    rw [state']
    simp only [Option.map_some, alike.token, entries]

/-- Charts that are alike give the same answer. -/
theorem AlikeAll.ofStates_eq (h : AlikeAll name name' states states') (start : RuleId) (failed : Option Nat) :
    Recognition.ofStates g start states failed = Recognition.ofStates g start states' failed := by
  have half {name name' : ItemRef → Option Place} {states states' : Array State}
      (h : AlikeAll name name' states states') (none : acceptingRefs states start = []) :
      acceptingRefs states' start = [] := by
    apply List.eq_nil_iff_forall_not_mem.mpr
    intro ref member
    obtain ⟨item, found, last, whole⟩ := mem_acceptingRefs.mp member
    obtain ⟨s, state, place⟩ := Option.bind_eq_some_iff.mp found
    obtain ⟨s', state', alike⟩ := h.symm.exists state
    obtain ⟨i, item', place', same⟩ := alike.holds.mp ⟨_, item, place, rfl⟩
    have there : (⟨ref.state, i⟩ : ItemRef) ∈ acceptingRefs states start :=
      mem_acceptingRefs.mpr ⟨item', Option.bind_eq_some_iff.mpr ⟨s', state', place'⟩, last.trans h.size.symm,
        same ▸ whole⟩
    simp [none] at there
  have refs : (acceptingRefs states start).isEmpty = (acceptingRefs states' start).isEmpty := by
    rw [Bool.eq_iff_iff, List.isEmpty_iff, List.isEmpty_iff]
    exact ⟨half h, half h.symm⟩
  simp only [Recognition.ofStates, refs, startsEmpty, h.size]

end Account

section Usual

variable {s : State}

/-- Serving in the order of arrival is one way of closing a state. -/
theorem closesTo_serveFrom (analyzed : g.Analyzed) (old : PastValid g input past) (h : Growing g input past s)
    {served : List Nat} {fuel i : Nat} (upTo : ∀ m, m ∈ served ↔ m < i)
    (enough : g.keyBound past.size ≤ fuel + i) : ClosesTo g past served s (serveFrom g past fuel s i) := by
  induction fuel generalizing s i served with
  | zero =>
    have room := h.size_le
    exact .done fun m inside => (upTo m).mpr (by omega)
  | succ fuel ih =>
    unfold serveFrom
    split
    case isTrue inside =>
      apply ClosesTo.next inside (by simp [upTo])
      apply ih (h.serve analyzed old (Array.getElem?_eq_getElem inside)).1.growing
      · intro m
        simp only [List.mem_cons, upTo]
        omega
      · omega
    case isFalse outside => exact .done fun m inside => (upTo m).mpr (by omega)

theorem closesTo_close (analyzed : g.Analyzed) (old : PastValid g input past) (h : Growing g input past s) :
    ClosesTo g past [] s (close g past s) :=
  closesTo_serveFrom analyzed old h (by simp) (Nat.le_add_right _ _)

theorem readsTo_grow (analyzed : g.Analyzed) {last : State} {rest : List Token}
    (valid : PastValid g input (past.push last)) (left : input.drop past.size = rest) :
    ReadsTo g past last rest (grow g past last rest).1 (grow g past last rest).2 := by
  induction rest generalizing past last with
  | nil => exact .finished past last
  | cons t rest ih =>
    obtain ⟨read, left⟩ := getElem?_of_drop left
    unfold grow scan?
    split
    case h_1 next some =>
      split at some
      case h_1 => cases some
      case h_2 something =>
        cases some
        have growing := (enter_growing valid read (List.Perm.refl _)).1
        have closes := closesTo_close analyzed valid growing
        refine .read (List.Perm.refl _) something closes (ih ?_ (by simpa using left))
        exact valid.push (closes.growing analyzed valid growing).growing
    case h_2 none =>
      split at none
      case h_1 nothing => exact .refused nothing
      case h_2 => cases none

/-- Building the chart in the usual order is one way of reading the input. -/
theorem reads_build (analyzed : g.Analyzed) (start : RuleId) (tokens : List Token) :
    Reads g start tokens (build g start tokens).1 (build g start tokens).2 := by
  have growing := (firstState_growing g start (tokens.takeWhile (!·.isFinish))).1
  have nothing : PastValid g (tokens.takeWhile (!·.isFinish)) #[] := ⟨by simp, by simp⟩
  have closes := closesTo_close analyzed nothing growing
  exact ⟨_, closes, readsTo_grow analyzed (nothing.push (closes.growing analyzed nothing growing).growing) rfl⟩

end Usual

end Chart

namespace Parser

open Chart

/-- A run is one way of reading its input, and all ways of reading it leave the same behind: the same keys in every
state, the same starts, links and lists of each item, and the same outcome. -/
theorem run_order_irrelevant (p : Parser) (start : RuleId) (tokens : List Token) (reachable : Reachable p.grammar)
    (fresh : p.states = #[]) (starts : p.grammar.start = some start) :
    ∃ outcome p', (run tokens).run p = .ok outcome p' ∧
      Reads p.grammar start tokens p'.states outcome.failedAt ∧
      ∀ states failed, Reads p.grammar start tokens states failed →
        account states = account p'.states ∧ Recognition.ofStates p.grammar start states failed = outcome := by
  have usual := reads_build reachable.analyzed start tokens
  refine ⟨_, _, run_eq p tokens fresh starts, usual, ?_⟩
  intro states failed reads
  obtain ⟨alike, rfl, valid, valid'⟩ :=
    reads.alike reachable.analyzed usual (namedAll_placeOf states) (namedAll_placeOf _)
  exact ⟨alike.account_eq valid valid', alike.ofStates_eq start _⟩

/-- Reading a letter with the grammar of detours. The items of its first state may be served in any order, as those
of the second. -/
theorem run_loopGrammar_order_irrelevant :
    ∃ outcome p', (run [.ofChar 'a']).run (.new loopGrammar {}) = .ok outcome p' ∧ p'.states.size = 2 ∧
      Reads loopGrammar ⟨2⟩ [.ofChar 'a'] p'.states outcome.failedAt ∧
      ∀ states failed, Reads loopGrammar ⟨2⟩ [.ofChar 'a'] states failed →
        account states = account p'.states ∧ Recognition.ofStates loopGrammar ⟨2⟩ states failed = outcome := by
  obtain ⟨outcome, p', ran, usual, unique⟩ :=
    run_order_irrelevant (.new loopGrammar {}) ⟨2⟩ [.ofChar 'a'] loopGrammar_reachable rfl loopGrammar_start
  refine ⟨outcome, p', ran, ?_, usual, unique⟩
  rw [run_eq (.new loopGrammar {}) [.ofChar 'a'] rfl loopGrammar_start] at ran
  cases ran
  decide +kernel

end Parser

end Earley
