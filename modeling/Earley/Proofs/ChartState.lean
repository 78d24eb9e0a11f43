import Earley.Chart.State

/-!
# States as indexed sets of items

A state is coherent when its lists agree with its items: every key has one position, and the waiting and the
scanning items are listed in the order of their arrival. Adding an item keeps this, and keeps all that was there.
-/

namespace Earley.Chart

/-- What an item keeps for good: its key, where its derivation began, and its links. -/
structure Item.Grows (a b : Item) : Prop where
  key : b.key = a.key
  start : b.start = a.start
  links : ∀ {l}, l ∈ a.links → l ∈ b.links

theorem Item.Grows.refl (a : Item) : a.Grows a := ⟨rfl, rfl, id⟩

theorem Item.Grows.trans {a b c : Item} (h : a.Grows b) (k : b.Grows c) : a.Grows c :=
  ⟨k.key.trans h.key, k.start.trans h.start, fun m => k.links (h.links m)⟩

theorem Item.grows_rearrive (item : Item) (cause : Cause) : item.Grows (item.rearrive cause) := by
  unfold Item.rearrive
  split
  · exact .refl item
  · exact ⟨rfl, rfl, id⟩
  · split
    · exact .refl item
    · exact ⟨rfl, rfl, fun m => Array.mem_push_of_mem _ m⟩

/-- The effect of a cause that later steps rely on: the link is there. -/
def Cause.Noted (cause : Cause) (item : Item) : Prop :=
  match cause with
  | .advanced link _ _ => link ∈ item.links
  | _ => True

theorem Cause.Noted.grows {cause : Cause} {a b : Item} (h : cause.Noted a) (grows : a.Grows b) : cause.Noted b := by
  cases cause with
  | advanced link penalty start => exact grows.links h
  | _ => trivial

theorem Cause.noted_rearrive (cause : Cause) (item : Item) : cause.Noted (item.rearrive cause) := by
  cases cause with
  | advanced link penalty start =>
    simp only [Noted, Item.rearrive]
    split
    case isTrue present => simpa using present
    case isFalse => simp
  | _ => trivial

theorem Cause.noted_arrive (cause : Cause) (key : ItemKey) (here : ItemRef) :
    cause.Noted (.arrive key here cause) := by
  cases cause <;> simp [Noted, Item.arrive]

@[simp] theorem Item.key_arrive (key : ItemKey) (here : ItemRef) (cause : Cause) :
    (Item.arrive key here cause).key = key := by
  cases cause <;> rfl

def Operation.isScan : Operation → Bool
  | .scan _ => true
  | _ => false

namespace State

/-- Every item stays at its position and keeps what it has. -/
structure Extends (s s' : State) : Prop where
  token : s'.token = s.token
  item : ∀ {i : Nat} {a : Item}, s.items[i]? = some a → ∃ b : Item, s'.items[i]? = some b ∧ a.Grows b

theorem Extends.refl (s : State) : s.Extends s := ⟨rfl, fun found => ⟨_, found, .refl _⟩⟩

theorem Extends.trans {s s' s'' : State} (h : s.Extends s') (k : s'.Extends s'') : s.Extends s'' := by
  refine ⟨k.token.trans h.token, fun found => ?_⟩
  obtain ⟨b, found, grows⟩ := h.item found
  obtain ⟨c, found, grows'⟩ := k.item found
  exact ⟨c, found, grows.trans grows'⟩

def Holds (s : State) (key : ItemKey) : Prop := ∃ (i : Nat) (item : Item), s.items[i]? = some item ∧ item.key = key

def HoldsLink (s : State) (key : ItemKey) (link : Link) : Prop :=
  ∃ (i : Nat) (item : Item), s.items[i]? = some item ∧ item.key = key ∧ link ∈ item.links

theorem Holds.mono {s s' : State} {key : ItemKey} (h : s.Holds key) (more : s.Extends s') : s'.Holds key := by
  obtain ⟨i, item, found, rfl⟩ := h
  obtain ⟨item', found', grows⟩ := more.item found
  exact ⟨i, item', found', grows.key⟩

theorem HoldsLink.mono {s s' : State} {key : ItemKey} {link : Link} (h : s.HoldsLink key link)
    (more : s.Extends s') : s'.HoldsLink key link := by
  obtain ⟨i, item, found, rfl, member⟩ := h
  obtain ⟨item', found', grows⟩ := more.item found
  exact ⟨i, item', found', grows.key, grows.links member⟩

def positions (s : State) (test : Operation → Bool) : List Nat :=
  (List.range s.items.size).filter fun i => s.items[i]?.any fun item => test item.key.op

structure Coherent (s : State) : Prop where
  index : ∀ {key i}, s.index.find? key = some i ↔ ∃ item : Item, s.items[i]? = some item ∧ item.key = key
  waiting : ∀ target, s.waiters target = s.positions (· == .predict target)
  scanners : s.scanners.toList = s.positions Operation.isScan

theorem mem_positions {s : State} {test : Operation → Bool} {i : Nat} :
    i ∈ s.positions test ↔ ∃ item, s.items[i]? = some item ∧ test item.key.op = true := by
  simp only [positions, List.mem_filter, List.mem_range, Option.any_eq_true]
  constructor
  · exact fun h => h.2
  · rintro ⟨item, found, passes⟩
    exact ⟨(Array.getElem?_eq_some_iff.mp found).1, item, found, passes⟩

theorem Coherent.mem_waiters {s : State} (h : s.Coherent) {target : Target} {i : Nat} :
    i ∈ s.waiters target ↔ ∃ item, s.items[i]? = some item ∧ item.key.op = .predict target := by
  rw [h.waiting, mem_positions]
  simp

theorem Coherent.mem_scanners {s : State} (h : s.Coherent) {i : Nat} :
    i ∈ s.scanners.toList ↔ ∃ item u, s.items[i]? = some item ∧ item.key.op = .scan u := by
  rw [h.scanners, mem_positions]
  constructor
  · rintro ⟨item, found, scans⟩
    unfold Operation.isScan at scans
    split at scans
    · exact ⟨item, _, found, ‹_›⟩
    · simp at scans
  · rintro ⟨item, u, found, scans⟩
    exact ⟨item, found, by simp [scans, Operation.isScan]⟩

/-- No key has two positions. -/
theorem Coherent.unique {s : State} (h : s.Coherent) {i j : Nat} {a b : Item} (ha : s.items[i]? = some a)
    (hb : s.items[j]? = some b) (same : a.key = b.key) : i = j := by
  have first := h.index.mpr ⟨a, ha, rfl⟩
  have second := h.index.mpr ⟨b, hb, rfl⟩
  rw [same, second] at first
  exact (Option.some.inj first).symm

theorem entered_coherent (token : Option Token) : (entered token).Coherent := by
  refine ⟨?_, ?_, ?_⟩
  · intro key i
    simp [entered]
  · intro target
    simp [entered, waiters, positions]
  · simp [entered, positions]

theorem getElem?_mapItem (s : State) (i j : Nat) (f : Item → Item) :
    (s.mapItem i f).items[j]? = if i = j then s.items[j]?.map f else s.items[j]? := by
  simp [mapItem, Array.getElem?_modify]

theorem mapItem_extends (s : State) (i : Nat) {f : Item → Item} (grows : ∀ item : Item, item.Grows (f item)) :
    s.Extends (s.mapItem i f) := by
  refine ⟨rfl, fun {j a} found => ?_⟩
  rw [getElem?_mapItem, found]
  split
  · exact ⟨f a, rfl, grows a⟩
  · exact ⟨a, rfl, .refl a⟩

theorem positions_mapItem (s : State) (i : Nat) {f : Item → Item} (keys : ∀ item, (f item).key = item.key)
    (test : Operation → Bool) : (s.mapItem i f).positions test = s.positions test := by
  have size : (s.mapItem i f).items.size = s.items.size := by simp [mapItem]
  rw [positions, positions, size]
  apply List.filter_congr
  intro j _
  rw [getElem?_mapItem]
  split
  · cases s.items[j]? <;> simp [keys]
  · rfl

theorem Coherent.mapItem {s : State} (h : s.Coherent) (i : Nat) {f : Item → Item}
    (keys : ∀ item, (f item).key = item.key) : (s.mapItem i f).Coherent := by
  refine ⟨?_, ?_, ?_⟩
  · intro key j
    rw [getElem?_mapItem]
    refine h.index.trans ?_
    split
    · cases s.items[j]? <;> simp [keys]
    · rfl
  · intro target
    rw [positions_mapItem s i keys]
    exact h.waiting target
  · rw [positions_mapItem s i keys]
    exact h.scanners

@[simp] theorem items_push (s : State) (item : Item) : (s.push item).items = s.items.push item := by
  unfold push
  split <;> rfl

@[simp] theorem token_push (s : State) (item : Item) : (s.push item).token = s.token := by
  unfold push
  split <;> rfl

theorem index_push (s : State) (item : Item) : (s.push item).index = s.index.insert item.key s.items.size := by
  unfold push
  split <;> rfl

theorem waiters_push (s : State) (item : Item) (target : Target) :
    (s.push item).waiters target =
      s.waiters target ++ if item.key.op == .predict target then [s.items.size] else [] := by
  unfold push waiters
  split
  case h_1 other op =>
    by_cases same : other = target
    · simp [op, same, Index.find?_insert]
    · simp [op, same, Index.find?_insert]
  case h_2 op => simp [op]
  case h_3 notPredict _ =>
    have : item.key.op ≠ .predict target := notPredict target
    simp [this]

theorem scanners_push (s : State) (item : Item) :
    (s.push item).scanners.toList =
      s.scanners.toList ++ if item.key.op.isScan then [s.items.size] else [] := by
  unfold push
  split
  case h_1 op => simp [op, Operation.isScan]
  case h_2 op => simp [op, Operation.isScan]
  case h_3 notScan =>
    have : item.key.op.isScan = false := by
      unfold Operation.isScan
      split
      · exact absurd ‹_› (notScan _)
      · rfl
    simp [this]

theorem getElem?_push (s : State) (item : Item) (i : Nat) :
    (s.push item).items[i]? = if i = s.items.size then some item else s.items[i]? := by
  rw [items_push, Array.getElem?_push]

theorem push_extends (s : State) (item : Item) : s.Extends (s.push item) := by
  refine ⟨token_push s item, fun {i a} found => ⟨a, ?_, .refl a⟩⟩
  have := (Array.getElem?_eq_some_iff.mp found).1
  rw [getElem?_push, if_neg (by omega)]
  exact found

theorem positions_push (s : State) (item : Item) (test : Operation → Bool) :
    (s.push item).positions test = s.positions test ++ if test item.key.op then [s.items.size] else [] := by
  have size : (s.push item).items.size = s.items.size + 1 := by simp
  rw [positions, size, List.range_succ, List.filter_append, positions]
  congr 1
  · apply List.filter_congr
    intro i member
    have := List.mem_range.mp member
    rw [getElem?_push, if_neg (by omega)]
  · simp [List.filter_cons]

theorem Coherent.push {s : State} (h : s.Coherent) {item : Item} (new : ¬ s.Holds item.key) :
    (s.push item).Coherent := by
  refine ⟨?_, ?_, ?_⟩
  · intro key i
    rw [index_push, Index.find?_insert, getElem?_push]
    by_cases same : item.key = key
    · subst same
      rw [if_pos rfl]
      constructor
      · intro here
        cases here
        exact ⟨item, if_pos rfl, rfl⟩
      · rintro ⟨other, found, equal⟩
        split at found
        · rename_i here
          rw [here]
        · exact absurd ⟨i, other, found, equal⟩ new
    · rw [if_neg same]
      refine h.index.trans ?_
      constructor
      · rintro ⟨other, found, equal⟩
        have := (Array.getElem?_eq_some_iff.mp found).1
        exact ⟨other, by rw [if_neg (by omega)]; exact found, equal⟩
      · rintro ⟨other, found, equal⟩
        split at found
        · cases found
          exact absurd equal same
        · exact ⟨other, found, equal⟩
  · intro target
    rw [waiters_push, positions_push, h.waiting]
  · rw [scanners_push, positions_push, h.scanners]

/-- What adding a key does: the cause joins the item of that key, or a new item arrives. -/
theorem add_cases {s : State} (h : s.Coherent) (j : Nat) (cause : Cause) (key : ItemKey) :
    (∃ (i : Nat) (item : Item), s.items[i]? = some item ∧ item.key = key ∧
      s.add j cause key = (s.mapItem i (·.rearrive cause), ⟨j, i⟩)) ∨
    (¬ s.Holds key ∧
      s.add j cause key = (s.push (.arrive key ⟨j, s.items.size⟩ cause), ⟨j, s.items.size⟩)) := by
  unfold add
  cases known : s.index.find? key with
  | some i =>
    obtain ⟨item, found, same⟩ := h.index.mp known
    exact .inl ⟨i, item, found, same, rfl⟩
  | none =>
    refine .inr ⟨?_, rfl⟩
    rintro ⟨i, item, found, same⟩
    rw [h.index.mpr ⟨item, found, same⟩] at known
    cases known

def All (P : Item → Prop) (s : State) : Prop := ∀ {i : Nat} {item : Item}, s.items[i]? = some item → P item

/-- The state after a key is added holds an item of that key which notes the cause, and nothing is lost. -/
structure Added (s : State) (j : Nat) (cause : Cause) (key : ItemKey) (s' : State) (ref : ItemRef) : Prop where
  coherent : s'.Coherent
  more : s.Extends s'
  state : ref.state = j
  noted : ∃ item : Item, s'.items[ref.index]? = some item ∧ item.key = key ∧ cause.Noted item
  /-- A property of all items is kept if the item of the key keeps it. -/
  all : ∀ {P : Item → Prop}, s.All P → (∀ {item}, P item → item.key = key → P (item.rearrive cause)) →
    P (.arrive key ref cause) → s'.All P

theorem add_added {s : State} (h : s.Coherent) (j : Nat) (cause : Cause) (key : ItemKey) :
    Added s j cause key (s.add j cause key).1 (s.add j cause key).2 := by
  have keys (item : Item) : (item.rearrive cause).key = item.key := (item.grows_rearrive cause).key
  rcases add_cases h j cause key with ⟨i, item, found, rfl, result⟩ | ⟨new, result⟩
  · rw [result]
    refine ⟨h.mapItem i keys, mapItem_extends s i (·.grows_rearrive cause), rfl, ?_, ?_⟩
    · refine ⟨item.rearrive cause, ?_, keys item, cause.noted_rearrive item⟩
      rw [getElem?_mapItem, if_pos rfl, found]
      rfl
    · intro P all again fresh k other found'
      rw [getElem?_mapItem] at found'
      split at found'
      case isTrue here =>
        subst here
        rw [found] at found'
        cases found'
        exact again (all found) rfl
      case isFalse => exact all found'
  · rw [result]
    refine ⟨h.push (by simpa using new), push_extends s _, rfl, ?_, ?_⟩
    · exact ⟨_, by rw [getElem?_push, if_pos rfl], Item.key_arrive .., cause.noted_arrive _ _⟩
    · intro P all again fresh k other found'
      rw [getElem?_push] at found'
      split at found'
      · cases found'
        exact fresh
      · exact all found'

end State

end Earley.Chart
