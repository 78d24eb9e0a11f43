import Earley.Proofs.ChartKeys
import Earley.Proofs.ChartState
import Earley.Proofs.Nullability

/-!
# Items of a chart

Every item of a chart is there for a reason: its links lead to items one step before it, and there are trees of
what lies behind it whose penalty is the item's. Adding an item for such a reason keeps this true of all others.
-/

namespace Earley.Chart

def itemAt (states : Array State) (ref : ItemRef) : Option Item :=
  states[ref.state]?.bind fun s => s.items[ref.index]?

def HasKey (states : Array State) (ref : ItemRef) (key : ItemKey) : Prop :=
  ∃ item, itemAt states ref = some item ∧ item.key = key

structure ChartExtends (states states' : Array State) : Prop where
  state : ∀ {j : Nat} {s : State}, states[j]? = some s → ∃ s', states'[j]? = some s' ∧ s.Extends s'

theorem getElem?_push_size (past : Array State) (s : State) : (past.push s)[past.size]? = some s := by
  simp

theorem getElem?_push_lt {past : Array State} (s : State) {j : Nat} (h : j < past.size) :
    (past.push s)[j]? = past[j]? := by
  simp [Array.getElem?_push, Nat.ne_of_lt h]

theorem chartExtends_push (past : Array State) {s s' : State} (more : s.Extends s') :
    ChartExtends (past.push s) (past.push s') := by
  constructor
  intro j t found
  rw [Array.getElem?_push] at found ⊢
  by_cases last : j = past.size
  · rw [if_pos last] at found ⊢
    cases found
    exact ⟨s', rfl, more⟩
  · rw [if_neg last] at found ⊢
    exact ⟨t, found, .refl t⟩

theorem chartExtends_past (past : Array State) (s : State) : ChartExtends past (past.push s) := by
  constructor
  intro j t found
  rw [getElem?_push_lt s (Array.getElem?_eq_some_iff.mp found).1]
  exact ⟨t, found, .refl t⟩

theorem itemAt_mono {states states' : Array State} (more : ChartExtends states states') {ref : ItemRef} {a : Item}
    (found : itemAt states ref = some a) : ∃ b, itemAt states' ref = some b ∧ a.Grows b := by
  obtain ⟨s, state, inside⟩ := Option.bind_eq_some_iff.mp found
  obtain ⟨s', state', more⟩ := more.state state
  obtain ⟨b, inside', grows⟩ := more.item inside
  exact ⟨b, Option.bind_eq_some_iff.mpr ⟨s', state', inside'⟩, grows⟩

theorem HasKey.mono {states states' : Array State} {ref : ItemRef} {key : ItemKey} (h : HasKey states ref key)
    (more : ChartExtends states states') : HasKey states' ref key := by
  obtain ⟨a, found, rfl⟩ := h
  obtain ⟨b, found', grows⟩ := itemAt_mono more found
  exact ⟨b, found', grows.key⟩

inductive ChildValid (g : Grammar) (states : Array State) (j m : Nat) (previous : ItemKey) : Child → Prop where
  | token {u : Usage} {t : Token} {s : State} (next : m + 1 = j) (op : previous.op = .scan u)
      (here : states[j]? = some s) (read : s.token = some t) (accepted : g.accepts u t = true) :
      ChildValid g states j m previous .token
  | empty (same : m = j) (op : previous.op = .passEmpty) : ChildValid g states j m previous .empty
  | null {target : Target} (same : m = j) (op : previous.op = .predict target)
      (nullable : (g.targetNullCost target).isSome = true) : ChildValid g states j m previous (.null target)
  | completed {ref : ItemRef} {target : Target} {key : ItemKey} (before : m < j) (op : previous.op = .predict target)
      (has : HasKey states ref key) (here : ref.state = j) (done : key.op = .complete target)
      (origin : key.origin = m) : ChildValid g states j m previous (.completed ref)

theorem ChildValid.mono {g : Grammar} {states states' : Array State} {j m : Nat} {previous : ItemKey} {child : Child}
    (h : ChildValid g states j m previous child) (more : ChartExtends states states') :
    ChildValid g states' j m previous child := by
  cases h with
  | token next op here read accepted =>
    obtain ⟨s', here', kept⟩ := more.state here
    exact .token next op here' (kept.token.trans read) accepted
  | empty same op => exact .empty same op
  | null same op nullable => exact .null same op nullable
  | completed before op has here done origin => exact .completed before op (has.mono more) here done origin

/-- An item that consumed something had something to step over. -/
theorem ChildValid.part? {g : Grammar} {states : Array State} {j m : Nat} {previous : ItemKey} {child : Child}
    (h : ChildValid g states j m previous child) : ∃ part, previous.op.part? = some part := by
  cases h with
  | token _ op => exact ⟨_, by rw [op]; rfl⟩
  | empty _ op => exact ⟨_, by rw [op]; rfl⟩
  | null _ op => exact ⟨_, by rw [op]; rfl⟩
  | completed _ op => exact ⟨_, by rw [op]; rfl⟩

/-- A link of an item of state number `j` leads to an item one step before it. A group that has stopped counting
takes no step inside its state. -/
structure LinkValid (g : Grammar) (states : Array State) (j : Nat) (key : ItemKey) (link : Link)
    (previous : ItemKey) : Prop where
  has : HasKey states link.previous previous
  valid : previous.Valid g link.previous.state
  next : key ∈ g.nextKeys previous
  moved : link.previous.state = j → g.isSaturated previous = false
  child : ChildValid g states j link.previous.state previous link.child

theorem LinkValid.mono {g : Grammar} {states states' : Array State} {j : Nat} {key previous : ItemKey} {link : Link}
    (h : LinkValid g states j key link previous) (more : ChartExtends states states') :
    LinkValid g states' j key link previous :=
  ⟨h.has.mono more, h.valid, h.next, h.moved, h.child.mono more⟩

structure ItemValid (g : Grammar) (input : List Token) (states : Array State) (j : Nat) (item : Item) : Prop where
  key : item.key.Valid g j
  /-- Items without links are those that predictions start from. -/
  opening : item.links = #[] ↔ item.key.dot = 0 ∧ item.key.count = 0
  origin : item.links = #[] → item.key.origin = j
  distinct : item.links.toList.Nodup
  link : ∀ {l}, l ∈ item.links → ∃ previous, LinkValid g states j item.key l previous
  /-- The item refers to the one that its derivation began with. -/
  begun : item.start.state = item.key.origin ∧ HasKey states item.start (firstKey g item.key)
  real : ∃ ts, Behind g input item.key j ts item.penalty

theorem ItemValid.mono {g : Grammar} {input : List Token} {states states' : Array State} {j : Nat} {item : Item}
    (h : ItemValid g input states j item) (more : ChartExtends states states') :
    ItemValid g input states' j item where
  key := h.key
  opening := h.opening
  origin := h.origin
  distinct := h.distinct
  link member := by
    obtain ⟨previous, valid⟩ := h.link member
    exact ⟨previous, valid.mono more⟩
  begun := ⟨h.begun.1, h.begun.2.mono more⟩
  real := h.real

def Cause.Justifies (g : Grammar) (input : List Token) (states : Array State) (j : Nat) (cause : Cause)
    (key : ItemKey) : Prop :=
  key.Valid g j ∧
    match cause with
    | .advanced link penalty start =>
      ¬ (key.dot = 0 ∧ key.count = 0) ∧ (∃ previous, LinkValid g states j key link previous) ∧
        (start.state = key.origin ∧ HasKey states start (firstKey g key)) ∧ ∃ ts, Behind g input key j ts penalty
    | _ => key.dot = 0 ∧ key.count = 0 ∧ key.origin = j ∧ Behind g input key j [] 0

theorem Cause.Justifies.mono {g : Grammar} {input : List Token} {states states' : Array State} {j : Nat}
    {cause : Cause} {key : ItemKey} (h : cause.Justifies g input states j key)
    (more : ChartExtends states states') : cause.Justifies g input states' j key := by
  refine ⟨h.1, ?_⟩
  cases cause with
  | advanced link penalty start =>
    obtain ⟨-, later, ⟨previous, valid⟩, begun, real⟩ := h
    exact ⟨later, ⟨previous, valid.mono more⟩, ⟨begun.1, begun.2.mono more⟩, real⟩
  | _ => exact h.2

variable {g : Grammar} {input : List Token} {states : Array State} {j : Nat} {cause : Cause} {key : ItemKey}

theorem Cause.Justifies.arrive (h : cause.Justifies g input states j key) {here : ItemRef} (state : here.state = j)
    (has : HasKey states here key) : ItemValid g input states j (.arrive key here cause) := by
  obtain ⟨valid, reason⟩ := h
  cases cause with
  | advanced link penalty start =>
    obtain ⟨later, linked, begun, real⟩ := reason
    refine ⟨valid, by simpa [Item.arrive] using later, by simp [Item.arrive], by simp [Item.arrive], ?_, begun, real⟩
    intro l member
    simp only [Item.arrive, List.mem_toArray, List.mem_singleton] at member
    exact member ▸ linked
  | _ =>
    obtain ⟨dot, count, origin, real⟩ := reason
    refine ⟨valid, by simp [Item.arrive, dot, count], fun _ => origin, by simp [Item.arrive], by simp [Item.arrive],
      ⟨state.trans origin.symm, ?_⟩, [], real⟩
    rw [Item.key_arrive, firstKey, if_pos ⟨dot, count⟩]
    exact has

theorem Cause.Justifies.rearrive {item : Item} (h : cause.Justifies g input states j item.key)
    (known : ItemValid g input states j item) : ItemValid g input states j (item.rearrive cause) := by
  obtain ⟨-, reason⟩ := h
  cases cause with
  | initial => exact known
  | predicted predictor =>
    exact ⟨known.key, known.opening, known.origin, known.distinct, known.link, known.begun, known.real⟩
  | advanced link penalty start =>
    obtain ⟨later, linked, -, real⟩ := reason
    simp only [Item.rearrive]
    split
    case isTrue => exact known
    case isFalse new =>
      refine ⟨known.key, by simpa using later, by simp, ?_, ?_, known.begun, ?_⟩
      · simp only [Array.toList_push]
        refine List.nodup_append.mpr ⟨known.distinct, by simp, ?_⟩
        rintro l member _ last rfl
        rw [List.mem_singleton.mp last] at member
        exact new (by simpa using member)
      · intro l member
        rcases Array.mem_push.mp member with old | rfl
        · exact known.link old
        · exact linked
      · dsimp only
        rcases Std.min_eq_or (a := item.penalty) (b := penalty) with least | least
        · rw [least]
          exact known.real
        · rw [least]
          exact real

end Earley.Chart
