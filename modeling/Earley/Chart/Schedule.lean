import Earley.Chart.Recognition
import Mathlib.Data.Set.Defs

/-!
# Reading in any order

Nothing forces the items of a state to be served in the order of their arrival, or the items that accept a token to
be moved on in that order. Here any order will do, as long as every item is served once. What such a reading leaves
behind is told without reference to the order: items are named by their states and keys, lists are read as sets, and
penalties are left out.
-/

namespace Earley.Chart

/-- One way of closing state number `past.size`. The positions in `served` are done with; any other may be next. -/
inductive ClosesTo (g : Grammar) (past : Array State) : (served : List Nat) → State → State → Prop where
  | done {served : List Nat} {s : State} (all : ∀ i < s.items.size, i ∈ served) : ClosesTo g past served s s
  | next {served : List Nat} {s closed : State} {i : Nat} (inside : i < s.items.size) (new : i ∉ served)
      (rest : ClosesTo g past (i :: served) (serve g past s i) closed) : ClosesTo g past served s closed

/-- The state after a token, before it is closed, with the items of state number `j` moved on in the given order. -/
def enter (g : Grammar) (j : Nat) (t : Token) (order : List (Nat × Item)) : State :=
  order.foldl (fun next (i, item) => (advance g (j + 1) next ⟨j, i⟩ item .token 0).1) (.entered (some t))

/-- One way of reading tokens from a closed state on, with the states it leads to and the one that refused. -/
inductive ReadsTo (g : Grammar) : Array State → State → List Token → Array State → Option Nat → Prop where
  | finished (past : Array State) (last : State) : ReadsTo g past last [] (past.push last) none
  | refused {past : Array State} {last : State} {t : Token} {rest : List Token} (nothing : last.accepting g t = []) :
      ReadsTo g past last (t :: rest) (past.push last) (some past.size)
  | read {past states : Array State} {last next : State} {t : Token} {rest : List Token} {failed : Option Nat}
      {order : List (Nat × Item)} (accepting : order.Perm (last.accepting g t)) (something : order ≠ [])
      (closes : ClosesTo g (past.push last) [] (enter g past.size t order) next)
      (later : ReadsTo g (past.push last) next rest states failed) : ReadsTo g past last (t :: rest) states failed

/-- One way of reading the tokens before the end of the input. -/
def Reads (g : Grammar) (start : RuleId) (tokens : List Token) (states : Array State) (failed : Option Nat) : Prop :=
  ∃ first, ClosesTo g #[] [] (firstState g start) first ∧
    ReadsTo g #[] first (tokens.takeWhile (!·.isFinish)) states failed

/-- An item by its state and its key. -/
structure Place where
  state : Nat
  key : ItemKey

def placeOf (states : Array State) (ref : ItemRef) : Option Place :=
  states[ref.state]?.bind fun s => s.items[ref.index]?.map fun item => ⟨ref.state, item.key⟩

/-- What a step consumed, with a completed item in terms of its place. -/
inductive Consumed where
  | token
  | empty
  | null (target : Target)
  | completed (place : Option Place)

def Child.consumed (name : ItemRef → Option Place) : Child → Consumed
  | .token => .token
  | .empty => .empty
  | .null target => .null target
  | .completed ref => .completed (name ref)

/-- What can be recorded about an item: that it is there, one of its links, or an item in one of its lists. -/
inductive Remark where
  | present
  | link (previous : Option Place) (consumed : Consumed)
  | predictor (place : Option Place)
  | predicted (place : Option Place)
  | completed (place : Option Place)

def Item.Notes (name : ItemRef → Option Place) (item : Item) : Remark → Prop
  | .present => True
  | .link previous consumed => ∃ l ∈ item.links, previous = name l.previous ∧ consumed = l.child.consumed name
  | .predictor place => ∃ ref ∈ item.predictors, place = name ref
  | .predicted place => ∃ ref ∈ item.predicted, place = name ref
  | .completed place => ∃ ref ∈ item.completed, place = name ref

/-- What remains of an item without its penalty and the order of its lists. -/
structure Entry where
  key : ItemKey
  start : Option Place
  remarks : Set Remark

def Item.entry (name : ItemRef → Option Place) (item : Item) : Entry :=
  ⟨item.key, name item.start, {r | item.Notes name r}⟩

/-- What remains of the states without the penalties and the order of items and lists. -/
def account (states : Array State) : List (Option Token × Set Entry) :=
  states.toList.map fun s => (s.token, {e | ∃ item ∈ s.items, e = item.entry (placeOf states)})

end Earley.Chart
