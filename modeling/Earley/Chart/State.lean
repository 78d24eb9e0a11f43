import Earley.Chart.Item

/-!
# Chart states

A state holds the items that are possible after some of the input. Items are kept in the order in which
they arrived. An index finds the item of a key; two more lists name the items that wait for a target and
those that wait for a token.
-/

namespace Earley.Chart

structure State where
  /-- The token that led here; the first state has none. -/
  token : Option Token
  items : Array Item
  /-- The positions of keys. -/
  index : Index ItemKey Nat
  /-- Positions of the items that predict a target, the newest first. -/
  waiting : Index Target (List Nat)
  /-- Positions of the items that scan. -/
  scanners : Array Nat

inductive Cause where
  | initial
  | predicted (predictor : ItemRef)
  /-- Reached by a link, at a penalty, in a derivation that began with `start`. -/
  | advanced (link : Link) (penalty : Penalty) (start : ItemRef)

def pushNew [BEq α] (xs : Array α) (x : α) : Array α := if xs.contains x then xs else xs.push x

namespace Item

/-- A new item, which begins its own derivation unless it continues one. -/
def arrive (key : ItemKey) (here : ItemRef) : Cause → Item
  | .initial => ⟨key, 0, here, #[], #[], #[], #[]⟩
  | .predicted predictor => ⟨key, 0, here, #[predictor], #[], #[], #[]⟩
  | .advanced link penalty start => ⟨key, penalty, start, #[], #[], #[], #[link]⟩

def rearrive (item : Item) : Cause → Item
  | .initial => item
  | .predicted predictor => { item with predictors := pushNew item.predictors predictor }
  | .advanced link penalty _ =>
    if item.links.contains link then item
    else { item with links := item.links.push link, penalty := min item.penalty penalty }

def notePredicted (item : Item) (refs : List ItemRef) : Item :=
  { item with predicted := refs.foldl pushNew item.predicted }

def noteCompleted (item : Item) (refs : List ItemRef) : Item :=
  { item with completed := refs.foldl pushNew item.completed }

end Item

namespace State

def entered (token : Option Token) : State := ⟨token, #[], .empty, .empty, #[]⟩

def waiters (s : State) (target : Target) : List Nat := ((s.waiting.find? target).getD []).reverse

def mapItem (s : State) (i : Nat) (f : Item → Item) : State := { s with items := s.items.modify i f }

def push (s : State) (item : Item) : State :=
  let i := s.items.size
  let s := { s with items := s.items.push item, index := s.index.insert item.key i }
  match item.key.op with
  | .predict target =>
    { s with waiting := s.waiting.insert target (i :: (s.waiting.find? target).getD []) }
  | .scan _ => { s with scanners := s.scanners.push i }
  | _ => s

/-- Adds an item to state number `j`, or joins the cause to the item that has its key. -/
def add (s : State) (j : Nat) (cause : Cause) (key : ItemKey) : State × ItemRef :=
  match s.index.find? key with
  | some i => (s.mapItem i (·.rearrive cause), ⟨j, i⟩)
  | none =>
    let here : ItemRef := ⟨j, s.items.size⟩
    (s.push (.arrive key here cause), here)

def addAll (s : State) (j : Nat) (cause : Cause) : List ItemKey → State × List ItemRef
  | [] => (s, [])
  | key :: keys =>
    let (s, ref) := s.add j cause key
    let (s, refs) := s.addAll j cause keys
    (s, ref :: refs)

end State

end Earley.Chart
