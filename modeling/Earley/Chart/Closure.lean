import Earley.Chart.State

/-!
# Closing a state

The items of a state are served in the order of their arrival, and serving one may add others. Prediction
steps over a target that derives nothing on the spot, so a completion that spans no input has nothing left to
do. Only the state that is being closed changes; the states before it are read.
-/

namespace Earley.Chart

def advance (g : Grammar) (j : Nat) (s : State) (ref : ItemRef) (item : Item) (child : Child)
    (cost : Penalty) : State × List ItemRef :=
  if ref.state = j ∧ g.isSaturated item.key then (s, [])
  else s.addAll j (.advanced ⟨ref, child⟩ (item.penalty + cost) item.start) (g.nextKeys item.key)

/-- Starts a target here, and steps over it if it derives nothing. -/
def predict (g : Grammar) (j : Nat) (s : State) (ref : ItemRef) (item : Item) (target : Target) : State :=
  let (s, refs) := s.addAll j (.predicted ref) (g.openingKeys target j)
  let s := s.mapItem ref.index (·.notePredicted refs)
  match g.targetNullCost target with
  | some cost => (advance g j s ref item (.null target) cost).1
  | none => s

def resume (g : Grammar) (j : Nat) (ref : ItemRef) (cost : Penalty) (origin : Nat) (opened : State)
    (s : State) (i : Nat) : State :=
  match opened.items[i]? with
  | some waiter =>
    let (s, refs) := advance g j s ⟨origin, i⟩ waiter (.completed ref) cost
    s.mapItem ref.index (·.noteCompleted refs)
  | none => s

/-- Moves on everything that waited for a target in the state where the item began. -/
def complete (g : Grammar) (past : Array State) (s : State) (ref : ItemRef) (item : Item)
    (target : Target) : State :=
  match past[item.key.origin]? with
  | some opened =>
    (opened.waiters target).foldl
      (resume g past.size ref (item.penalty + g.targetPenalty target) item.key.origin opened) s
  | none => s

def serve (g : Grammar) (past : Array State) (s : State) (i : Nat) : State :=
  match s.items[i]? with
  | some item =>
    let ref : ItemRef := ⟨past.size, i⟩
    match item.key.op with
    | .predict target => predict g past.size s ref item target
    | .passEmpty => (advance g past.size s ref item .empty 0).1
    | .scan _ => s
    | .complete target => complete g past s ref item target
  | none => s

/-- Serves the items from position `i` on, at most `fuel` of them. -/
def serveFrom (g : Grammar) (past : Array State) : (fuel : Nat) → State → (i : Nat) → State
  | 0, s, _ => s
  | fuel + 1, s, i => if i < s.items.size then serveFrom g past fuel (serve g past s i) (i + 1) else s

end Chart

def GroupDef.countBound (d : GroupDef) : Nat :=
  if d.isUnbounded then Max.max d.min.toNat 1 else d.max.toNat

/-- How many different keys a group and its repetitions can have in a state, for each origin. -/
def GroupDef.keyBound (d : GroupDef) : Nat := d.production.length + 1 + 2 * (d.countBound + 1)

def RuleDef.keyBound (d : RuleDef) : Nat := total (·.length + 1) d.productions

def Grammar.keyBound (g : Grammar) (j : Nat) : Nat :=
  (total (·.keyBound) g.rules.toList + total (·.keyBound) g.groups.toList) * (j + 1)

namespace Chart

/-- Closes state number `past.size`. No key arrives twice, so serving as many items as there are keys
serves them all. -/
def close (g : Grammar) (past : Array State) (s : State) : State :=
  serveFrom g past (g.keyBound past.size) s 0

end Chart

end Earley
