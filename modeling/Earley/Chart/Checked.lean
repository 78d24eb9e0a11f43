import Earley.Chart.Recognition

/-!
# Recognition in place, with every access checked

Here all states are kept in one table, which is changed in place. Every access to a table of the grammar or of the
chart is checked, and so is every number that a reference or a key has to hold. A step that reads or writes what is
not there, or that needs a number that does not fit, has no result; neither has a state that is not closed after as
many services as it can have items.
-/

namespace Earley.Chart

namespace Checked

variable (fits : Nat → Bool)

/-- A number that has to fit. -/
def number (n : Nat) : Option Nat := if fits n then some n else none

def refTo (j i : Nat) : Option ItemRef := do
  let state ← number fits j
  let index ← number fits i
  return ⟨state, index⟩

def item? (states : Array State) (ref : ItemRef) : Option Item := do
  let s ← states[ref.state]?
  s.items[ref.index]?

def change (states : Array State) (ref : ItemRef) (f : Item → Item) : Option (Array State) := do
  let s ← states[ref.state]?
  let _ ← s.items[ref.index]?
  return states.setIfInBounds ref.state (s.mapItem ref.index f)

def add (states : Array State) (j : Nat) (cause : Cause) (key : ItemKey) : Option (Array State × ItemRef) := do
  let s ← states[j]?
  match s.index.find? key with
  | some i =>
    let states ← change states ⟨j, i⟩ (·.rearrive cause)
    let here ← refTo fits j i
    return (states, here)
  | none =>
    let here ← refTo fits j s.items.size
    return (states.setIfInBounds j (s.push (.arrive key here cause)), here)

def addAll (states : Array State) (j : Nat) (cause : Cause) : List ItemKey → Option (Array State × List ItemRef)
  | [] => return (states, [])
  | key :: keys => do
    let (states, ref) ← add fits states j cause key
    let (states, refs) ← addAll states j cause keys
    return (states, ref :: refs)

variable (g : Grammar)

/-- The items that a prediction in state `origin` starts from. The table has to have the target, and the numbers of
its productions have to fit. -/
def openings (target : Target) (origin : Nat) : Option (List ItemKey) :=
  match target with
  | .rule r => do
    let d ← g.rule? r
    if (List.range d.productions.length).all fits then return g.openingKeys target origin else none
  | .group k | .iteration k => do
    let _ ← g.group? k
    return g.openingKeys target origin

/-- The items one step further. The table has to have what the item recognizes, and the place has to fit. -/
def nexts (key : ItemKey) : Option (List ItemKey) :=
  match key.owner with
  | .rule r _ => do
    let _ ← number fits (key.dot + 1)
    let _ ← g.rule? r
    return g.nextKeys key
  | .iteration k => do
    let _ ← number fits (key.dot + 1)
    let _ ← g.group? k
    return g.nextKeys key
  | .group k => do
    let _ ← g.group? k
    return g.nextKeys key

def advance (states : Array State) (j : Nat) (ref : ItemRef) (child : Child) (cost : Penalty) :
    Option (Array State × List ItemRef) := do
  let item ← item? states ref
  let keys ← nexts fits g item.key
  if ref.state = j ∧ g.isSaturated item.key then return (states, [])
  else addAll fits states j (.advanced ⟨ref, child⟩ (item.penalty + cost) item.start) keys

def predict (states : Array State) (ref : ItemRef) (target : Target) : Option (Array State) := do
  let keys ← openings fits g target ref.state
  let (states, refs) ← addAll fits states ref.state (.predicted ref) keys
  let states ← change states ref (·.notePredicted refs)
  match g.targetNullCost target with
  | some cost => do
    let (states, _) ← advance fits g states ref.state ref (.null target) cost
    return states
  | none => return states

def resume (ref : ItemRef) (cost : Penalty) (origin : Nat) (states : Array State) (i : Nat) :
    Option (Array State) := do
  let waiter ← refTo fits origin i
  let (states, refs) ← advance fits g states ref.state waiter (.completed ref) cost
  change states ref (·.noteCompleted refs)

def targetPenalty : Target → Option Penalty
  | .rule r => (g.rule? r).map (·.penalty)
  | _ => some 0

def complete (states : Array State) (ref : ItemRef) (target : Target) : Option (Array State) := do
  let own ← targetPenalty g target
  let item ← item? states ref
  if item.key.origin = ref.state then return states
  else
    let opened ← states[item.key.origin]?
    (opened.waiters target).foldlM (resume fits g ref (item.penalty + own) item.key.origin) states

def serve (states : Array State) (j i : Nat) : Option (Array State) := do
  let ref ← refTo fits j i
  let item ← item? states ref
  match item.key.op with
  | .predict target => predict fits g states ref target
  | .passEmpty => do
    let (states, _) ← advance fits g states j ref .empty 0
    return states
  | .scan _ => return states
  | .complete target => complete fits g states ref target

/-- Serves the items of state number `j` from position `i` on, of which there may be no more than `fuel`. -/
def serveFrom (j : Nat) : (fuel : Nat) → Array State → (i : Nat) → Option (Array State)
  | fuel, states, i => do
    let s ← states[j]?
    if i < s.items.size then
      match fuel with
      | 0 => none
      | fuel + 1 => do
        let states ← serve fits g states j i
        serveFrom j fuel states (i + 1)
    else return states

def close (states : Array State) (j : Nat) : Option (Array State) := serveFrom fits g j (g.keyBound j) states 0

/-- Whether an item accepts a token. The table has to have the set that the item waits for. -/
def acceptsNext (item : Item) (t : Token) : Option Bool :=
  match item.key.op with
  | .scan (.set s) => (g.set? s).map fun members => Grammar.setAccepts members t
  | .scan u => some (g.accepts u t)
  | _ => some false

def accepting (s : State) (j : Nat) (t : Token) : List Nat → Option (List ItemRef)
  | [] => return []
  | i :: rest => do
    let ref ← refTo fits j i
    let item ← s.items[i]?
    let accepts ← acceptsNext g item t
    let refs ← accepting s j t rest
    return if accepts then ref :: refs else refs

def scan? (states : Array State) (j : Nat) (t : Token) : Option (Option (Array State)) := do
  let s ← states[j]?
  match ← accepting fits g s j t s.scanners.toList with
  | [] => return none
  | refs => do
    let states ← refs.foldlM (fun states ref => (advance fits g states (j + 1) ref .token 0).map (·.1))
      (states.push (.entered (some t)))
    return some states

def grow (states : Array State) (j : Nat) : List Token → Option (Array State × Option Nat)
  | [] => return (states, none)
  | t :: rest => do
    match ← scan? fits g states j t with
    | some states => do
      let states ← close fits g states (j + 1)
      grow states (j + 1) rest
    | none => return (states, some j)

def build (start : RuleId) (tokens : List Token) : Option (Array State × Option Nat) := do
  let keys ← openings fits g (.rule start) 0
  let (states, _) ← addAll fits #[.entered none] 0 .initial keys
  let states ← close fits g states 0
  grow fits g states 0 (tokens.takeWhile (!·.isFinish))

def acceptingRefs (states : Array State) (start : RuleId) : Option (List ItemRef) :=
  (Chart.acceptingRefs states start).mapM fun ref => refTo fits ref.state ref.index

/-- Whether the input is empty and the start rule, which the table has to have, has no productions. -/
def startsEmpty (states : Array State) (start : RuleId) : Option Bool := do
  let d ← g.rule? start
  return states.size == 1 && d.productions.isEmpty

end Checked

/-- The numbers of the productions of a rule fit, and so do all places in a production. -/
structure GrammarFits (fits : Nat → Bool) (g : Grammar) : Prop where
  productions : ∀ {r d}, g.rule? r = some d → ∀ n < d.productions.length, fits n
  places : ∀ {r d p}, g.rule? r = some d → p ∈ d.productions → ∀ n ≤ p.length, fits n
  group : ∀ {k d}, g.group? k = some d → ∀ n ≤ d.production.length, fits n

def State.Fits (fits : Nat → Bool) (s : State) : Prop := ∀ i < s.items.size, fits i

structure ChartFits (fits : Nat → Bool) (states : Array State) : Prop where
  state : ∀ j < states.size, fits j
  items : ∀ {j : Nat} {s : State}, states[j]? = some s → s.Fits fits

end Earley.Chart
