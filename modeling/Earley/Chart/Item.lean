import Earley.Grammar.Nullability

/-!
# Chart items

An item is a place inside a production, a repetition of a group, or a group with some repetitions behind it.
What an item waits for next is its operation: to predict a target, to pass over an explicit nothing, to scan
a token, or, at its end, to complete the target it belongs to.
-/

namespace Earley.Chart

structure ItemRef where
  state : Nat
  index : Nat
  deriving DecidableEq, Inhabited

inductive Target where
  | rule (id : RuleId)
  | group (id : GroupId)
  /-- One repetition of a group's production. -/
  | iteration (id : GroupId)
  deriving DecidableEq

/-- What an item recognizes. -/
inductive Owner where
  | rule (id : RuleId) (production : Nat)
  /-- A group as a whole, which counts repetitions. -/
  | group (id : GroupId)
  | iteration (id : GroupId)
  deriving DecidableEq

inductive Operation where
  | predict (target : Target)
  | passEmpty
  | scan (usage : Usage)
  | complete (target : Target)
  deriving DecidableEq

instance : Addressed ItemRef where
  address ref := 65536 * ref.state + ref.index

instance : Addressed Target where
  address
    | .rule r => 3 * r.index
    | .group k => 3 * k.index + 1
    | .iteration k => 3 * k.index + 2

instance : Addressed Owner where
  address
    | .rule r p => 3 * (64 * r.index + p)
    | .group k => 3 * k.index + 1
    | .iteration k => 3 * k.index + 2

/-- What tells the items of a state apart. -/
structure ItemKey where
  owner : Owner
  /-- Symbols behind the item, for rules and repetitions. -/
  dot : Nat
  /-- The state the item was predicted in. -/
  origin : Nat
  /-- Repetitions behind the item, for groups. -/
  count : Nat
  op : Operation
  deriving DecidableEq

instance : Addressed ItemKey where
  address key := 16777216 * key.origin + 64 * Addressed.address key.owner + key.dot + key.count

/-- What the last step to an item consumed. -/
inductive Child where
  /-- The token that led into the item's state. -/
  | token
  /-- An explicit nothing. -/
  | empty
  /-- A target that derives nothing. -/
  | null (target : Target)
  /-- A completed item. -/
  | completed (ref : ItemRef)
  deriving DecidableEq

/-- One way of reaching an item. An item with several links is ambiguous. -/
structure Link where
  previous : ItemRef
  child : Child
  deriving DecidableEq

structure Item where
  key : ItemKey
  /-- The lowest penalty seen among the links. What was derived earlier from the item keeps the
  penalty it was given. -/
  penalty : Penalty
  /-- The item this derivation began with. -/
  start : ItemRef
  /-- Items that predicted this one. -/
  predictors : Array ItemRef
  /-- Items this one predicted. -/
  predicted : Array ItemRef
  /-- Items this one moved on by its completion. -/
  completed : Array ItemRef
  links : Array Link

def Owner.target : Owner → Target
  | .rule r _ => .rule r
  | .group k => .group k
  | .iteration k => .iteration k

/-- The operation of an item of `owner` whose next symbol is given; at the end it completes. -/
def Operation.before (owner : Owner) : Option Symbol → Operation
  | none => .complete owner.target
  | some .empty => .passEmpty
  | some (.rule r) => .predict (.rule r)
  | some (.usage u) => .scan u
  | some (.group k) => .predict (.group k)

end Chart

namespace Grammar

open Chart

/-- The symbols an owner walks along; a group as a whole has none. -/
def symbolsOf (g : Grammar) : Owner → List Symbol
  | .rule r p => (g.productions r).getD p []
  | .iteration k => match g.group? k with
    | some d => d.production
    | none => []
  | .group _ => []

def dottedKey (g : Grammar) (owner : Owner) (dot origin : Nat) : ItemKey :=
  ⟨owner, dot, origin, 0, .before owner (g.symbolsOf owner)[dot]?⟩

/-- A group with `count` repetitions behind it may go on, may be done, or both. -/
def groupKeys (k : GroupId) (d : GroupDef) (origin count : Nat) : List ItemKey :=
  (if d.canRepeat count then [⟨.group k, 0, origin, count, .predict (.iteration k)⟩] else [])
    ++ (if d.isSatisfied count then [⟨.group k, 0, origin, count, .complete (.group k)⟩] else [])

def openingKeys (g : Grammar) (target : Target) (origin : Nat) : List ItemKey :=
  match target with
  | .rule r => (List.range (g.productions r).length).map fun p => g.dottedKey (.rule r p) 0 origin
  | .group k => match g.group? k with
    | some d => groupKeys k d origin 0
    | none => []
  | .iteration k => [g.dottedKey (.iteration k) 0 origin]

/-- The items one step further: past the next symbol, or with one more repetition. -/
def nextKeys (g : Grammar) (key : ItemKey) : List ItemKey :=
  match key.owner with
  | .group k => match g.group? k with
    | some d => groupKeys k d key.origin (d.nextCount key.count)
    | none => []
  | owner => [g.dottedKey owner (key.dot + 1) key.origin]

/-- A group that has stopped counting would take an empty repetition as a step to itself. -/
def isSaturated (g : Grammar) (key : ItemKey) : Bool :=
  match key.owner with
  | .group k => (g.group? k).any fun d => d.nextCount key.count == key.count
  | _ => false

def targetNullCost (g : Grammar) : Target → Option Penalty
  | .rule r => g.toTables.nullCost.rule r
  | .group k => g.toTables.nullCost.group k
  | .iteration k => (g.group? k).bind fun d => g.toTables.nullCost.production d.production

/-- What completing a target adds to the penalty of its parts. -/
def targetPenalty (g : Grammar) : Target → Penalty
  | .rule r => g.rulePenalty r
  | _ => 0

end Grammar

end Earley
