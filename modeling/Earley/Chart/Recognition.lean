import Earley.Chart.Closure

/-!
# Recognition

One state per token and one before them. A state is closed, then its scanning items are matched against the
next token; those that accept it open the next state. When none does, no further state is made.
-/

namespace Earley.Chart

def firstState (g : Grammar) (start : RuleId) : State :=
  ((State.entered none).addAll 0 .initial (g.openingKeys (.rule start) 0)).1

def acceptsNext (g : Grammar) (item : Item) (t : Token) : Bool :=
  match item.key.op with
  | .scan u => g.accepts u t
  | _ => false

def State.accepting (g : Grammar) (s : State) (t : Token) : List (Nat × Item) :=
  s.scanners.toList.filterMap fun i =>
    s.items[i]?.bind fun item => if acceptsNext g item t then some (i, item) else none

def scan? (g : Grammar) (j : Nat) (s : State) (t : Token) : Option State :=
  match s.accepting g t with
  | [] => none
  | accepting => some <| accepting.foldl
      (fun next (i, item) => (advance g (j + 1) next ⟨j, i⟩ item .token 0).1) (.entered (some t))

/-- Reads tokens from a closed state on. The second component is the state that refused a token. -/
def grow (g : Grammar) (past : Array State) (last : State) : List Token → Array State × Option Nat
  | [] => (past.push last, none)
  | t :: rest =>
    match scan? g past.size last t with
    | some next =>
      let past := past.push last
      grow g past (close g past next) rest
    | none => (past.push last, some past.size)

/-- All states for the tokens before the end of the input. -/
def build (g : Grammar) (start : RuleId) (tokens : List Token) : Array State × Option Nat :=
  grow g #[] (close g #[] (firstState g start)) (tokens.takeWhile (!·.isFinish))

/-- The items of the last state that complete the start rule from the beginning. -/
def acceptingRefs (states : Array State) (start : RuleId) : List ItemRef :=
  match states.back? with
  | some last =>
    last.items.toList.zipIdx.filterMap fun (item, i) =>
      if item.key.origin = 0 ∧ item.key.op = .complete (.rule start) then some ⟨states.size - 1, i⟩ else none
  | none => []

/-- Whether the input is empty and the start rule has no productions, so that it derives the input although
no item stands for it. -/
def startsEmpty (g : Grammar) (states : Array State) (start : RuleId) : Bool :=
  states.size == 1 && (g.productions start).isEmpty

end Chart

structure Recognition where
  /-- The start rule derives the whole input. -/
  accepted : Bool
  /-- How many tokens were scanned. -/
  tokens : Nat
  states : Nat
  /-- The state none of whose items accepts the next token. -/
  failedAt : Option Nat
  deriving DecidableEq

def Recognition.ofStates (g : Grammar) (start : RuleId) (states : Array Chart.State)
    (failedAt : Option Nat) : Recognition where
  accepted := failedAt.isNone &&
    (!(Chart.acceptingRefs states start).isEmpty || Chart.startsEmpty g states start)
  tokens := states.size - 1
  states := states.size
  failedAt := failedAt

end Earley
