import Earley.Parser

/-!
# Token sources

A parser draws its tokens from a source, one for each state and not before the state is closed. It draws no more once
the source has come to the end of the input or to a token that no item accepts. A source is given by what it hands out
next and how that changes it; it may go on after the end of the input, and it may have no end.
-/

namespace Earley

variable {σ : Type}

/-- The source hands out the tokens and then the end of the input. -/
inductive Yields (next : σ → Token × σ) : σ → List Token → Prop where
  | finish {source : σ} (read : (next source).1.isFinish = true) : Yields next source []
  | token {source : σ} {tokens : List Token} (read : (next source).1.isFinish = false)
      (rest : Yields next (next source).2 tokens) : Yields next source ((next source).1 :: tokens)

/-- A list hands out its tokens and then, however often it is asked, the end of the input. -/
def Token.next : List Token → Token × List Token
  | [] => (finish, [])
  | t :: rest => (t, rest)

namespace Chart

/-- Draws tokens from a closed state on. The source comes back as it is after the last token that was drawn. There is
no result if that goes on forever. -/
def State.growFrom (next : σ → Token × σ) (g : Grammar) (past : Array State) (last : State) (source : σ) :
    Option ((Array State × Option Nat) × σ) :=
  let (t, source) := next source
  if t.isFinish then some ((past.push last, none), source)
  else
    match scan? g past.size last t with
    | some state => close g (past.push last) state |>.growFrom next g (past.push last) source
    | none => some ((past.push last, some past.size), source)
partial_fixpoint

end Chart

def Parser.runFrom (next : σ → Token × σ) (source : σ) (p : Parser) :
    Option (EStateM.Result ParseError Parser Recognition × σ) :=
  if !p.states.isEmpty then some (.error .alreadyRun p, source)
  else
    match p.grammar.start with
    | none => some (.error .noStartRule p, source)
    | some start => do
      let ((states, failedAt), source) ←
        (Chart.close p.grammar #[] (Chart.firstState p.grammar start)).growFrom next p.grammar #[] source
      let outcome := Recognition.ofStates p.grammar start states failedAt
      return (.ok outcome { p with states := states, outcome := some outcome }, source)

end Earley
