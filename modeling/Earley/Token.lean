import Earley.Symbol

/-!
# Tokens

The input of a parse is a list of tokens. A token may remember the character it was read from, which is
what character classes look at, and may carry a payload that comes back untouched in parse trees.
-/

namespace Earley

/-- Data that a grammar or a token carries without looking at it. -/
inductive Datum where
  | text (content : String)
  | number (value : Int)
  deriving DecidableEq

def Datum.text? : Datum → Option String
  | text content => some content
  | number _ => none

def Datum.number? : Datum → Option Int
  | text _ => none
  | number value => some value

structure Token where
  id : TerminalId
  char? : Option Char
  payload : Option Datum
  deriving DecidableEq

namespace Token

def finish : Token := ⟨.finish, none, none⟩

def ofChar (c : Char) : Token := ⟨.ofChar c, some c, none⟩

def ofTerminal (id : TerminalId) : Token := ⟨id, id.char?, none⟩

def unknown (c : Option Char) : Token := ⟨.unknown, c, none⟩

def withPayload (t : Token) (payload : Datum) : Token := ⟨t.id, t.char?, some payload⟩

def isFinish (t : Token) : Bool := t.id == .finish

def ofText (text : String) : List Token := text.toList.map ofChar

/-- The first `count` tokens drawn from a list, which yields the end of the input once it is used up. -/
def draw (count : Nat) (tokens : List Token) : List Token :=
  tokens.take count ++ List.replicate (count - tokens.length) finish

/-- The token by its fields. The character is left out when the terminal implies it, and of a payload
only its presence is shown. -/
def label (t : Token) : String :=
  let char := match t.char? with
    | some c => if t.id.char? = some c then "" else ", ch: Some(" ++ Text.quoteChar c ++ ")"
    | none => ""
  let payload := if t.payload.isSome then ", payload: \"..\"" else ""
  "Token \x7b id: " ++ t.id.label ++ char ++ payload ++ " \x7d"

end Token

/-- Whether a set member accepts a token. Nothing accepts the end of the input. -/
def SetMember.accepts (m : SetMember) (t : Token) : Bool :=
  !t.isFinish && match m with
    | .terminal id => id == t.id
    | .any => true
    | .charClass k => t.char?.any k.holds

end Earley
