import Earley.CharClass
import Earley.Text.Quoted

/-!
# Symbols

Identifiers, and the items productions are made of. A `Usage` consumes exactly one token; a set of usages
may only hold those that do not refer to another set, its `SetMember`s.
-/

namespace Earley

structure RuleId where
  index : Nat
  deriving DecidableEq, Inhabited

structure GroupId where
  index : Nat
  deriving DecidableEq, Inhabited

structure SetId where
  index : Nat
  deriving DecidableEq, Inhabited

/-- A terminal. Code points stand for themselves, registered texts follow the last code point, and the
two greatest 32-bit codes are reserved for token sources. -/
structure TerminalId where
  code : Nat
  deriving DecidableEq, Inhabited

namespace TerminalId

def firstText : Nat := 0x110000

/-- A token its source could not classify. -/
def unknown : TerminalId := ⟨4294967294⟩

def finish : TerminalId := ⟨4294967295⟩

def ofChar (c : Char) : TerminalId := ⟨c.toNat⟩

def ofText (index : Nat) : TerminalId := ⟨firstText + index⟩

def char? (t : TerminalId) : Option Char :=
  if t.code.isValidChar then some (Char.ofNat t.code) else none

def isReserved (t : TerminalId) : Bool := unknown.code ≤ t.code

def label (t : TerminalId) : String :=
  if t = finish then "TerminalId::END"
  else if t = unknown then "TerminalId::UNKNOWN"
  else match t.char? with
    | some c => "TerminalId(" ++ Text.quoteChar c ++ ")"
    | none => "TerminalId(" ++ toString t.code ++ ")"

end TerminalId

def RuleId.label (r : RuleId) : String := "RuleId(" ++ toString r.index ++ ")"

def GroupId.label (k : GroupId) : String := "GroupId(" ++ toString k.index ++ ")"

def SetId.label (s : SetId) : String := "SetId(" ++ toString s.index ++ ")"

inductive SetMember where
  | terminal (id : TerminalId)
  | any
  | charClass (k : CharClass)
  deriving DecidableEq

/-- A symbol that consumes exactly one token. -/
inductive Usage where
  | terminal (id : TerminalId)
  /-- Any token but the end of the input. -/
  | any
  | charClass (k : CharClass)
  | set (id : SetId)
  deriving DecidableEq

inductive Symbol where
  /-- Nothing at all, written out. -/
  | empty
  | rule (id : RuleId)
  | usage (u : Usage)
  | group (id : GroupId)
  deriving DecidableEq

def SetMember.toUsage : SetMember → Usage
  | .terminal id => .terminal id
  | .any => .any
  | .charClass k => .charClass k

def SetMember.ofSymbol? : Symbol → Option SetMember
  | .usage (.terminal id) => some (.terminal id)
  | .usage .any => some .any
  | .usage (.charClass k) => some (.charClass k)
  | _ => none

theorem SetMember.ofSymbol?_toUsage (m : SetMember) : ofSymbol? (.usage m.toUsage) = some m := by
  cases m <;> rfl

/-- Sorting key: terminals by code, then `any`, then classes, then sets. -/
def Usage.rank : Usage → Nat × Nat
  | .terminal id => (0, id.code)
  | .any => (1, 0)
  | .charClass k => (2, k.rank)
  | .set id => (3, id.index)

def Symbol.label : Symbol → String
  | .empty => "Empty"
  | .rule id => "Rule(" ++ id.label ++ ")"
  | .usage (.terminal id) => "Terminal(" ++ id.label ++ ")"
  | .usage .any => "Any"
  | .usage (.charClass k) => "Class(" ++ k.label ++ ")"
  | .usage (.set id) => "Set(" ++ id.label ++ ")"
  | .group id => "Group(" ++ id.label ++ ")"

def rankLt (a b : Nat × Nat) : Bool := a.1 < b.1 || (a.1 == b.1 && a.2 < b.2)

/-- Inserts into a list sorted by rank, unless the rank is already there. -/
def insertByRank (rank : α → Nat × Nat) (a : α) : List α → List α
  | [] => [a]
  | b :: rest =>
    if rankLt (rank a) (rank b) then a :: b :: rest
    else if rank a = rank b then b :: rest
    else b :: insertByRank rank a rest

/-- The elements in order of rank, each rank once. -/
def sortByRank (rank : α → Nat × Nat) (as : List α) : List α := as.foldr (insertByRank rank) []

end Earley
