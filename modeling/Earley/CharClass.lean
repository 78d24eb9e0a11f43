import Earley.Text.Alphabetic
import Earley.Text.Blank
import Earley.Text.Lowercase
import Earley.Text.Numeric
import Earley.Text.Uppercase

/-!
# Character classes

The built-in classes a grammar may name. Digits, hexadecimal digits and punctuation are ASCII; the other
classes follow the character properties of the same names.
-/

namespace Earley

inductive CharClass where
  | digit
  | hexDigit
  | lower
  | upper
  | alpha
  | alnum
  | idStart
  | idContinue
  | whitespace
  | punctuation
  deriving DecidableEq

namespace CharClass

def all : List CharClass :=
  [digit, hexDigit, lower, upper, alpha, alnum, idStart, idContinue, whitespace, punctuation]

def rank : CharClass → Nat
  | digit => 0
  | hexDigit => 1
  | lower => 2
  | upper => 3
  | alpha => 4
  | alnum => 5
  | idStart => 6
  | idContinue => 7
  | whitespace => 8
  | punctuation => 9

def name : CharClass → String
  | digit => "digit"
  | hexDigit => "hexdigit"
  | lower => "lower"
  | upper => "upper"
  | alpha => "alpha"
  | alnum => "alnum"
  | idStart => "idstart"
  | idContinue => "idcontinue"
  | whitespace => "whitespace"
  | punctuation => "punct"

/-- The class as error messages spell it. -/
def label : CharClass → String
  | digit => "Digit"
  | hexDigit => "HexDigit"
  | lower => "Lower"
  | upper => "Upper"
  | alpha => "Alpha"
  | alnum => "Alnum"
  | idStart => "IdStart"
  | idContinue => "IdContinue"
  | whitespace => "Whitespace"
  | punctuation => "Punctuation"

def ofName? (text : String) : Option CharClass := all.find? (·.name == text)

def render (k : CharClass) : String := "<" ++ k.name ++ ">"

def isHexDigit (c : Char) : Bool :=
  c.isDigit || ('a' ≤ c && c ≤ 'f') || ('A' ≤ c && c ≤ 'F')

def isPunctuation (c : Char) : Bool :=
  ('!' ≤ c && c ≤ '/') || (':' ≤ c && c ≤ '@') || ('[' ≤ c && c ≤ '\x60') || ('\x7b' ≤ c && c ≤ '~')

def isAlpha (c : Char) : Bool := Text.alphabetic.contains c

def isAlnum (c : Char) : Bool := Text.alphabetic.contains c || Text.numeric.contains c

def holds : CharClass → Char → Bool
  | digit, c => c.isDigit
  | hexDigit, c => isHexDigit c
  | lower, c => Text.lowercase.contains c
  | upper, c => Text.uppercase.contains c
  | alpha, c => isAlpha c
  | alnum, c => isAlnum c
  | idStart, c => c == '_' || isAlpha c
  | idContinue, c => c == '_' || isAlnum c
  | whitespace, c => Text.blank.contains c
  | punctuation, c => isPunctuation c

/-- One digit per class, in the order of `all`: `1` where the character belongs to it. -/
def profile (c : Char) : String :=
  String.ofList (all.map fun k => if k.holds c then '1' else '0')

end CharClass

end Earley
