import Earley.Text.Blank

/-!
# Numerals

Reading a natural number below a bound from a text that may have blanks around it.
-/

namespace Earley.Text

def trimBlanks (cs : List Char) : List Char :=
  ((cs.dropWhile blank.contains).reverse.dropWhile blank.contains).reverse

def decimalValue (digits : List Char) : Nat :=
  digits.foldl (fun n c => 10 * n + (c.toNat - '0'.toNat)) 0

/-- The number a text spells: blanks around it, one plus sign before it and leading zeros are allowed.
Nothing is read from a text without digits, with any other character, or above the bound. -/
def readNumeral (bound : Nat) (text : String) : Option Nat :=
  let digits := match trimBlanks text.toList with
    | '+' :: rest => rest
    | cs => cs
  if digits ≠ [] ∧ digits.all Char.isDigit ∧ decimalValue digits ≤ bound then some (decimalValue digits)
  else none

end Earley.Text
