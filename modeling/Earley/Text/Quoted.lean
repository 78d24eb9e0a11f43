import Earley.Text.Extender
import Earley.Text.Unprintable

/-!
# Quoted text

Characters and texts as diagnostics show them. Quotes, backslashes and the common control characters get
a backslash; a character that cannot be shown on its own is written by its code point in hexadecimal.
-/

namespace Earley.Text

/-- Which characters a quoted form escapes beyond those it always escapes. -/
structure Quoting where
  singleQuote : Bool
  doubleQuote : Bool
  extenders : Bool

def hexadecimal (n : Nat) : String := String.ofList (Nat.toDigits 16 n)

def codeEscape (c : Char) : String := "\\u\x7b" ++ hexadecimal c.toNat ++ "\x7d"

def escapeChar (q : Quoting) (c : Char) : String :=
  if c = '\x00' then "\\0"
  else if c = '\t' then "\\t"
  else if c = '\r' then "\\r"
  else if c = '\n' then "\\n"
  else if c = '\x5c' then "\\\\"
  else if c = '\x27' && q.singleQuote then "\\'"
  else if c = '\x22' && q.doubleQuote then "\\\""
  else if q.extenders && extender.contains c then codeEscape c
  else if unprintable.contains c then codeEscape c
  else c.toString

/-- A character between single quotes, inside which a double quote may stand bare. -/
def quoteChar (c : Char) : String := "'" ++ escapeChar ⟨true, false, true⟩ c ++ "'"

/-- A text with everything escaped that either kind of quotes needs. A combining character is only
escaped where it comes first, because elsewhere it joins the character before it. -/
def escapeText (text : String) : String :=
  match text.toList with
  | [] => ""
  | c :: rest =>
    escapeChar ⟨true, true, true⟩ c ++ String.join (rest.map (escapeChar ⟨true, true, false⟩))

end Earley.Text
