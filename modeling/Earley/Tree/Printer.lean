import Earley.Grammar.Printer
import Earley.Tree.Basic

/-!
# Showing trees

A tree with one node per line, and a tree as one short text.
-/

namespace Earley.Tree

def heading (names : Grammar) (t : Tree) : String :=
  match t.kind with
  | .token tok => match tok.id.char? with
    | some c => Text.quoteChar c
    | none => names.terminalLabel tok.id
  | .rule r _ => names.ruleLabel r
  | .group k => names.symbolText (.group k)
  | .iteration k => k.label ++ " item"

def line (names : Grammar) (depth : Nat) (t : Tree) : String :=
  let penalty := if 0 < t.penalty then " penalty " ++ toString t.penalty.value else ""
  "".pushn ' ' (2 * depth) ++ t.heading names ++ " " ++ t.span.render ++ penalty ++ "\n"

def dump (t : Tree) (g : Grammar) : String :=
  String.join ((t.walk (fun depth _ => depth + 1) 0).map fun (depth, inner) => inner.line g depth)

/-- The kind of a node without its span: its rule with the production, its group, or just a token. -/
def mark (t : Tree) : String :=
  match t.kind with
  | .token _ => "t"
  | .rule r (some p) => "r" ++ toString r.index ++ "." ++ toString p
  | .rule r none => "r" ++ toString r.index ++ ".-"
  | .group k => "g" ++ toString k.index
  | .iteration k => "i" ++ toString k.index

mutual

def shapeOnto (text : String) : Tree → String
  | .node k s p cs =>
    let penalty := if 0 < p then "!" ++ toString p.value else ""
    let text := text ++ mark (.node k s p cs) ++ "@" ++ toString s.start ++ "-" ++ toString s.finish ++ penalty
    if cs.isEmpty then text else shapesOnto text "(" cs ++ ")"

def shapesOnto (text opening : String) : List Tree → String
  | [] => text
  | t :: ts => shapesOnto (shapeOnto (text ++ opening) t) " " ts

end

def shape (t : Tree) : String := shapeOnto "" t

end Earley.Tree
