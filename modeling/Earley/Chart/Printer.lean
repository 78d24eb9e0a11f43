import Earley.Chart.State
import Earley.Grammar.Printer

/-!
# Showing states

Short labels for the parts of an item, and states with one line per item.
-/

namespace Earley.Chart

def ItemRef.label (ref : ItemRef) : String := "S" ++ toString ref.state ++ "#" ++ toString ref.index

def Owner.label : Owner → String
  | .rule r p => "r" ++ toString r.index ++ "." ++ toString p
  | .group k => "g" ++ toString k.index
  | .iteration k => "i" ++ toString k.index

def Target.label : Target → String
  | .rule r => "r" ++ toString r.index
  | .group k => "g" ++ toString k.index
  | .iteration k => "i" ++ toString k.index

def Target.number : Target → Nat
  | .rule r => r.index
  | .group k => k.index
  | .iteration k => k.index

def Child.label : Child → String
  | .token => "token"
  | .empty => "empty"
  | .null target => "null " ++ target.label
  | .completed ref => ref.label

def Link.label (link : Link) : String := link.previous.label ++ " " ++ link.child.label

namespace Operation

def name : Operation → String
  | predict (.rule _) => "predict-nt"
  | predict (.group _) => "predict-group"
  | predict (.iteration _) => "predict-item"
  | passEmpty => "scan-null"
  | scan (.terminal _) => "scan-token"
  | scan .any => "scan-any"
  | scan (.charClass _) => "scan-class"
  | scan (.set _) => "scan-set"
  | complete (.rule _) => "complete-nt"
  | complete (.iteration _) => "complete-item"
  | complete (.group _) => "complete-group"

def argument : Operation → String
  | predict target => toString target.number
  | complete target => toString target.number
  | scan (.terminal t) => toString t.code
  | scan (.charClass k) => k.name
  | scan (.set s) => toString s.index
  | scan .any => "-"
  | passEmpty => "-"

def label (op : Operation) : String :=
  let kind := match op with
    | scan _ => " scan"
    | complete _ => " complete"
    | _ => ""
  op.name ++ " " ++ op.argument ++ kind

end Operation

/-- Symbols with a dot before the one at position `dot`, or after the last. -/
def dotted (names : Grammar) (symbols : List Symbol) (dot : Nat) : String :=
  let marked := symbols.zipIdx.map fun (s, i) => (if i = dot then " • " else " ") ++ names.symbolText s
  String.join marked ++ (if symbols.length ≤ dot then " •" else "")

def Item.subject (names g : Grammar) (item : Item) : String :=
  let symbols := g.symbolsOf item.key.owner
  match item.key.owner with
  | .rule r _ => names.ruleLabel r ++ " ::=" ++ dotted names symbols item.key.dot
  | .iteration k => k.label ++ " item ::=" ++ dotted names symbols item.key.dot
  | .group k => names.symbolText (.group k) ++ " [" ++ toString item.key.count ++ "]"

/-- One line for an item of a parse with the productions of `g`, in the names of a grammar that may have
grown since. -/
def Item.line (names g : Grammar) (i : Nat) (item : Item) : String :=
  let penalty := if 0 < item.penalty then " penalty " ++ toString item.penalty.value else ""
  let links := if 1 < item.links.size then " (" ++ toString item.links.size ++ " links)" else ""
  "#" ++ toString i ++ " " ++ item.subject names g ++ "  @" ++ toString item.key.origin ++ " "
    ++ item.key.op.name ++ penalty ++ links ++ "\n"

def State.dump (names g : Grammar) (j : Nat) (s : State) : String :=
  let token := match s.token with
    | some t => " after " ++ t.label
    | none => ""
  let lines := s.items.toList.zipIdx.map fun (item, i) => item.line names g i
  "S" ++ toString j ++ token ++ "\n" ++ String.join lines

end Earley.Chart
