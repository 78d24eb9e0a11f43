import Earley.Grammar.Nullability

/-!
# Counting passes

The passes of the analysis one by one, each with a flag that says whether it has lowered a cost. They go on until one of
them has not, and nothing else ends them.
-/

namespace Earley.Costs

/-- Costs under construction, and whether the current pass has lowered any of them. -/
structure Progress where
  costs : Costs
  changed : Bool

namespace Progress

def lowerRule (t : Tables) (now : Progress) (i : Nat) : Progress :=
  match t.rules[i]? with
  | some d =>
    let new := now.costs.nullCost.ofRule d
    if improves new now.costs.rules[i]?.join then
      ⟨⟨now.costs.rules.setIfInBounds i new, now.costs.groups⟩, true⟩
    else now
  | none => now

def lowerGroup (t : Tables) (now : Progress) (i : Nat) : Progress :=
  match t.groups[i]? with
  | some d =>
    let new := now.costs.nullCost.ofGroup d
    if improves new now.costs.groups[i]?.join then
      ⟨⟨now.costs.rules, now.costs.groups.setIfInBounds i new⟩, true⟩
    else now
  | none => now

def pass (t : Tables) (c : Costs) : Progress :=
  (List.range t.groups.size).foldl (lowerGroup t) ((List.range t.rules.size).foldl (lowerRule t) ⟨c, false⟩)

end Progress

/-- Passes until one lowers nothing: the costs they lead to, and how many there were after the first `passes`. -/
def loop (t : Tables) (passes : Nat) (c : Costs) : Option (Costs × Nat) :=
  let now := Progress.pass t c
  if now.changed then now.costs |>.loop t (passes + 1) else some (now.costs, passes + 1)
partial_fixpoint

def loopWithin (t : Tables) : (fuel passes : Nat) → Costs → Option (Costs × Nat)
  | 0, _, _ => none
  | fuel + 1, passes, c =>
    let now := Progress.pass t c
    if now.changed then loopWithin t fuel (passes + 1) now.costs else some (now.costs, passes + 1)

end Earley.Costs
