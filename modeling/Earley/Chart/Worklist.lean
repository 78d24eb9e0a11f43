import Earley.Chart.Recognition

/-!
# The loop that closes a state

Closing takes one turn after another as long as there is an item left to serve, and every turn may add items. Nothing
here counts down: these are the turns themselves, from the state as a run opens it.
-/

namespace Earley.Chart

/-- Turns of the loop that closes state number `past.size`, from `s` with `i` items served to `s'` with `i'`. -/
inductive Serves (g : Grammar) (past : Array State) : (s : State) → (i : Nat) → (s' : State) → (i' : Nat) → Prop where
  | here {s : State} {i : Nat} : Serves g past s i s i
  | turn {s s' : State} {i i' : Nat} (left : i < s.items.size) (rest : Serves g past (serve g past s i) (i + 1) s' i') :
      Serves g past s i s' i'

/-- State number `j` of a run before it is closed. -/
def opened? (g : Grammar) (start : RuleId) (input : List Token) (states : Array State) : (j : Nat) → Option State
  | 0 => some (firstState g start)
  | j + 1 => do
    let last ← states[j]?
    let t ← input[j]?
    scan? g j last t

/-- What bounds the keys of state number `j`: an item is no further than the end of its production, began no later than
here, and counts no more repetitions than its group tells apart. -/
def ItemKey.InBounds (g : Grammar) (j : Nat) (key : ItemKey) : Prop :=
  key.origin ≤ j ∧
    match key.owner with
    | .rule r n => ∃ production, (g.productions r)[n]? = some production ∧ key.dot ≤ production.length ∧ key.count = 0
    | .iteration k => ∃ d, g.group? k = some d ∧ key.dot ≤ d.production.length ∧ key.count = 0
    | .group k => ∃ d, g.group? k = some d ∧ key.dot = 0 ∧
        key.count ≤ if d.max = 0 then max d.min.toNat 1 else d.max.toNat

/-- A state of number `j` whose items are in bounds and all different, and so no more than there are keys. -/
structure State.InBounds (g : Grammar) (j : Nat) (s : State) : Prop where
  key : ∀ item ∈ s.items, item.key.InBounds g j
  distinct : (s.items.toList.map (·.key)).Nodup
  size : s.items.size ≤ g.keyBound j

end Earley.Chart
