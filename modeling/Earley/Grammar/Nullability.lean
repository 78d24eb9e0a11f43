import Earley.Grammar.Basic
import Earley.Total

/-!
# Deriving nothing

The analysis finds, for every rule and group, the cheapest way of deriving nothing. It starts from "none
is known" and passes over the tables, lowering costs in place, until a pass changes nothing. Every change
lowers a cost, so this ends.
-/

namespace Earley

/-- Costs of deriving nothing, for rules and groups; `none` where it cannot be done. -/
structure NullCost where
  rule : RuleId → Option Penalty
  group : GroupId → Option Penalty

namespace NullCost

@[inline] def symbol (cost : NullCost) : Symbol → Option Penalty
  | .empty => some 0
  | .rule r => cost.rule r
  | .usage _ => none
  | .group k => cost.group k

@[inline] def production (cost : NullCost) (p : Production) : Option Penalty :=
  p.foldlM (fun total s => (cost.symbol s).map (total + ·)) 0

/-- The cheapest production and the rule's own penalty; a rule without productions derives nothing. -/
@[inline] def ofRule (cost : NullCost) (d : RuleDef) : Option Penalty :=
  if d.productions.isEmpty then some d.penalty
  else (d.productions.filterMap cost.production).min?.map (· + d.penalty)

@[inline] def ofGroup (cost : NullCost) (d : GroupDef) : Option Penalty :=
  if d.min = 0 then some 0 else (cost.production d.production).map (·.times d.min.toNat)

end NullCost

def Tables.nullCost (t : Tables) : NullCost where
  rule r := t.rules[r.index]?.bind (·.nullPenalty)
  group k := t.groups[k.index]?.bind (·.nullPenalty)

structure Costs where
  rules : Array (Option Penalty)
  groups : Array (Option Penalty)
  deriving DecidableEq

namespace Costs

@[inline] def nullCost (c : Costs) : NullCost where
  rule r := c.rules[r.index]?.join
  group k := c.groups[k.index]?.join

/-- Whether `new` is cheaper than `old`, where `none` is dearer than any cost. -/
@[inline] def improves : (new old : Option Penalty) → Bool
  | some new, some old => new < old
  | some _, none => true
  | none, _ => false

@[inline] def lower (costs : Array (Option Penalty)) (i : Nat) (new : Option Penalty) : Array (Option Penalty) :=
  if improves new costs[i]?.join then costs.setIfInBounds i new else costs

def lowerRule (t : Tables) (c : Costs) (i : Nat) : Costs :=
  match t.rules[i]? with
  | some d => ⟨lower c.rules i (c.nullCost.ofRule d), c.groups⟩
  | none => c

def lowerGroup (t : Tables) (c : Costs) (i : Nat) : Costs :=
  match t.groups[i]? with
  | some d => ⟨c.rules, lower c.groups i (c.nullCost.ofGroup d)⟩
  | none => c

def pass (t : Tables) (c : Costs) : Costs :=
  (List.range t.groups.size).foldl (lowerGroup t) ((List.range t.rules.size).foldl (lowerRule t) c)

/-- An unknown cost weighs more than any known one. -/
def weightOf : Option Penalty → Nat
  | some p => p.value
  | none => 4294967296

/-- What every change lowers. -/
def weight (c : Costs) : Nat := total weightOf c.rules.toList + total weightOf c.groups.toList

theorem weightOf_lt {new old : Option Penalty} (h : improves new old = true) : weightOf new < weightOf old := by
  cases new with
  | none => simp [improves] at h
  | some p =>
    cases old with
    | none => have := p.le_greatest; simp only [weightOf]; omega
    | some q => simpa [improves, Penalty.lt_def, weightOf] using h

theorem lower_eq_or_lt (costs : Array (Option Penalty)) (i : Nat) (new : Option Penalty) :
    lower costs i new = costs ∨
      total weightOf (lower costs i new).toList < total weightOf costs.toList := by
  unfold lower
  split
  case isTrue h =>
    by_cases hi : i < costs.size
    · right
      rw [Array.toList_setIfInBounds]
      apply total_set_lt _ _ _ _ (by simpa using hi)
      apply weightOf_lt
      simpa [hi] using h
    · left
      exact Array.setIfInBounds_eq_of_size_le (by omega)
  case isFalse => exact .inl rfl

theorem lowerRule_eq_or_lt (t : Tables) (c : Costs) (i : Nat) :
    lowerRule t c i = c ∨ (lowerRule t c i).weight < c.weight := by
  unfold lowerRule
  split
  case h_1 d _ =>
    rcases lower_eq_or_lt c.rules i (c.nullCost.ofRule d) with h | h
    · exact .inl (by rw [h])
    · exact .inr (by simp only [weight]; omega)
  case h_2 => exact .inl rfl

theorem lowerGroup_eq_or_lt (t : Tables) (c : Costs) (i : Nat) :
    lowerGroup t c i = c ∨ (lowerGroup t c i).weight < c.weight := by
  unfold lowerGroup
  split
  case h_1 d _ =>
    rcases lower_eq_or_lt c.groups i (c.nullCost.ofGroup d) with h | h
    · exact .inl (by rw [h])
    · exact .inr (by simp only [weight]; omega)
  case h_2 => exact .inl rfl

theorem foldl_eq_or_lt {step : Costs → Nat → Costs}
    (h : ∀ c i, step c i = c ∨ (step c i).weight < c.weight) (is : List Nat) (c : Costs) :
    is.foldl step c = c ∨ (is.foldl step c).weight < c.weight := by
  induction is generalizing c with
  | nil => exact .inl rfl
  | cons i is ih =>
    simp only [List.foldl_cons]
    rcases h c i with same | less
    · rw [same]; exact ih c
    · rcases ih (step c i) with same | less'
      · rw [same]; exact .inr less
      · exact .inr (Nat.lt_trans less' less)

/-- A pass that changes anything makes the costs lighter. -/
theorem pass_eq_or_lt (t : Tables) (c : Costs) : pass t c = c ∨ (pass t c).weight < c.weight := by
  unfold pass
  rcases foldl_eq_or_lt (lowerRule_eq_or_lt t) (List.range t.rules.size) c with same | less
  · rw [same]; exact foldl_eq_or_lt (lowerGroup_eq_or_lt t) _ c
  · rcases foldl_eq_or_lt (lowerGroup_eq_or_lt t) (List.range t.groups.size)
      ((List.range t.rules.size).foldl (lowerRule t) c) with same | less'
    · rw [same]; exact .inr less
    · exact .inr (Nat.lt_trans less' less)

def settle (t : Tables) (c : Costs) : Costs :=
  let next := pass t c
  if next = c then c else settle t next
termination_by c.weight
decreasing_by exact (pass_eq_or_lt t c).resolve_left ‹_›

def unknown (t : Tables) : Costs := ⟨t.rules.map fun _ => none, t.groups.map fun _ => none⟩

end Costs

namespace Tables

def record (t : Tables) (c : Costs) : Tables where
  rules := t.rules.mapIdx fun i d =>
    let cost := c.rules[i]?.join
    { d with nullPenalty := cost, nullable := cost.isSome }
  groups := t.groups.mapIdx fun i d =>
    let cost := c.groups[i]?.join
    { d with
      nullPenalty := cost
      nullable := cost.isSome
      productionNullable := (c.nullCost.production d.production).isSome }

def analyze (t : Tables) : Tables := t.record (Costs.settle t (Costs.unknown t))

/-- Which rules, and then which groups, derive nothing. -/
def nullFlags (t : Tables) : List Bool :=
  t.rules.toList.map (·.nullable) ++ t.groups.toList.map (·.nullable)

def changedFlags (before after : Tables) : Nat :=
  (before.nullFlags.zip after.nullFlags).countP fun (was, now) => was != now

end Tables

end Earley
