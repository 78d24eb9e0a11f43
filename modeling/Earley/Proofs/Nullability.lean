import Earley.Grammar.Nullability
import Earley.Proofs.Derivation

/-!
# The cheapest ways of deriving nothing

The analysis is exact. Every cost it finds is that of a derivation, and it stops only when no derivation of
nothing is cheaper than the cost it has for it.
-/

namespace Earley

instance : Std.IsLinearOrder Penalty where
  le_refl a := Nat.le_refl a.value
  le_trans _ _ _ h k := Nat.le_trans h k
  le_antisymm _ _ h k := Penalty.ext (Nat.le_antisymm h k)
  le_total a b := Nat.le_total a.value b.value

instance : Std.LawfulOrderMin Penalty where
  le_min_iff a b c := by
    change a ≤ (if b ≤ c then b else c) ↔ a ≤ b ∧ a ≤ c
    split <;> simp only [Penalty.le_def] at * <;> omega
  min_eq_or a b := by
    change (if a ≤ b then a else b) = a ∨ (if a ≤ b then a else b) = b
    split <;> simp

namespace Penalty

@[simp] theorem times_zero (p : Penalty) : p.times 0 = 0 := by
  apply ext
  simp

theorem times_le_times (p : Penalty) {m n : Nat} (h : m ≤ n) : p.times m ≤ p.times n := by
  have := Nat.mul_le_mul_left p.value h
  simp only [le_def, value_times]
  omega

end Penalty

namespace NullCost

variable {cost : NullCost}

theorem foldlM_production (cost : NullCost) (ss : Production) (a : Penalty) :
    ss.foldlM (fun total s => (cost.symbol s).map (total + ·)) a = (cost.production ss).map (a + ·) := by
  induction ss generalizing a with
  | nil => simp [production]
  | cons s ss ih =>
    simp only [production, List.foldlM_cons]
    cases cost.symbol s with
    | none => rfl
    | some b =>
      simp only [Option.map_some, Option.bind_eq_bind, Option.bind_some, ih, Option.map_map, Penalty.zero_add]
      congr 1
      funext q
      exact Penalty.add_assoc a b q

theorem production_cons (cost : NullCost) (s : Symbol) (ss : Production) :
    cost.production (s :: ss) = (cost.symbol s).bind fun a => (cost.production ss).map (a + ·) := by
  rw [production, List.foldlM_cons]
  cases cost.symbol s with
  | none => rfl
  | some a => simpa using foldlM_production cost ss a

theorem production_singleton (cost : NullCost) (s : Symbol) : cost.production [s] = cost.symbol s := by
  rw [production_cons, show cost.production [] = some 0 from rfl]
  cases cost.symbol s <;> simp

theorem production_append (cost : NullCost) (ss ss' : Production) :
    cost.production (ss ++ ss') =
      (cost.production ss).bind fun a => (cost.production ss').map (a + ·) := by
  rw [production, List.foldlM_append, foldlM_production]
  cases cost.production ss with
  | none => rfl
  | some a => simpa using foldlM_production cost ss' a

/-- Copies of a production cost a multiple of it. -/
theorem production_copies {p : Production} {count : Nat} {q : Penalty} (h : 0 < count)
    (found : cost.production (List.replicate count p).flatten = some q) :
    ∃ a, cost.production p = some a ∧ q = a.times count := by
  induction count generalizing q with
  | zero => omega
  | succ count ih =>
    rw [List.replicate_succ, List.flatten_cons, production_append] at found
    obtain ⟨a, here, found⟩ := Option.bind_eq_some_iff.mp found
    obtain ⟨b, others, rfl⟩ := Option.map_eq_some_iff.mp found
    refine ⟨a, here, ?_⟩
    rw [Penalty.times_succ, Penalty.add_comm]
    cases count with
    | zero => cases others; simp
    | succ count =>
      obtain ⟨a', again, rfl⟩ := ih (by omega) others
      rw [here] at again
      cases again
      rfl

/-- A rule costs no more than any of its productions with its own penalty. -/
theorem exists_ofRule_le {d : RuleDef} {p : Production} {a : Penalty} (chosen : p ∈ d.productions)
    (found : cost.production p = some a) : ∃ q, cost.ofRule d = some q ∧ q ≤ a + d.penalty := by
  have member : a ∈ d.productions.filterMap cost.production := List.mem_filterMap.mpr ⟨p, chosen, found⟩
  obtain ⟨m, least⟩ := Option.isSome_iff_exists.mp (List.isSome_min?_of_mem member)
  have below : m ≤ a := (List.min?_eq_some_iff.mp least).2 a member
  have some : d.productions.isEmpty = false := by
    simpa [List.isEmpty_iff] using List.ne_nil_of_mem chosen
  exact ⟨m + d.penalty, by simp [ofRule, some, least], Penalty.add_le_add below (Nat.le_refl _)⟩

/-- A group costs no more than so many copies of its production as it needs. -/
theorem exists_ofGroup_le {d : GroupDef} {count : Nat} {a : Penalty} (enough : d.min.toNat ≤ count)
    (found : cost.production (List.replicate count d.production).flatten = some a) :
    ∃ q, cost.ofGroup d = some q ∧ q ≤ a := by
  unfold ofGroup
  split
  case isTrue => exact ⟨0, rfl, Nat.zero_le _⟩
  case isFalse positive =>
    have : d.min.toNat ≠ 0 := fun h => positive (UInt32.toNat_inj.mp h)
    obtain ⟨b, one, rfl⟩ := production_copies (by omega) found
    exact ⟨_, by rw [one]; rfl, Penalty.times_le_times b enough⟩

structure Realized (cost : NullCost) (g : Grammar) : Prop where
  rule : ∀ {r q}, cost.rule r = some q → g.Derives [.rule r] [] q
  group : ∀ {k q}, cost.group k = some q → g.Derives [.group k] [] q

/-- No cost can be lowered by looking at the tables once more. -/
structure Settled (cost : NullCost) (t : Tables) : Prop where
  rule : ∀ {r d q}, t.rules[r.index]? = some d → cost.ofRule d = some q → ∃ q', cost.rule r = some q' ∧ q' ≤ q
  group : ∀ {k d q}, t.groups[k.index]? = some d → cost.ofGroup d = some q → ∃ q', cost.group k = some q' ∧ q' ≤ q

variable {g : Grammar}

theorem Realized.symbol (real : cost.Realized g) {s : Symbol} {q : Penalty} (found : cost.symbol s = some q) :
    g.Derives [s] [] q := by
  cases s with
  | empty => cases found; exact .empty .nil
  | rule r => exact real.rule found
  | usage u => cases found
  | group k => exact real.group found

theorem Realized.production (real : cost.Realized g) {ss : Production} {q : Penalty}
    (found : cost.production ss = some q) : g.Derives ss [] q := by
  induction ss generalizing q with
  | nil => cases found; exact .nil
  | cons s ss ih =>
    rw [production_cons] at found
    obtain ⟨a, here, found⟩ := Option.bind_eq_some_iff.mp found
    obtain ⟨b, others, rfl⟩ := Option.map_eq_some_iff.mp found
    exact (real.symbol here).append (ih others)

theorem Realized.ofRule (real : cost.Realized g) {r : RuleId} {d : RuleDef} {q : Penalty}
    (known : g.rule? r = some d) (found : cost.ofRule d = some q) : g.Derives [.rule r] [] q := by
  unfold NullCost.ofRule at found
  split at found
  case isTrue childless =>
    cases found
    simpa using Grammar.Derives.bare known (List.isEmpty_iff.mp childless) .nil
  case isFalse =>
    obtain ⟨a, cheapest, rfl⟩ := Option.map_eq_some_iff.mp found
    obtain ⟨p, chosen, here⟩ := List.mem_filterMap.mp (List.min?_mem cheapest)
    simpa using Grammar.Derives.rule known chosen (real.production here) .nil

theorem Realized.copies (real : cost.Realized g) {p : Production} {a : Penalty} (found : cost.production p = some a)
    (count : Nat) : g.Derives (List.replicate count p).flatten [] (a.times count) := by
  induction count with
  | zero => exact .nil
  | succ count ih =>
    rw [List.replicate_succ, List.flatten_cons, Penalty.times_succ, Penalty.add_comm]
    exact (real.production found).append ih

theorem Realized.ofGroup (real : cost.Realized g) {k : GroupId} {d : GroupDef} {q : Penalty}
    (known : g.group? k = some d) (feasible : d.Admits d.min.toNat) (found : cost.ofGroup d = some q) :
    g.Derives [.group k] [] q := by
  have copies : g.Derives (List.replicate d.min.toNat d.production).flatten [] q := by
    unfold NullCost.ofGroup at found
    split at found
    case isTrue none =>
      cases found
      simpa [none] using Grammar.Derives.nil
    case isFalse =>
      obtain ⟨a, here, rfl⟩ := Option.map_eq_some_iff.mp found
      exact real.copies here _
  simpa using Grammar.Derives.group known feasible copies .nil

/-- No derivation of nothing is cheaper than a settled cost. -/
theorem Settled.le_of_derives (settled : cost.Settled g.toTables) {ss : List Symbol} {ts : List Token} {p : Penalty}
    (h : g.Derives ss ts p) (nothing : ts = []) : ∃ q, cost.production ss = some q ∧ q ≤ p := by
  have join {s : Symbol} {ss : List Symbol} {a b p p' : Penalty} (here : cost.symbol s = some a) (le : a ≤ p)
      (others : cost.production ss = some b) (le' : b ≤ p') :
      ∃ q, cost.production (s :: ss) = some q ∧ q ≤ p + p' :=
    ⟨a + b, by simp [production_cons, here, others], Penalty.add_le_add le le'⟩
  induction h with
  | nil => exact ⟨0, rfl, Nat.le_refl _⟩
  | empty _ ih =>
    obtain ⟨b, others, le⟩ := ih nothing
    simpa using join (s := .empty) rfl (Nat.le_refl _) others le
  | usage => simp at nothing
  | @rule r d production us c ss ts p known chosen _ _ inner rest =>
    obtain ⟨rfl, rfl⟩ := List.append_eq_nil_iff.mp nothing
    obtain ⟨a, here, le⟩ := inner rfl
    obtain ⟨b, others, le'⟩ := rest rfl
    obtain ⟨m, found, below⟩ := exists_ofRule_le chosen here
    obtain ⟨q, stored, lower⟩ := settled.rule known found
    refine join (s := .rule r) stored (Nat.le_trans lower (Nat.le_trans below ?_)) others le'
    exact Penalty.add_le_add le (Nat.le_refl _)
  | @bare r d ss ts p known childless _ ih =>
    obtain ⟨b, others, le⟩ := ih nothing
    have found : cost.ofRule d = some d.penalty := by simp [NullCost.ofRule, childless]
    obtain ⟨q, stored, lower⟩ := settled.rule known found
    exact join (s := .rule r) stored lower others le
  | @group k d count us c ss ts p known admitted _ _ inner rest =>
    obtain ⟨rfl, rfl⟩ := List.append_eq_nil_iff.mp nothing
    obtain ⟨a, here, le⟩ := inner rfl
    obtain ⟨b, others, le'⟩ := rest rfl
    obtain ⟨m, found, below⟩ := exists_ofGroup_le admitted.1 here
    obtain ⟨q, stored, lower⟩ := settled.group known found
    exact join (s := .group k) stored (Nat.le_trans lower (Nat.le_trans below le)) others le'

end NullCost

namespace Costs

structure Sound (c : Costs) (g : Grammar) : Prop where
  rules_size : c.rules.size = g.rules.size
  groups_size : c.groups.size = g.groups.size
  realized : c.nullCost.Realized g

theorem size_lower (costs : Array (Option Penalty)) (i : Nat) (new : Option Penalty) :
    (lower costs i new).size = costs.size := by
  unfold lower
  split <;> simp

theorem lower_join (costs : Array (Option Penalty)) (i j : Nat) (new : Option Penalty) :
    (lower costs i new)[j]?.join = costs[j]?.join ∨ j = i ∧ (lower costs i new)[j]?.join = new := by
  unfold lower
  split
  case isTrue =>
    by_cases same : i = j
    · subst same
      by_cases bound : i < costs.size
      · exact .inr ⟨rfl, by simp [bound]⟩
      · exact .inl (by simp [bound])
    · exact .inl (by simp [same])
  case isFalse => exact .inl rfl

variable {g : Grammar} {c : Costs}

theorem Sound.lowerRule (h : c.Sound g) (i : Nat) : (lowerRule g.toTables c i).Sound g := by
  unfold Costs.lowerRule
  split
  case h_1 d known =>
    refine ⟨by simp [size_lower, h.rules_size], h.groups_size, ?_, h.realized.group⟩
    intro r q found
    change (lower c.rules i (c.nullCost.ofRule d))[r.index]?.join = some q at found
    rcases lower_join c.rules i r.index (c.nullCost.ofRule d) with old | ⟨here, new⟩
    · exact h.realized.rule (old.symm.trans found)
    · subst here
      exact h.realized.ofRule known (new.symm.trans found)
  case h_2 => exact h

theorem Sound.lowerGroup (h : c.Sound g) (feasible : ∀ {k d}, g.group? k = some d → d.Admits d.min.toNat)
    (i : Nat) : (lowerGroup g.toTables c i).Sound g := by
  unfold Costs.lowerGroup
  split
  case h_1 d known =>
    refine ⟨h.rules_size, by simp [size_lower, h.groups_size], h.realized.rule, ?_⟩
    intro k q found
    change (lower c.groups i (c.nullCost.ofGroup d))[k.index]?.join = some q at found
    rcases lower_join c.groups i k.index (c.nullCost.ofGroup d) with old | ⟨here, new⟩
    · exact h.realized.group (old.symm.trans found)
    · subst here
      exact h.realized.ofGroup known (feasible known) (new.symm.trans found)
  case h_2 => exact h

theorem Sound.pass (h : c.Sound g) (feasible : ∀ {k d}, g.group? k = some d → d.Admits d.min.toNat) :
    (pass g.toTables c).Sound g := by
  have rules (is : List Nat) : ∀ {c : Costs}, c.Sound g → (is.foldl (Costs.lowerRule g.toTables) c).Sound g := by
    induction is with
    | nil => exact fun h => h
    | cons i is ih => exact fun h => ih (h.lowerRule i)
  have groups (is : List Nat) : ∀ {c : Costs}, c.Sound g → (is.foldl (Costs.lowerGroup g.toTables) c).Sound g := by
    induction is with
    | nil => exact fun h => h
    | cons i is ih => exact fun h => ih (h.lowerGroup feasible i)
  exact groups _ (rules _ h)

theorem Sound.settle (h : c.Sound g) (feasible : ∀ {k d}, g.group? k = some d → d.Admits d.min.toNat) :
    (settle g.toTables c).Sound g := by
  fun_induction Costs.settle with
  | case1 c next same => exact h
  | case2 c next changed ih => exact ih (h.pass feasible)

theorem unknown_sound (g : Grammar) : (unknown g.toTables).Sound g := by
  refine ⟨by simp [unknown], by simp [unknown], ?_, ?_⟩
  · intro r q found
    by_cases bound : r.index < g.rules.size <;> simp [unknown, nullCost, bound] at found
  · intro k q found
    by_cases bound : k.index < g.groups.size <;> simp [unknown, nullCost, bound] at found

theorem pass_settle (t : Tables) (c : Costs) : pass t (settle t c) = settle t c := by
  fun_induction Costs.settle with
  | case1 c next same => exact same
  | case2 c next changed ih => exact ih

/-- When a whole round of steps changes nothing, no step does: each change would make the costs lighter. -/
theorem step_eq_of_foldl_eq {step : Costs → Nat → Costs}
    (lighter : ∀ c i, step c i = c ∨ (step c i).weight < c.weight) {is : List Nat} {c : Costs}
    (same : is.foldl step c = c) {i : Nat} (member : i ∈ is) : step c i = c := by
  induction is with
  | nil => simp at member
  | cons first is ih =>
    rw [List.foldl_cons] at same
    have fixed : step c first = c := by
      rcases lighter c first with fixed | less
      · exact fixed
      · rcases foldl_eq_or_lt lighter is (step c first) with rest | less'
        · exact rest.symm.trans same
        · rw [same] at less'
          omega
    rw [fixed] at same
    rcases List.mem_cons.mp member with rfl | later
    · exact fixed
    · exact ih same later

theorem not_improves_of_lower_eq {costs : Array (Option Penalty)} {i : Nat} {new : Option Penalty}
    (same : lower costs i new = costs) (bound : i < costs.size) : improves new costs[i]?.join = false := by
  cases better : improves new costs[i]?.join with
  | false => rfl
  | true =>
    have lighter := weightOf_lt better
    have here : (lower costs i new)[i]?.join = new := by rw [lower, if_pos better]; simp [bound]
    rw [same] at here
    rw [here] at lighter
    omega

theorem le_of_not_improves {new : Penalty} {old : Option Penalty} (h : improves (some new) old = false) :
    ∃ q, old = some q ∧ q ≤ new := by
  cases old with
  | none => simp [improves] at h
  | some q => exact ⟨q, rfl, by simpa [improves, Penalty.lt_def, Penalty.le_def] using h⟩

theorem settled_of_pass_eq (sound : c.Sound g) (same : pass g.toTables c = c) : c.nullCost.Settled g.toTables := by
  have first : (List.range g.rules.size).foldl (lowerRule g.toTables) c = c := by
    rcases foldl_eq_or_lt (lowerRule_eq_or_lt g.toTables) (List.range g.rules.size) c with rest | less
    · exact rest
    · rcases foldl_eq_or_lt (lowerGroup_eq_or_lt g.toTables) (List.range g.groups.size)
        ((List.range g.rules.size).foldl (lowerRule g.toTables) c) with rest | less'
      · exact rest.symm.trans same
      · have := congrArg weight same
        simp only [pass] at this
        omega
  have second : (List.range g.groups.size).foldl (lowerGroup g.toTables) c = c := by
    simpa only [pass, first] using same
  constructor
  · intro r d q known found
    obtain ⟨bound, -⟩ := Array.getElem?_eq_some_iff.mp known
    have fixed := step_eq_of_foldl_eq (lowerRule_eq_or_lt g.toTables) first (List.mem_range.mpr bound)
    simp only [lowerRule, known, found] at fixed
    exact le_of_not_improves
      (not_improves_of_lower_eq (congrArg Costs.rules fixed) (by rw [sound.rules_size]; exact bound))
  · intro k d q known found
    obtain ⟨bound, -⟩ := Array.getElem?_eq_some_iff.mp known
    have fixed := step_eq_of_foldl_eq (lowerGroup_eq_or_lt g.toTables) second (List.mem_range.mpr bound)
    simp only [lowerGroup, known, found] at fixed
    exact le_of_not_improves
      (not_improves_of_lower_eq (congrArg Costs.groups fixed) (by rw [sound.groups_size]; exact bound))

end Costs

/-- The costs in the tables are those of the cheapest ways of deriving nothing. -/
structure Grammar.Analyzed (g : Grammar) : Prop where
  realized : g.toTables.nullCost.Realized g
  settled : g.toTables.nullCost.Settled g.toTables

namespace Grammar

variable {g : Grammar}

theorem Analyzed.isSome_production_iff (h : g.Analyzed) {ss : List Symbol} :
    (g.toTables.nullCost.production ss).isSome = true ↔ ∃ p, g.Derives ss [] p := by
  constructor
  · intro some
    obtain ⟨q, found⟩ := Option.isSome_iff_exists.mp some
    exact ⟨q, h.realized.production found⟩
  · rintro ⟨p, derived⟩
    obtain ⟨q, found, -⟩ := h.settled.le_of_derives derived rfl
    simp [found]

theorem nullCost_record {t : Tables} {c : Costs} (rules : c.rules.size = t.rules.size)
    (groups : c.groups.size = t.groups.size) : (t.record c).nullCost = c.nullCost := by
  have rule (r : RuleId) : (t.record c).nullCost.rule r = c.nullCost.rule r := by
    by_cases bound : r.index < t.rules.size
    · simp [Tables.nullCost, Tables.record, Costs.nullCost, bound]
    · simp [Tables.nullCost, Tables.record, Costs.nullCost, bound, rules]
  have group (k : GroupId) : (t.record c).nullCost.group k = c.nullCost.group k := by
    by_cases bound : k.index < t.groups.size
    · simp [Tables.nullCost, Tables.record, Costs.nullCost, bound]
    · simp [Tables.nullCost, Tables.record, Costs.nullCost, bound, groups]
  exact congr (congrArg NullCost.mk (funext rule)) (funext group)

end Grammar

end Earley
