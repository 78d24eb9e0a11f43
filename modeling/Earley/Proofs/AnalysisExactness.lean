import Earley.Grammar.Vanishing
import Earley.Proofs.Analysis
import Mathlib.Data.Set.Card

/-!
# The analysis is exact on any tables

An analysis looks at the productions and penalties of rules and at the productions and least counts of groups, and at
nothing else: neither at what it found before nor at greatest counts (`Tables.Agree`). So its costs are those of the
tables without greatest counts, where every group admits some number of repetitions, and a second analysis repeats the
first.
-/

namespace Earley

def RuleDef.source (d : RuleDef) : List Production × Penalty := (d.productions, d.penalty)

def GroupDef.source (d : GroupDef) : Production × UInt32 := (d.production, d.min)

theorem NullCost.ofRule_source (cost : NullCost) {d d' : RuleDef} (same : d'.source = d.source) :
    cost.ofRule d' = cost.ofRule d :=
  cost.ofRule_congr (Prod.mk.inj same).1 (Prod.mk.inj same).2

theorem NullCost.ofGroup_source (cost : NullCost) {d d' : GroupDef} (same : d'.source = d.source) :
    cost.ofGroup d' = cost.ofGroup d :=
  cost.ofGroup_congr (Prod.mk.inj same).1 (Prod.mk.inj same).2

theorem map_eq_map_cases {α β : Type} {f : α → β} {as bs : Array α} (same : bs.map f = as.map f) (i : Nat) :
    (as[i]? = none ∧ bs[i]? = none) ∨ ∃ a b, as[i]? = some a ∧ bs[i]? = some b ∧ f b = f a := by
  have here := congrArg (·[i]?) same
  simp only [Array.getElem?_map] at here
  cases first : as[i]? with
  | none => exact .inl ⟨rfl, by simpa [first] using here⟩
  | some a =>
    rw [first, Option.map_some] at here
    obtain ⟨b, second, equal⟩ := Option.map_eq_some_iff.mp here
    exact .inr ⟨a, b, rfl, second, equal⟩

namespace Tables

variable {t t' : Tables}

structure Agree (t t' : Tables) : Prop where
  rules : t'.rules.map RuleDef.source = t.rules.map RuleDef.source
  groups : t'.groups.map GroupDef.source = t.groups.map GroupDef.source

theorem Agree.size_rules (h : Agree t t') : t'.rules.size = t.rules.size := by
  simpa using congrArg Array.size h.rules

theorem Agree.size_groups (h : Agree t t') : t'.groups.size = t.groups.size := by
  simpa using congrArg Array.size h.groups

theorem Agree.lowerRule (h : Agree t t') : Costs.lowerRule t' = Costs.lowerRule t := by
  funext c i
  unfold Costs.lowerRule
  rcases map_eq_map_cases h.rules i with ⟨none, none'⟩ | ⟨d, d', known, known', same⟩
  · rw [none, none']
  · rw [known, known']
    exact congrArg (fun new => (⟨Costs.lower c.rules i new, c.groups⟩ : Costs)) (c.nullCost.ofRule_source same)

theorem Agree.lowerGroup (h : Agree t t') : Costs.lowerGroup t' = Costs.lowerGroup t := by
  funext c i
  unfold Costs.lowerGroup
  rcases map_eq_map_cases h.groups i with ⟨none, none'⟩ | ⟨d, d', known, known', same⟩
  · rw [none, none']
  · rw [known, known']
    exact congrArg (fun new => (⟨c.rules, Costs.lower c.groups i new⟩ : Costs)) (c.nullCost.ofGroup_source same)

theorem Agree.pass (h : Agree t t') (c : Costs) : Costs.pass t' c = Costs.pass t c := by
  unfold Costs.pass
  rw [h.lowerRule, h.lowerGroup, h.size_rules, h.size_groups]

theorem Agree.settle (h : Agree t t') (c : Costs) : Costs.settle t' c = Costs.settle t c := by
  fun_induction Costs.settle t c with
  | case1 c next same =>
    rw [Costs.settle, h.pass]
    exact if_pos same
  | case2 c next changed ih =>
    rw [Costs.settle, h.pass]
    exact (if_neg changed).trans ih

theorem Agree.unknown (h : Agree t t') : Costs.unknown t' = Costs.unknown t := by
  unfold Costs.unknown
  simp [Array.map_const', h.size_rules, h.size_groups]

def found (t : Tables) : Costs := Costs.settle t (Costs.unknown t)

theorem Agree.found (h : Agree t t') : t'.found = t.found := by
  unfold Tables.found
  rw [h.unknown, h.settle]

theorem agree_record (t : Tables) (c : Costs) : Agree t (t.record c) := by
  refine ⟨Array.ext_getElem? fun i => ?_, Array.ext_getElem? fun i => ?_⟩
  · simp only [record, Array.getElem?_map, Array.getElem?_mapIdx, Option.map_map]
    rfl
  · simp only [record, Array.getElem?_map, Array.getElem?_mapIdx, Option.map_map]
    rfl

theorem record_record (t : Tables) (c : Costs) : (t.record c).record c = t.record c := by
  have rules : ((t.record c).record c).rules = (t.record c).rules := by
    refine Array.ext_getElem? fun i => ?_
    simp only [record, Array.getElem?_mapIdx, Option.map_map]
    rfl
  have groups : ((t.record c).record c).groups = (t.record c).groups := by
    refine Array.ext_getElem? fun i => ?_
    simp only [record, Array.getElem?_mapIdx, Option.map_map]
    rfl
  exact (Tables.mk.injEq ..).mpr ⟨rules, groups⟩

/-- A second analysis finds what the first has found. -/
theorem analyze_analyze (t : Tables) : t.analyze.analyze = t.analyze := by
  have same : t.analyze.found = t.found := (agree_record t t.found).found
  calc t.analyze.analyze = t.analyze.record t.analyze.found := rfl
    _ = (t.record t.found).record t.found := by rw [same]; rfl
    _ = t.analyze := record_record t t.found

end Tables

namespace Grammar

variable {g : Grammar}

def withoutBounds (g : Grammar) : Grammar := { g with groups := g.groups.map fun d => { d with max := 0 } }

theorem group?_withoutBounds (g : Grammar) (k : GroupId) :
    g.withoutBounds.group? k = (g.group? k).map fun d => { d with max := 0 } := by
  simp [withoutBounds, group?]

theorem admits_withoutBound {d : GroupDef} {count : Nat} :
    GroupDef.Admits { d with max := 0 } count ↔ d.min.toNat ≤ count := by
  simp [GroupDef.Admits, GroupDef.isUnbounded]

theorem feasible_withoutBounds (g : Grammar) {k : GroupId} {d : GroupDef} (known : g.withoutBounds.group? k = some d) :
    d.Admits d.min.toNat := by
  rw [group?_withoutBounds] at known
  obtain ⟨e, -, rfl⟩ := Option.map_eq_some_iff.mp known
  exact admits_withoutBound.mpr (Nat.le_refl _)

theorem agree_withoutBounds (g : Grammar) : Tables.Agree g.toTables g.withoutBounds.toTables := by
  refine ⟨rfl, Array.ext_getElem? fun i => ?_⟩
  simp only [withoutBounds, Array.getElem?_map, Option.map_map]
  rfl

/-- Deriving nothing from the tables is deriving nothing without upper bounds. -/
theorem vanishes_iff {ss : List Symbol} {p : Penalty} :
    g.toTables.Vanishes ss p ↔ g.withoutBounds.Derives ss [] p := by
  constructor
  · intro h
    induction h with
    | nil => exact .nil
    | empty _ ih => exact .empty ih
    | @rule r d _ _ _ _ known chosen _ _ inner rest =>
      have known' : g.withoutBounds.rule? r = some d := known
      exact Derives.rule known' chosen inner rest
    | bare known childless _ rest => exact .bare known childless rest
    | group known enough _ _ inner rest =>
      have known' := (group?_withoutBounds g _).trans (congrArg _ known)
      exact Derives.group known' (admits_withoutBound.mpr enough) inner rest
  · generalize nothing : [] = ts
    intro h
    induction h with
    | nil => exact .nil
    | empty _ ih => exact .empty (ih nothing)
    | usage => cases nothing
    | rule known chosen _ _ inner rest =>
      obtain ⟨none, none'⟩ := List.append_eq_nil_iff.mp nothing.symm
      exact .rule known chosen (inner none.symm) (rest none'.symm)
    | bare known childless _ rest => exact .bare known childless (rest nothing)
    | group known admitted _ _ inner rest =>
      obtain ⟨none, none'⟩ := List.append_eq_nil_iff.mp nothing.symm
      rw [group?_withoutBounds] at known
      obtain ⟨e, known', rfl⟩ := Option.map_eq_some_iff.mp known
      exact .group known' (admits_withoutBound.mp admitted) (inner none.symm) (rest none'.symm)

/-- The costs found are those of the cheapest ways to derive nothing. -/
theorem isCheapest_found (g : Grammar) (ss : List Symbol) :
    IsCheapest { c | g.toTables.Vanishes ss c } (g.toTables.found.nullCost.production ss) := by
  have sound := (Costs.unknown_sound g.withoutBounds).settle g.feasible_withoutBounds
  have fixed := Costs.pass_settle g.withoutBounds.toTables (Costs.unknown g.withoutBounds.toTables)
  have cheapest := NullCost.isCheapest_production sound.realized (Costs.settled_of_pass_eq sound fixed) ss
  simp only [vanishes_iff]
  rwa [← (agree_withoutBounds g).found]

end Grammar

theorem IsCheapest.isSome_iff {costs : Set Penalty} {cost : Option Penalty} (h : IsCheapest costs cost) :
    cost.isSome = true ↔ ∃ c, c ∈ costs := by
  cases cost with
  | none =>
    have none : costs = ∅ := h
    simp [none]
  | some p => exact ⟨fun _ => ⟨p, h.1⟩, fun _ => rfl⟩

theorem isCheapest_single (c : Penalty) : IsCheapest { c' | c' = c } (some c) :=
  ⟨rfl, fun _ same => Nat.le_of_eq (congrArg _ same.symm)⟩

/-- Costs that are no lower than others do not matter. -/
theorem IsCheapest.restrict {costs fewer : Set Penalty} {cost : Option Penalty} (h : IsCheapest costs cost)
    (inside : fewer ⊆ costs) (below : ∀ c ∈ costs, ∃ c' ∈ fewer, c' ≤ c) : IsCheapest fewer cost := by
  cases cost with
  | none => exact Set.subset_eq_empty inside h
  | some p =>
    obtain ⟨q, member, le⟩ := below p h.1
    have same : q = p := Penalty.ext (Nat.le_antisymm le (h.2 (inside member)))
    exact ⟨same ▸ member, fun c other => h.2 (inside other)⟩

namespace Tables

variable {t : Tables}

theorem vanishes_nil_iff {c : Penalty} : t.Vanishes [] c ↔ c = 0 := by
  constructor
  · rintro ⟨⟩
    rfl
  · rintro rfl
    exact .nil

/-- A rule without productions costs itself. -/
theorem vanishes_childless_iff {r : RuleId} {d : RuleDef} (known : t.rules[r.index]? = some d)
    (childless : d.productions = []) {c : Penalty} : t.Vanishes [.rule r] c ↔ c = d.penalty := by
  constructor
  · intro h
    cases h with
    | rule known' chosen =>
      cases known.symm.trans known'
      simp [childless] at chosen
    | bare known' _ rest =>
      cases known.symm.trans known'
      cases rest
      simp
  · rintro rfl
    simpa using Vanishes.bare known childless .nil

end Tables

/-- Of the repetitions that a group takes beyond its least number none is needed. -/
theorem Grammar.vanishes_copies (g : Grammar) {k : GroupId} {d : GroupDef} (known : g.group? k = some d) {c : Penalty}
    (h : g.toTables.Vanishes [.group k] c) :
    ∃ c', g.toTables.Vanishes (List.replicate d.min.toNat d.production).flatten c' ∧ c' ≤ c := by
  cases h with
  | @group _ _ count q _ _ known' enough inner rest =>
    cases known.symm.trans known'
    cases rest
    obtain ⟨more, rfl⟩ := Nat.exists_eq_add_of_le enough
    rw [← List.replicate_append_replicate, List.flatten_append, vanishes_iff] at inner
    obtain ⟨us, vs, a, b, nothing, rfl, needed, -⟩ := inner.of_append
    obtain ⟨rfl, -⟩ := List.append_eq_nil_iff.mp nothing.symm
    exact ⟨a, vanishes_iff.mpr needed, by simpa using Penalty.le_add_right a b⟩

section Places

variable {α β : Type} (test : α → Bool)

def places (as : List α) : Set Nat := { i | ∃ a, as[i]? = some a ∧ test a = true }

theorem finite_places (as : List α) : (places test as).Finite := by
  refine (Set.finite_lt_nat as.length).subset ?_
  rintro i ⟨a, found, -⟩
  exact (List.getElem?_eq_some_iff.mp found).1

theorem places_cons (a : α) (as : List α) :
    places test (a :: as) = { i | i = 0 ∧ test a = true } ∪ Nat.succ '' places test as := by
  ext i
  cases i <;> simp [places]

/-- Counting the elements that pass a test is counting their places. -/
theorem ncard_places (as : List α) : (places test as).ncard = as.countP test := by
  induction as with
  | nil => simp [places]
  | cons a as ih =>
    have later : (Nat.succ '' places test as).ncard = as.countP test :=
      (Set.ncard_image_of_injective _ Nat.succ_injective).trans ih
    rw [places_cons]
    by_cases passes : test a = true
    · have first : { i | i = 0 ∧ test a = true } = ({0} : Set Nat) := by simp [passes]
      have outside : 0 ∉ Nat.succ '' places test as := by simp
      rw [first, Set.singleton_union, Set.ncard_insert_of_notMem outside ((finite_places test as).image _), later,
        List.countP_cons_of_pos passes]
    · have first : { i | i = 0 ∧ test a = true } = (∅ : Set Nat) := by simp [passes]
      rw [first, Set.empty_union, later, List.countP_cons_of_neg passes]

def flipped (flag : β → Bool) (as bs : Array β) : Set Nat :=
  { i | ∃ a b, as[i]? = some a ∧ bs[i]? = some b ∧ flag a ≠ flag b }

theorem places_zip (flag : β → Bool) (as bs : Array β) :
    places (fun (was, now) => was != now) ((as.toList.map flag).zip (bs.toList.map flag)) = flipped flag as bs := by
  ext i
  constructor
  · rintro ⟨⟨was, now⟩, found, differ⟩
    obtain ⟨first, second⟩ := List.getElem?_zip_eq_some.mp found
    simp only [List.getElem?_map, Array.getElem?_toList, Option.map_eq_some_iff] at first second
    obtain ⟨a, first, rfl⟩ := first
    obtain ⟨b, second, rfl⟩ := second
    exact ⟨a, b, first, second, by simpa using differ⟩
  · rintro ⟨a, b, first, second, differ⟩
    refine ⟨(flag a, flag b), List.getElem?_zip_eq_some.mpr ⟨?_, ?_⟩, by simpa using differ⟩
    · simp [first]
    · simp [second]

end Places

/-- The number of flags that differ, by the places of the rules and groups that they belong to. -/
theorem Tables.changedFlags_eq {t t' : Tables} (rules : t'.rules.size = t.rules.size) : t.changedFlags t' =
    (flipped RuleDef.nullable t.rules t'.rules).ncard + (flipped GroupDef.nullable t.groups t'.groups).ncard := by
  rw [changedFlags, nullFlags, nullFlags, List.zip_append (by simp [rules]), List.countP_append, ← ncard_places,
    ← ncard_places, places_zip, places_zip]

/-- What an analysis makes of some tables: costs and flags that say which rules and groups derive nothing, and all else
as it was. -/
structure Tables.Exact (t t' : Tables) : Prop where
  size_rules : t'.rules.size = t.rules.size
  size_groups : t'.groups.size = t.groups.size
  rule : ∀ i d, t.rules[i]? = some d → ∃ cost nullable,
    t'.rules[i]? = some { d with nullPenalty := cost, nullable := nullable } ∧
      IsCheapest { c | t.Vanishes [.rule ⟨i⟩] c } cost ∧ (d.productions = [] → cost = some d.penalty) ∧
      (nullable = true ↔ ∃ c, t.Vanishes [.rule ⟨i⟩] c)
  group : ∀ i d, t.groups[i]? = some d → ∃ cost nullable one,
    t'.groups[i]? = some { d with nullPenalty := cost, nullable := nullable, productionNullable := one } ∧
      IsCheapest { c | t.Vanishes [.group ⟨i⟩] c } cost ∧
      IsCheapest { c | t.Vanishes (List.replicate d.min.toNat d.production).flatten c } cost ∧
      (d.min = 0 → cost = some 0) ∧ (nullable = true ↔ ∃ c, t.Vanishes [.group ⟨i⟩] c) ∧
      (one = true ↔ ∃ c, t.Vanishes d.production c)

theorem Grammar.exact_analyze (g : Grammar) : g.toTables.Exact g.toTables.analyze := by
  refine ⟨by simp [Tables.analyze, Tables.record], by simp [Tables.analyze, Tables.record], ?_, ?_⟩
  · intro i d known
    have cheapest := g.isCheapest_found [.rule ⟨i⟩]
    rw [NullCost.production_singleton] at cheapest
    refine ⟨_, _, ?_, cheapest, fun childless => ?_, cheapest.isSome_iff⟩
    · simp only [Tables.analyze, Tables.record, Array.getElem?_mapIdx, known]
      rfl
    · simp only [Tables.vanishes_childless_iff known childless] at cheapest
      exact cheapest.unique (isCheapest_single _)
  · intro i d known
    have cheapest := g.isCheapest_found [.group ⟨i⟩]
    rw [NullCost.production_singleton] at cheapest
    have copies : IsCheapest { c | g.toTables.Vanishes (List.replicate d.min.toNat d.production).flatten c }
        (g.toTables.found.nullCost.symbol (.group ⟨i⟩)) := by
      apply cheapest.restrict
      · intro c inner
        have single := Tables.Vanishes.group (k := ⟨i⟩) known (Nat.le_refl _) inner .nil
        rwa [Penalty.add_zero] at single
      · exact fun c whole => g.vanishes_copies known whole
    refine ⟨_, _, _, ?_, cheapest, copies, fun zero => ?_, cheapest.isSome_iff,
      (g.isCheapest_found d.production).isSome_iff⟩
    · simp only [Tables.analyze, Tables.record, Array.getElem?_mapIdx, known]
      rfl
    · simp only [zero, UInt32.toNat_zero, List.replicate_zero, List.flatten_nil, Tables.vanishes_nil_iff] at copies
      exact copies.unique (isCheapest_single _)

/-- An analysis of any tables finds the cheapest ways of deriving nothing, tells how many flags it has changed, leaves
everything else as it was, and has nothing to change when it is repeated. -/
theorem Build.analyze_exact (g : Grammar) :
    ∃ n t, Build.analyze.run g = .ok n { g with toTables := t } ∧ g.toTables.Exact t ∧
      n = (flipped RuleDef.nullable g.rules t.rules).ncard + (flipped GroupDef.nullable g.groups t.groups).ncard ∧
      Build.analyze.run { g with toTables := t } = .ok 0 { g with toTables := t } := by
  have exact := g.exact_analyze
  refine ⟨_, g.toTables.analyze, rfl, exact, Tables.changedFlags_eq exact.size_rules, ?_⟩
  have again := g.toTables.analyze_analyze
  change EStateM.Result.ok (g.toTables.analyze.changedFlags g.toTables.analyze.analyze)
    { g with toTables := g.toTables.analyze.analyze } = _
  rw [again, Tables.changedFlags_self]

end Earley
