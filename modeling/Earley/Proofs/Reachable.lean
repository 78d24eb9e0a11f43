import Earley.Proofs.Lookups
import Mathlib.Data.List.Basic

/-!
# Grammars that authors can build

Every history of construction steps, refused ones included, leads to a grammar whose identifiers are in scope
and whose costs of deriving nothing are exact.
-/

namespace Earley

theorem NullCost.ofRule_congr (cost : NullCost) {d d' : RuleDef} (same : d'.productions = d.productions)
    (penalty : d'.penalty = d.penalty) : cost.ofRule d' = cost.ofRule d := by
  rw [NullCost.ofRule, NullCost.ofRule, same, penalty]

theorem NullCost.ofGroup_congr (cost : NullCost) {d d' : GroupDef} (same : d'.production = d.production)
    (least : d'.min = d.min) : cost.ofGroup d' = cost.ofGroup d := by
  rw [NullCost.ofGroup, NullCost.ofGroup, same, least]

theorem NullCost.production_congr {cost cost' : NullCost} {p : Production}
    (same : ∀ s ∈ p, cost.symbol s = cost'.symbol s) : cost.production p = cost'.production p := by
  induction p with
  | nil => rfl
  | cons s ss ih =>
    obtain ⟨here, others⟩ := List.forall_mem_cons.mp same
    rw [production_cons, production_cons, here, ih others]

namespace Grammar

variable {g g' : Grammar}

theorem accepts_congr (same : g'.sets = g.sets) (u : Usage) (t : Token) : g'.accepts u t = g.accepts u t := by
  cases u <;> simp [accepts, set?, same]

theorem rule?_reanalyze (g : Grammar) (r : RuleId) :
    ∃ cost, g.reanalyze.rule? r = (g.rule? r).map fun d =>
      { d with nullPenalty := cost, nullable := cost.isSome } := by
  refine ⟨(Costs.settle g.toTables (Costs.unknown g.toTables)).rules[r.index]?.join, ?_⟩
  simp [rule?, reanalyze, Tables.analyze, Tables.record]

theorem group?_reanalyze (g : Grammar) (k : GroupId) :
    ∃ (cost : Option Penalty) (one : GroupDef → Bool), g.reanalyze.group? k = (g.group? k).map fun d =>
      { d with nullPenalty := cost, nullable := cost.isSome, productionNullable := one d } := by
  refine ⟨(Costs.settle g.toTables (Costs.unknown g.toTables)).groups[k.index]?.join,
    fun d => ((Costs.settle g.toTables (Costs.unknown g.toTables)).nullCost.production d.production).isSome, ?_⟩
  simp [group?, reanalyze, Tables.analyze, Tables.record]

theorem within_reanalyze (g : Grammar) : Within g g.reanalyze where
  rule {r d} known := by
    obtain ⟨cost, found⟩ := rule?_reanalyze g r
    exact ⟨_, found.trans (congrArg _ known), rfl, rfl⟩
  group {k d} known := by
    obtain ⟨cost, one, found⟩ := group?_reanalyze g k
    exact ⟨_, found.trans (congrArg _ known), rfl, rfl, rfl⟩
  accepts accepted := by rwa [accepts_congr rfl]

theorem reanalyze_within (g : Grammar) : Within g.reanalyze g where
  rule {r d} known := by
    obtain ⟨cost, found⟩ := rule?_reanalyze g r
    rw [found] at known
    obtain ⟨d', known', rfl⟩ := Option.map_eq_some_iff.mp known
    exact ⟨d', known', rfl, rfl⟩
  group {k d} known := by
    obtain ⟨cost, one, found⟩ := group?_reanalyze g k
    rw [found] at known
    obtain ⟨d', known', rfl⟩ := Option.map_eq_some_iff.mp known
    exact ⟨d', known', rfl, rfl, rfl⟩
  accepts accepted := by rwa [accepts_congr rfl] at accepted

@[simp] theorem size_rules_reanalyze (g : Grammar) : g.reanalyze.rules.size = g.rules.size := by
  simp [reanalyze, Tables.analyze, Tables.record]

@[simp] theorem size_groups_reanalyze (g : Grammar) : g.reanalyze.groups.size = g.groups.size := by
  simp [reanalyze, Tables.analyze, Tables.record]

@[simp] theorem sets_reanalyze (g : Grammar) : g.reanalyze.sets = g.sets := rfl

/-- A new analysis is right whatever the tables said before. -/
theorem analyzed_reanalyze (feasible : ∀ {k d}, g.group? k = some d → d.Admits d.min.toNat) :
    g.reanalyze.Analyzed := by
  have sound := (Costs.unknown_sound g).settle feasible
  have settled := Costs.settled_of_pass_eq sound (Costs.pass_settle g.toTables (Costs.unknown g.toTables))
  have costs : g.reanalyze.toTables.nullCost = (Costs.settle g.toTables (Costs.unknown g.toTables)).nullCost :=
    nullCost_record sound.rules_size sound.groups_size
  constructor
  · rw [costs]
    exact ⟨fun found => (sound.realized.rule found).within (within_reanalyze g),
      fun found => (sound.realized.group found).within (within_reanalyze g)⟩
  · rw [costs]
    constructor
    · intro r d q known found
      obtain ⟨d', known', same, penalty⟩ := (reanalyze_within g).rule known
      rw [← NullCost.ofRule_congr _ same penalty] at found
      exact settled.rule known' found
    · intro k d q known found
      obtain ⟨d', known', same, least, most⟩ := (reanalyze_within g).group known
      rw [← NullCost.ofGroup_congr _ same least] at found
      exact settled.group known' found

theorem lt_size_of_rule? {r : RuleId} {d : RuleDef} (known : g.rule? r = some d) : r.index < g.rules.size :=
  (Array.getElem?_eq_some_iff.mp known).1

theorem rule?_of_lt {r : RuleId} (bound : r.index < g.rules.size) : ∃ d, g.rule? r = some d :=
  ⟨_, Array.getElem?_eq_getElem bound⟩

/-- A new rule whose productions are in scope once it is there. -/
theorem Scoped.push (h : g.Scoped) {d : RuleDef} (indexed : (g.push d).Indexed)
    (scope : ∀ p ∈ d.productions, ∀ s ∈ p, s.InScope (g.rules.size + 1) g.groups.size g.sets.size) :
    (g.push d).Scoped where
  indexed := indexed
  repairs := by have := h.repairs; simp; omega
  rule {r e p s} known chosen member := by
    rw [rule?_push] at known
    split at known
    · cases known
      simpa using scope p chosen s member
    · exact (h.rule known chosen member).mono (by simp) (Nat.le_refl _) (Nat.le_refl _)
  group known member := (h.group known member).mono (by simp) (Nat.le_refl _) (Nat.le_refl _)
  feasible := h.feasible
  start known := by have := h.start known; simp; omega

/-- Changing a rule keeps the scope if the rule's new productions are in it and its keys are the same. -/
theorem Scoped.mapRule (h : g.Scoped) {r : RuleId} {f : RuleDef → RuleDef} (kept : ∀ d, (f d).keys = d.keys)
    (scope : ∀ d p s, g.rule? r = some d → p ∈ (f d).productions → s ∈ p →
      s.InScope g.rules.size g.groups.size g.sets.size) : (g.mapRule r f).Scoped := by
  have size : (g.mapRule r f).rules.size = g.rules.size := by simp [Grammar.mapRule]
  refine ⟨h.indexed.mapRule kept, by rw [size]; exact h.repairs, ?_, ?_, h.feasible, ?_⟩
  · intro s d p x known chosen member
    rw [size]
    rw [rule?_mapRule] at known
    split at known
    case isTrue same =>
      obtain ⟨e, known', rfl⟩ := Option.map_eq_some_iff.mp known
      have : r = s := by cases r; cases s; simpa using same
      subst this
      exact scope e p x known' chosen member
    case isFalse => exact h.rule known chosen member
  · intro k d s known member
    rw [size]
    exact h.group known member
  · intro s known
    rw [size]
    exact h.start known

theorem Scoped.reanalyze (h : g.Scoped) : g.reanalyze.Scoped := by
  refine ⟨h.indexed.reanalyze, by simpa using h.repairs, ?_, ?_, ?_, fun known => by simpa using h.start known⟩
  · intro r d p s known chosen member
    obtain ⟨d', known', same, -⟩ := (reanalyze_within g).rule known
    simpa using h.rule known' (same ▸ chosen) member
  · intro k d s known member
    obtain ⟨d', known', same, -, -⟩ := (reanalyze_within g).group known
    simpa using h.group known' (same ▸ member)
  · intro k d known
    obtain ⟨d', known', same, least, most⟩ := (reanalyze_within g).group known
    simpa [GroupDef.Admits, GroupDef.isUnbounded, least, most] using h.feasible known'

theorem Indexed.lt_size_of_wrapper? (h : g.Indexed) {u : Usage} {r : RuleId} (found : g.wrapper? u = some r) :
    r.index < g.rules.size := by
  obtain ⟨d, known, -⟩ := Option.bind_eq_some_iff.mp (h.wrapper.mp found)
  exact lt_size_of_rule? known

theorem Scoped.push_wrapper (h : g.Scoped) {u : Usage} (missing : g.wrapper? u = none)
    (scope : (Symbol.usage u).InScope g.rules.size g.groups.size g.sets.size) :
    (g.push (g.wrapperDef u)).Scoped := by
  have := h.repairs
  have usage : (Symbol.usage u).InScope (g.rules.size + 1) g.groups.size g.sets.size :=
    scope.mono (Nat.le_succ _) (Nat.le_refl _) (Nat.le_refl _)
  have skip : (Symbol.rule skipRule).InScope (g.rules.size + 1) g.groups.size g.sets.size := by
    change 0 < g.rules.size + 1
    omega
  have assume : (Symbol.rule assumeRule).InScope (g.rules.size + 1) g.groups.size g.sets.size := by
    change 1 < g.rules.size + 1
    omega
  refine h.push (h.indexed.pushWrapper missing) fun p chosen s member => ?_
  simp only [wrapperDef, List.mem_cons, List.not_mem_nil, or_false] at chosen
  rcases chosen with rfl | rfl | rfl <;> simp only [List.mem_cons, List.not_mem_nil, or_false] at member
  · exact member ▸ usage
  · rcases member with rfl | rfl
    · exact skip
    · exact usage
  · exact member ▸ assume

/-- Storing a production keeps the tables in scope, and what is stored is in scope as well. -/
theorem Scoped.stored {ss : List Symbol} {p : Production} (stored : Build.Stored ss g p g') (h : g.Scoped)
    (scope : ∀ s ∈ ss, s.InScope g.rules.size g.groups.size g.sets.size) :
    g'.Scoped ∧ g.rules.size ≤ g'.rules.size ∧ g'.groups = g.groups ∧ g'.sets = g.sets ∧
      ∀ s ∈ p, s.InScope g'.rules.size g'.groups.size g'.sets.size := by
  induction stored with
  | nil => exact ⟨h, Nat.le_refl _, rfl, rfl, by simp⟩
  | plain _ _ ih =>
    obtain ⟨h', more, groups, sets, others⟩ := ih h fun s member => scope s (List.mem_cons_of_mem _ member)
    refine ⟨h', more, groups, sets, List.forall_mem_cons.mpr ⟨?_, others⟩⟩
    exact (scope _ List.mem_cons_self).mono more (by simp [groups]) (by simp [sets])
  | found tolerant known _ ih =>
    obtain ⟨h', more, groups, sets, others⟩ := ih h fun s member => scope s (List.mem_cons_of_mem _ member)
    have here := h.indexed.lt_size_of_wrapper? known
    refine ⟨h', more, groups, sets, List.forall_mem_cons.mpr ⟨?_, others⟩⟩
    exact Nat.lt_of_lt_of_le here more
  | @made u ss g g' p tolerant missing _ ih =>
    have pushed := h.push_wrapper missing (scope _ List.mem_cons_self)
    obtain ⟨h', more, groups, sets, others⟩ := ih pushed fun s member =>
      (scope s (List.mem_cons_of_mem _ member)).mono (by simp) (Nat.le_refl _) (Nat.le_refl _)
    simp only [rules_push, Array.size_push] at more
    refine ⟨h', by omega, groups, sets, List.forall_mem_cons.mpr ⟨?_, others⟩⟩
    exact more

theorem Scoped.change (h : g.Scoped) (change : Change g g') : g'.Scoped := by
  induction change with
  | none => exact h
  | both _ _ first second => exact second (first h)
  | text given missing => exact ⟨h.indexed.pushText given missing, h.repairs, h.rule, h.group, h.feasible, h.start⟩
  | userData data => exact ⟨h.indexed.of_eq _ _, h.repairs, h.rule, h.group, h.feasible, h.start⟩
  | start known =>
    exact ⟨h.indexed.of_eq _ _, h.repairs, h.rule, h.group, h.feasible, by rintro _ ⟨⟩; exact known⟩
  | @set g content filled missing =>
    have more : g.sets.size ≤ (g.pushSet content).sets.size := by simp [pushSet]
    refine ⟨h.indexed.pushSet missing, h.repairs, ?_, ?_, h.feasible, h.start⟩
    · exact fun known chosen member => (h.rule known chosen member).mono (Nat.le_refl _) (Nat.le_refl _) more
    · exact fun known member => (h.group known member).mono (Nat.le_refl _) (Nat.le_refl _) more
  | define r => exact h.mapRule (fun _ => rfl) fun _ _ _ known chosen member => h.rule known chosen member
  | rule blank missing =>
    exact h.push (h.indexed.push missing (by simp [blank.mark])) (by simp [blank.childless])
  | production known scope stored =>
    obtain ⟨h', more, groups, sets, inScope⟩ := Scoped.stored stored h scope
    refine Scoped.reanalyze (h'.mapRule (fun _ => rfl) fun d p s known chosen member => ?_)
    rcases List.mem_append.mp chosen with old | new
    · exact h'.rule known old member
    · rw [List.mem_singleton.mp new] at member
      exact inScope s member
  | penalty r penalty =>
    exact Scoped.reanalyze (h.mapRule (fun _ => rfl) fun _ _ _ known chosen member => h.rule known chosen member)
  | @group g g' d ss scope stored feasible =>
    obtain ⟨h', more, groups, sets, inScope⟩ := Scoped.stored stored h scope
    have older (k : GroupId) (e : GroupDef) (known : Grammar.group? { g' with groups := g'.groups.push d } k = some e) :
        k.index = g'.groups.size ∧ e = d ∨ g'.group? k = some e := by
      simp only [group?, Array.getElem?_push] at known
      split at known
      · cases known; exact .inl ⟨‹_›, rfl⟩
      · exact .inr known
    refine Scoped.reanalyze ⟨h'.indexed.withTables rfl, h'.repairs, ?_, ?_, ?_, h'.start⟩
    · intro r e p s known chosen member
      exact (h'.rule known chosen member).mono (Nat.le_refl _) (by simp) (Nat.le_refl _)
    · intro k e s known member
      rcases older k e known with ⟨here, rfl⟩ | known
      · rw [here]
        exact inScope s member
      · exact h'.group known member
    · intro k e known
      rcases older k e known with ⟨_, rfl⟩ | known
      · exact feasible
      · exact h'.feasible known
  | analysis => exact h.reanalyze

theorem empty_scoped (tolerant : Bool) : (empty tolerant).Scoped := by
  refine Scoped.reanalyze (g := repairsOnly tolerant) ⟨Indexed.repairsOnly tolerant, Nat.le_refl 2, ?_, ?_, ?_, ?_⟩
  · intro r d p s known chosen member
    obtain ⟨bound, rfl⟩ := Array.getElem?_eq_some_iff.mp known
    -- Of the two rules only the first mentions another: itself.
    rcases r with ⟨_ | _ | i⟩
    · simp [repairsOnly] at chosen
      rcases chosen with rfl | rfl <;> simp at member
      · subst member; trivial
      · rcases member with rfl | rfl
        · exact Nat.zero_lt_two
        · trivial
    · simp [repairsOnly] at chosen
      subst chosen
      simp at member
      subst member
      trivial
    · exact absurd bound (by simp [repairsOnly])
  · exact fun known => by simp [group?, repairsOnly] at known
  · exact fun known => by simp [group?, repairsOnly] at known
  · exact fun known => by simp [repairsOnly] at known

theorem empty_analyzed (tolerant : Bool) : (empty tolerant).Analyzed :=
  analyzed_reanalyze (g := repairsOnly tolerant) fun known => by simp [group?, repairsOnly] at known

theorem Realized.within {cost : NullCost} (real : cost.Realized g) (kept : Within g g') : cost.Realized g' :=
  ⟨fun found => (real.rule found).within kept, fun found => (real.group found).within kept⟩

/-- What lies beside the tables has no part in deriving nothing. -/
theorem Analyzed.of_tables_eq (h : g.Analyzed) (same : g'.toTables = g.toTables)
    (accepts : ∀ {u t}, g.accepts u t = true → g'.accepts u t = true) : g'.Analyzed := by
  have kept : Within g g' := by
    refine ⟨fun {r d} known => ⟨d, ?_, rfl, rfl⟩, fun {k d} known => ⟨d, ?_, rfl, rfl, rfl⟩, accepts⟩
    · rwa [rule?, same]
    · rwa [group?, same]
  exact ⟨same ▸ Realized.within h.realized kept, same ▸ h.settled⟩

theorem accepts_push_set (content : List SetMember) {u : Usage} {t : Token} (accepted : g.accepts u t = true) :
    (g.pushSet content).accepts u t = true := by
  cases u with
  | set s =>
    cases known : g.set? s with
    | none => simp [Grammar.accepts, known] at accepted
    | some members =>
      obtain ⟨bound, -⟩ := Array.getElem?_eq_some_iff.mp known
      have kept : (g.pushSet content).set? s = some members := by
        simpa [Grammar.set?, pushSet, Array.getElem?_push, Nat.ne_of_lt bound] using known
      simpa [Grammar.accepts, known, kept] using accepted
  | _ => exact accepted

theorem rule?_define (g : Grammar) (r s : RuleId) : ∃ flag : RuleDef → Bool,
    (g.mapRule r fun d => { d with defined := true }).rule? s =
      (g.rule? s).map fun d => { d with defined := flag d } := by
  rw [rule?_mapRule]
  split
  · exact ⟨fun _ => true, rfl⟩
  · exact ⟨RuleDef.defined, by simp⟩

theorem nullCost_define (g : Grammar) (r : RuleId) :
    (g.mapRule r fun d => { d with defined := true }).toTables.nullCost = g.toTables.nullCost := by
  refine congrArg (NullCost.mk · g.toTables.nullCost.group) (funext fun s => ?_)
  obtain ⟨flag, found⟩ := rule?_define g r s
  change Option.bind (rule? _ s) _ = (g.rule? s).bind _
  rw [found]
  cases g.rule? s <;> rfl

theorem Analyzed.define (h : g.Analyzed) (r : RuleId) :
    (g.mapRule r fun d => { d with defined := true }).Analyzed := by
  have kept : Within g (g.mapRule r fun d => { d with defined := true }) := by
    refine ⟨fun {s d} known => ?_, fun {k d} known => ⟨d, known, rfl, rfl, rfl⟩, fun a => a⟩
    obtain ⟨flag, found⟩ := rule?_define g r s
    exact ⟨_, found.trans (congrArg _ known), rfl, rfl⟩
  have costs := nullCost_define g r
  refine ⟨costs ▸ Realized.within h.realized kept, ?_, costs ▸ h.settled.group⟩
  intro s d q known found
  rw [costs] at found ⊢
  obtain ⟨flag, back⟩ := rule?_define g r s
  rw [show (g.mapRule r fun d => { d with defined := true }).rules[s.index]? = _ from back] at known
  obtain ⟨e, known', rfl⟩ := Option.map_eq_some_iff.mp known
  exact h.settled.rule known' found

theorem nullCost_push (g : Grammar) (d : RuleDef) (r : RuleId) : (g.push d).toTables.nullCost.rule r =
    if r.index = g.rules.size then d.nullPenalty else g.toTables.nullCost.rule r := by
  change ((g.push d).rule? r).bind RuleDef.nullPenalty = _
  rw [rule?_push]
  split <;> rfl

/-- A new rule does not change what older productions cost. -/
theorem production_nullCost_push (d : RuleDef) {p : Production} {groups sets : Nat}
    (inside : ∀ s ∈ p, s.InScope g.rules.size groups sets) :
    (g.push d).toTables.nullCost.production p = g.toTables.nullCost.production p := by
  refine NullCost.production_congr fun s member => ?_
  cases s with
  | rule r => exact (nullCost_push g d r).trans (if_neg (Nat.ne_of_lt (inside _ member)))
  | _ => rfl

/-- A rule as it is at its first mention has the right cost, and no other cost depends on it yet. -/
theorem Analyzed.push (h : g.Analyzed) (inScope : g.Scoped) {d : RuleDef} (blank : d.IsBlank) :
    (g.push d).Analyzed := by
  have kept : Within g (g.push d) := by
    refine ⟨fun {r e} known => ⟨e, ?_, rfl, rfl⟩, fun {k e} known => ⟨e, known, rfl, rfl, rfl⟩, fun a => a⟩
    rw [rule?_push, if_neg (Nat.ne_of_lt (lt_size_of_rule? known))]
    exact known
  have costs := nullCost_push g d
  rw [blank.cost] at costs
  refine ⟨⟨fun {r q} found => ?_, fun found => (h.realized.group found).within kept⟩, ⟨?_, ?_⟩⟩
  · rw [costs] at found
    split at found
    case isTrue new =>
      cases found
      have known : (g.push d).rule? r = some d := by rw [rule?_push, if_pos new]
      simpa [blank.free] using Derives.bare known blank.childless .nil
    case isFalse => exact (h.realized.rule found).within kept
  · intro r e q known found
    rw [costs]
    rw [show (g.push d).rules[r.index]? = _ from rule?_push g d r] at known
    split at known
    case isTrue new =>
      cases known
      refine ⟨0, if_pos new, ?_⟩
      simp [NullCost.ofRule, blank.childless, blank.free] at found
      simp [← found]
    case isFalse old =>
      rw [if_neg old]
      have same : (g.push d).toTables.nullCost.ofRule e = g.toTables.nullCost.ofRule e := by
        rw [NullCost.ofRule, NullCost.ofRule, List.filterMap_congr fun p chosen =>
          production_nullCost_push d fun s member => inScope.rule known chosen member]
      exact h.settled.rule known (same.symm.trans found)
  · intro k e q known found
    have same : (g.push d).toTables.nullCost.ofGroup e = g.toTables.nullCost.ofGroup e := by
      rw [NullCost.ofGroup, NullCost.ofGroup, production_nullCost_push d fun s member => inScope.group known member]
    exact h.settled.group known (same.symm.trans found)

theorem Analyzed.change (h : g.Analyzed) (change : Change g g') (inScope : g.Scoped) : g'.Analyzed := by
  induction change with
  | none => exact h
  | both first _ ih ih' => exact ih' (ih h inScope) (inScope.change first)
  | text given missing => exact h.of_tables_eq rfl id
  | userData data => exact h.of_tables_eq rfl id
  | start known => exact h.of_tables_eq rfl id
  | set filled missing => exact h.of_tables_eq rfl (accepts_push_set _)
  | define r => exact h.define r
  | rule blank missing => exact h.push inScope blank
  | production known scope stored =>
    exact analyzed_reanalyze (Scoped.stored stored inScope scope).1.feasible
  | penalty r penalty => exact analyzed_reanalyze inScope.feasible
  | @group g g' d ss scope stored feasible =>
    refine analyzed_reanalyze fun {k e} known => ?_
    simp only [group?, Array.getElem?_push] at known
    split at known
    · cases known; exact feasible
    · exact (Scoped.stored stored inScope scope).1.feasible known
  | analysis => exact analyzed_reanalyze inScope.feasible

/-- The identifiers that the tables mention are those of entries. -/
structure Closed (g : Grammar) : Prop where
  rule : ∀ {r d p s}, g.rule? r = some d → p ∈ d.productions → s ∈ p →
    s.InScope g.rules.size g.groups.size g.sets.size
  group : ∀ {k d s}, g.group? k = some d → s ∈ d.production → s.InScope g.rules.size g.groups.size g.sets.size
  start : ∀ {r}, g.start = some r → r.index < g.rules.size
  /-- A usage has its wrapper in the table, and is itself in scope. -/
  wrapper : ∀ {u r}, g.wrapper? u = some r →
    r.index < g.rules.size ∧ (Symbol.usage u).InScope g.rules.size g.groups.size g.sets.size

/-- Every wrapper has a production of what it stands for. -/
def Wraps (g : Grammar) : Prop :=
  ∀ r d u, g.rule? r = some d → d.tolerantFor = some u → [.usage u] ∈ d.productions

theorem Wraps.push (h : g.Wraps) {d : RuleDef} (own : ∀ u, d.tolerantFor = some u → [.usage u] ∈ d.productions) :
    (g.push d).Wraps := by
  intro r e u known mark
  rw [rule?_push] at known
  split at known
  · cases known
    exact own u mark
  · exact h r e u known mark

theorem Wraps.mapRule (h : g.Wraps) (r : RuleId) {f : RuleDef → RuleDef}
    (mark : ∀ d, (f d).tolerantFor = d.tolerantFor) (more : ∀ d, d.productions ⊆ (f d).productions) :
    (g.mapRule r f).Wraps := by
  intro s e u known wraps
  rw [rule?_mapRule] at known
  split at known
  · obtain ⟨d, old, rfl⟩ := Option.map_eq_some_iff.mp known
    exact more d (h s d u old (mark d ▸ wraps))
  · exact h s e u known wraps

theorem Wraps.reanalyze (h : g.Wraps) : g.reanalyze.Wraps := by
  intro r e u known wraps
  obtain ⟨cost, found⟩ := rule?_reanalyze g r
  obtain ⟨d, old, rfl⟩ := Option.map_eq_some_iff.mp (found.symm.trans known)
  exact h r d u old wraps

theorem Wraps.stored {ss : List Symbol} {p : Production} (stored : Build.Stored ss g p g') (h : g.Wraps) :
    g'.Wraps := by
  induction stored with
  | nil => exact h
  | plain _ _ ih => exact ih h
  | found _ _ _ ih => exact ih h
  | made _ _ _ ih =>
    refine ih (h.push ?_)
    rintro u ⟨⟩
    simp [wrapperDef]

theorem Wraps.change (h : g.Wraps) (change : Change g g') : g'.Wraps := by
  induction change with
  | none => exact h
  | both _ _ first second => exact second (first h)
  | text given missing => exact h
  | userData data => exact h
  | start known => exact h
  | set filled missing => exact h
  | define r => exact h.mapRule r (fun _ => rfl) fun _ => List.Subset.refl _
  | rule blank missing => exact h.push (by simp [blank.mark])
  | production known scope stored =>
    exact Wraps.reanalyze ((Wraps.stored stored h).mapRule _ (fun _ => rfl) fun _ => List.subset_append_left ..)
  | penalty r penalty => exact Wraps.reanalyze (h.mapRule r (fun _ => rfl) fun _ => List.Subset.refl _)
  | @group g g' d ss scope stored feasible =>
    have inner : g'.Wraps := Wraps.stored stored h
    exact Wraps.reanalyze (g := { g' with groups := g'.groups.push d }) inner
  | analysis => exact h.reanalyze

end Grammar

/-- Whatever an author has done, the identifiers of the grammar are in scope. -/
theorem Reachable.inScope {g : Grammar} (h : Reachable g) : g.Scoped := by
  induction h with
  | empty tolerant => exact Grammar.empty_scoped tolerant
  | step c _ ih => exact ih.change (c.change _)

/-- Whatever an author has done, the grammar knows the cheapest ways of deriving nothing. -/
theorem Reachable.analyzed {g : Grammar} (h : Reachable g) : g.Analyzed := by
  induction h with
  | empty tolerant => exact Grammar.empty_analyzed tolerant
  | step c reached ih => exact ih.change (c.change _) reached.inScope

theorem Reachable.wraps {g : Grammar} (h : Reachable g) : g.Wraps := by
  induction h with
  | empty tolerant =>
    refine Grammar.Wraps.reanalyze (g := Grammar.repairsOnly tolerant) fun r d u known mark => ?_
    obtain ⟨bound, rfl⟩ := Array.getElem?_eq_some_iff.mp known
    -- Neither of the two rules is a wrapper.
    rcases r with ⟨_ | _ | i⟩
    · cases mark
    · cases mark
    · exact absurd bound (by simp [Grammar.repairsOnly])
  | step c _ ih => exact ih.change (c.change _)

/-- Whatever an author has done, what the tables mention is in the tables. -/
theorem Reachable.closed {g : Grammar} (h : Reachable g) : g.Closed := by
  have inScope := h.inScope
  refine ⟨inScope.rule, fun known member => ?_, inScope.start, fun {u r} found => ?_⟩
  · have bound := (Array.getElem?_eq_some_iff.mp known).1
    exact (inScope.group known member).mono (Nat.le_refl _) (Nat.le_of_lt bound) (Nat.le_refl _)
  · obtain ⟨d, known, mark⟩ := Option.bind_eq_some_iff.mp (inScope.indexed.wrapper.mp found)
    exact ⟨Grammar.lt_size_of_rule? known, inScope.rule known (h.wraps _ _ u known mark) (by simp)⟩

/-- Whatever an author has done, names, texts, sets and usages are found where they stand. -/
theorem Reachable.indexed {g : Grammar} (h : Reachable g) : g.Indexed := h.inScope.indexed

end Earley
