import Earley.Proofs.Reachable
import Mathlib.Order.Bounds.Basic

/-!
# The analysis is never stale

Costs of deriving nothing that are realized and settled are the least there are, so there is only one choice of them.
Most construction steps analyze the grammar anew, and the others leave costs and flags right as they are. Hence every
grammar that an author can build carries the costs and flags that another analysis would find (`analysis_current`).
-/

namespace Earley

/-- The least of some costs, and `none` where there are none. -/
def IsCheapest (costs : Set Penalty) : Option Penalty → Prop
  | some p => IsLeast costs p
  | none => costs = ∅

theorem IsCheapest.unique {costs : Set Penalty} {a b : Option Penalty} (ha : IsCheapest costs a)
    (hb : IsCheapest costs b) : a = b := by
  cases a with
  | none =>
    cases b with
    | none => rfl
    | some q => exact absurd hb.1 (ha ▸ Set.notMem_empty q)
  | some p =>
    cases b with
    | none => exact absurd ha.1 (hb ▸ Set.notMem_empty p)
    | some q => exact congrArg some (Penalty.ext (Nat.le_antisymm (ha.2 hb.1) (hb.2 ha.1)))

theorem Tables.changedFlags_self (t : Tables) : t.changedFlags t = 0 := by
  refine List.countP_eq_zero.mpr fun (was, now) member => ?_
  obtain ⟨i, place⟩ := List.getElem?_of_mem member
  obtain ⟨first, second⟩ := List.getElem?_zip_eq_some.mp place
  cases first.symm.trans second
  simp

namespace NullCost

variable {cost cost' : NullCost} {g : Grammar}

theorem isCheapest_production (real : cost.Realized g) (settled : cost.Settled g.toTables) (ss : List Symbol) :
    IsCheapest { c | g.Derives ss [] c } (cost.production ss) := by
  cases found : cost.production ss with
  | none =>
    refine Set.eq_empty_iff_forall_notMem.mpr fun c derived => ?_
    obtain ⟨q, stored, -⟩ := settled.le_of_derives derived rfl
    cases found.symm.trans stored
  | some q =>
    refine ⟨real.production found, fun c derived => ?_⟩
    obtain ⟨q', stored, le⟩ := settled.le_of_derives derived rfl
    cases found.symm.trans stored
    exact le

theorem isCheapest_symbol (real : cost.Realized g) (settled : cost.Settled g.toTables) (s : Symbol) :
    IsCheapest { c | g.Derives [s] [] c } (cost.symbol s) := by
  rw [← production_singleton]
  exact isCheapest_production real settled [s]

/-- Costs that are realized and settled are determined by what the grammar derives. -/
theorem eq_of_settled (real : cost.Realized g) (settled : cost.Settled g.toTables) (real' : cost'.Realized g)
    (settled' : cost'.Settled g.toTables) : cost = cost' := by
  have same (s : Symbol) : cost.symbol s = cost'.symbol s :=
    (isCheapest_symbol real settled s).unique (isCheapest_symbol real' settled' s)
  exact congr (congrArg NullCost.mk (funext fun r => same (.rule r))) (funext fun k => same (.group k))

end NullCost

namespace Grammar

variable {g g' : Grammar}

structure Flagged (g : Grammar) : Prop where
  rule : ∀ {r d}, g.rule? r = some d → d.nullable = d.nullPenalty.isSome
  group : ∀ {k d}, g.group? k = some d → d.nullable = d.nullPenalty.isSome ∧
    d.productionNullable = (g.toTables.nullCost.production d.production).isSome

theorem flagged_reanalyze (feasible : ∀ {k d}, g.group? k = some d → d.Admits d.min.toNat) : g.reanalyze.Flagged := by
  have sound := (Costs.unknown_sound g).settle feasible
  have costs : g.reanalyze.toTables.nullCost = (Costs.settle g.toTables (Costs.unknown g.toTables)).nullCost :=
    nullCost_record sound.rules_size sound.groups_size
  constructor
  · intro r d known
    obtain ⟨cost, found⟩ := rule?_reanalyze g r
    obtain ⟨e, -, rfl⟩ := Option.map_eq_some_iff.mp (found.symm.trans known)
    rfl
  · intro k d known
    rw [costs]
    simp only [group?, reanalyze, Tables.analyze, Tables.record, Array.getElem?_mapIdx] at known
    obtain ⟨e, -, rfl⟩ := Option.map_eq_some_iff.mp known
    exact ⟨rfl, rfl⟩

theorem Flagged.of_tables_eq (h : g.Flagged) (same : g'.toTables = g.toTables) : g'.Flagged := by
  constructor
  · intro r d known
    rw [rule?, same] at known
    exact h.rule known
  · intro k d known
    rw [group?, same] at known
    rw [same]
    exact h.group known

theorem Flagged.define (h : g.Flagged) (r : RuleId) : (g.mapRule r fun d => { d with defined := true }).Flagged := by
  constructor
  · intro s d known
    obtain ⟨flag, found⟩ := rule?_define g r s
    obtain ⟨e, known', rfl⟩ := Option.map_eq_some_iff.mp (found.symm.trans known)
    exact h.rule (d := e) known'
  · intro k d known
    rw [nullCost_define]
    exact h.group known

theorem Flagged.push (h : g.Flagged) (inScope : g.Scoped) {d : RuleDef} (blank : d.IsBlank) :
    (g.push d).Flagged := by
  constructor
  · intro r e known
    rw [rule?_push] at known
    split at known
    · cases known
      rw [blank.flag, blank.cost]
      rfl
    · exact h.rule known
  · intro k e known
    have same := production_nullCost_push d fun s member => inScope.group known member
    rw [same]
    exact h.group known

theorem Flagged.change (h : g.Flagged) (change : Change g g') (inScope : g.Scoped) : g'.Flagged := by
  induction change with
  | none => exact h
  | both first _ ih ih' => exact ih' (ih h inScope) (inScope.change first)
  | text given missing => exact h.of_tables_eq rfl
  | userData data => exact h.of_tables_eq rfl
  | start known => exact h.of_tables_eq rfl
  | set filled missing => exact h.of_tables_eq rfl
  | define r => exact h.define r
  | rule blank missing => exact h.push inScope blank
  | production known scope stored => exact flagged_reanalyze (Scoped.stored stored inScope scope).1.feasible
  | penalty r penalty => exact flagged_reanalyze inScope.feasible
  | @group g g' d ss scope stored feasible =>
    refine flagged_reanalyze fun {k e} known => ?_
    simp only [group?, Array.getElem?_push] at known
    split at known
    · cases known; exact feasible
    · exact (Scoped.stored stored inScope scope).1.feasible known
  | analysis => exact flagged_reanalyze inScope.feasible

/-- Where costs and flags are right, another analysis finds them again. -/
theorem Analyzed.reanalyze_eq (h : g.Analyzed) (flagged : g.Flagged)
    (feasible : ∀ {k d}, g.group? k = some d → d.Admits d.min.toNat) : g.reanalyze = g := by
  have sound := (Costs.unknown_sound g).settle feasible
  have settled := Costs.settled_of_pass_eq sound (Costs.pass_settle g.toTables (Costs.unknown g.toTables))
  have costs := NullCost.eq_of_settled sound.realized settled h.realized h.settled
  have tables : g.toTables.analyze = g.toTables := by
    refine congr (congrArg Tables.mk (Array.ext_getElem? fun i => ?_)) (Array.ext_getElem? fun i => ?_)
    · cases known : g.rules[i]? with
      | none => simp [known]
      | some d =>
        have cost : (Costs.settle g.toTables (Costs.unknown g.toTables)).rules[i]?.join = d.nullPenalty := by
          have same := congrArg (fun cost : NullCost => cost.rule ⟨i⟩) costs
          simpa [Costs.nullCost, Tables.nullCost, known] using same
        have flag := flagged.rule (r := ⟨i⟩) known
        simp [known, cost, ← flag]
    · cases known : g.groups[i]? with
      | none => simp [known]
      | some d =>
        have cost : (Costs.settle g.toTables (Costs.unknown g.toTables)).groups[i]?.join = d.nullPenalty := by
          have same := congrArg (fun cost : NullCost => cost.group ⟨i⟩) costs
          simpa [Costs.nullCost, Tables.nullCost, known] using same
        obtain ⟨flag, one⟩ := flagged.group (k := ⟨i⟩) known
        simp [known, cost, costs, ← flag, ← one]
  rw [reanalyze, tables]

theorem nullCost_rule {r : RuleId} {d : RuleDef} (known : g.rule? r = some d) :
    g.toTables.nullCost.rule r = d.nullPenalty := by
  rw [rule?] at known
  simp only [Tables.nullCost, known, Option.bind_some]

theorem nullCost_group {k : GroupId} {d : GroupDef} (known : g.group? k = some d) :
    g.toTables.nullCost.group k = d.nullPenalty := by
  rw [group?] at known
  simp only [Tables.nullCost, known, Option.bind_some]

theorem Analyzed.isCheapest_rule (h : g.Analyzed) {r : RuleId} {d : RuleDef} (known : g.rule? r = some d) :
    IsCheapest { c | g.Derives [.rule r] [] c } d.nullPenalty :=
  nullCost_rule known ▸ NullCost.isCheapest_symbol h.realized h.settled (.rule r)

theorem Analyzed.isCheapest_group (h : g.Analyzed) {k : GroupId} {d : GroupDef} (known : g.group? k = some d) :
    IsCheapest { c | g.Derives [.group k] [] c } d.nullPenalty :=
  nullCost_group known ▸ NullCost.isCheapest_symbol h.realized h.settled (.group k)

/-- A rule without productions derives nothing at its own penalty and at no other. -/
theorem derives_childless_iff {r : RuleId} {d : RuleDef} (known : g.rule? r = some d) (childless : d.productions = [])
    {c : Penalty} : g.Derives [.rule r] [] c ↔ c = d.penalty := by
  constructor
  · intro h
    obtain ⟨ts, parsed⟩ := h.parses [] 0 fun here => by simp at here
    cases parsed with
    | rule known' chosen =>
      cases known.symm.trans known'
      simp [childless] at chosen
    | bare known' _ rest =>
      cases known.symm.trans known'
      cases rest
      simp
  · rintro rfl
    simpa using Derives.bare known childless .nil

/-- The empty trees of a group are runs of empty repetitions that it admits. -/
theorem derives_group_iff {k : GroupId} {d : GroupDef} (known : g.group? k = some d) {c : Penalty} :
    g.Derives [.group k] [] c ↔
      ∃ n ts, d.Admits n ∧ g.Parses [] (List.replicate n (.iteration k)) 0 0 ts c := by
  constructor
  · intro h
    obtain ⟨ts, parsed⟩ := h.parses [] 0 (fun here => by simp at here)
    cases parsed with
    | group known' admitted inner rest =>
      cases known.symm.trans known'
      cases rest
      exact ⟨_, _, admitted, by simpa using inner⟩
  · rintro ⟨n, ts, admitted, parsed⟩
    have inner := parsed.derives
    rw [flatMap_iterations known, slice_self] at inner
    simpa using Derives.group known admitted inner .nil

/-- A repetition is empty just when its production derives nothing. -/
theorem exists_parses_iteration_iff {k : GroupId} {d : GroupDef} (known : g.group? k = some d) :
    (∃ ts c, g.Parses [] [.iteration k] 0 0 ts c) ↔ ∃ c, g.Derives d.production [] c := by
  constructor
  · rintro ⟨ts, c, parsed⟩
    have derived := parsed.derives
    rw [show [Part.iteration k] = List.replicate 1 (.iteration k) from rfl, flatMap_iterations known, slice_self]
      at derived
    exact ⟨c, by simpa using derived⟩
  · rintro ⟨c, derived⟩
    obtain ⟨ts, parsed⟩ := derived.parses [] 0 fun here => by simp at here
    exact ⟨_, _, .iteration known parsed .nil⟩

end Grammar

theorem Reachable.flagged {g : Grammar} (h : Reachable g) : g.Flagged := by
  induction h with
  | empty tolerant =>
    exact Grammar.flagged_reanalyze (g := Grammar.repairsOnly tolerant) fun known => by
      simp [Grammar.group?, Grammar.repairsOnly] at known
  | step c reached ih => exact ih.change (c.change _) reached.inScope

/-- Whatever an author has done, the costs of deriving nothing are those of the cheapest empty trees, the flags agree
with them, and analyzing the grammar again changes nothing. -/
theorem Reachable.analysis_current (g : Grammar) (h : Reachable g) :
    (∀ r d, g.rule? r = some d →
      IsCheapest { c | ∃ t, g.IsTree r [] t ∧ t.penalty = c } d.nullPenalty ∧
        (d.productions = [] → d.nullPenalty = some d.penalty) ∧ d.nullable = d.nullPenalty.isSome) ∧
    (∀ k d, g.group? k = some d →
      IsCheapest { c | ∃ n ts, d.Admits n ∧ g.Parses [] (List.replicate n (.iteration k)) 0 0 ts c } d.nullPenalty ∧
        d.nullable = d.nullPenalty.isSome ∧
        (d.productionNullable = true ↔ ∃ ts c, g.Parses [] [.iteration k] 0 0 ts c)) ∧
    Build.analyze.run g = .ok 0 g := by
  have analyzed := h.analyzed
  have flagged := h.flagged
  refine ⟨fun r d known => ⟨?_, fun childless => ?_, flagged.rule known⟩, fun k d known => ⟨?_, ?_, ?_⟩, ?_⟩
  · simpa only [Grammar.derives_iff_isTree] using analyzed.isCheapest_rule known
  · have least := analyzed.isCheapest_rule known
    simp only [Grammar.derives_childless_iff known childless] at least
    exact least.unique (b := some d.penalty) ⟨rfl, by rintro c rfl; exact Nat.le_refl _⟩
  · simpa only [Grammar.derives_group_iff known] using analyzed.isCheapest_group known
  · exact (flagged.group known).1
  · rw [(flagged.group known).2, analyzed.isSome_production_iff, Grammar.exists_parses_iteration_iff known]
  · have same := analyzed.reanalyze_eq flagged h.inScope.feasible
    change EStateM.Result.ok (g.toTables.changedFlags g.reanalyze.toTables) g.reanalyze = _
    rw [same, Tables.changedFlags_self]

/-- A unit costs two; it is nothing at all or two other units. The group asks for three units or more. -/
def unitGrammar : Grammar :=
  let calls : List Call := [.rule "unit", .addProduction ⟨2⟩ [.rule ⟨2⟩, .rule ⟨2⟩], .addProduction ⟨2⟩ [.empty],
    .setRulePenalty ⟨2⟩ 2, .group [.rule ⟨2⟩] 3 0]
  calls.foldl (fun g c => c.after g) (.empty false)

theorem analysis_unitGrammar_current : ∃ d, unitGrammar.group? ⟨0⟩ = some d ∧ d.nullPenalty = some 6 ∧
    IsLeast { c | ∃ n ts, d.Admits n ∧ unitGrammar.Parses [] (List.replicate n (.iteration ⟨0⟩)) 0 0 ts c } 6 ∧
    Build.analyze.run unitGrammar = .ok 0 unitGrammar := by
  have reachable : Reachable unitGrammar := reachable_foldl (.empty false) _
  have cost : (unitGrammar.group? ⟨0⟩).map (·.nullPenalty) = some (some 6) := by decide +kernel
  obtain ⟨d, known, six⟩ := Option.map_eq_some_iff.mp cost
  obtain ⟨-, groups, again⟩ := Reachable.analysis_current unitGrammar reachable
  have least := (groups ⟨0⟩ d known).1
  rw [six] at least
  exact ⟨d, known, six, least, again⟩

end Earley
