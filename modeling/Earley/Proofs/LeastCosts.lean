import Earley.Proofs.AnalysisExactness
import Mathlib.Data.Finset.Card

/-!
# Passes find the least costs

While any cost is not the least one yet, the next pass finds the least cost of some rule or group more: otherwise the
costs that are known would be enough to account for every way of deriving nothing (`le_of_stuck`). So as many passes as
there are rules and groups find all of them (`iterate_pass_eq_found`).
-/

namespace Earley

def AtMost (known : Option Penalty) (q : Penalty) : Prop := ∃ q', known = some q' ∧ q' ≤ q

theorem AtMost.trans {known : Option Penalty} {p q : Penalty} (h : AtMost known p) (le : p ≤ q) : AtMost known q := by
  obtain ⟨q', same, le'⟩ := h
  exact ⟨q', same, Nat.le_trans le' le⟩

theorem atMost_of_eq {known : Option Penalty} {q : Penalty} (same : known = some q) : AtMost known q :=
  ⟨q, same, Nat.le_refl _⟩

namespace NullCost

variable {cost cost' : NullCost} {t : Tables}

theorem atMost_cons {s : Symbol} {ss : Production} {p q : Penalty} (first : AtMost (cost.symbol s) p)
    (rest : AtMost (cost.production ss) q) : AtMost (cost.production (s :: ss)) (p + q) := by
  obtain ⟨a, here, le⟩ := first
  obtain ⟨b, others, le'⟩ := rest
  exact ⟨a + b, by simp [production_cons, here, others], Penalty.add_le_add le le'⟩

/-- Costs that are no higher, wherever the others are known. -/
def Below (cost cost' : NullCost) : Prop := ∀ s q, AtMost (cost'.symbol s) q → AtMost (cost.symbol s) q

theorem Below.production (h : Below cost cost') {ss : Production} {q : Penalty}
    (known : AtMost (cost'.production ss) q) : AtMost (cost.production ss) q := by
  induction ss generalizing q with
  | nil => exact known
  | cons s ss ih =>
    obtain ⟨q', found, le⟩ := known
    rw [production_cons] at found
    obtain ⟨a, here, found⟩ := Option.bind_eq_some_iff.mp found
    obtain ⟨b, others, rfl⟩ := Option.map_eq_some_iff.mp found
    exact (atMost_cons (h s a (atMost_of_eq here)) (ih (atMost_of_eq others))).trans le

theorem Below.ofRule (h : Below cost cost') {d : RuleDef} {q : Penalty} (known : AtMost (cost'.ofRule d) q) :
    AtMost (cost.ofRule d) q := by
  obtain ⟨q', found, le⟩ := known
  unfold NullCost.ofRule at found
  split at found
  case isTrue childless => exact ⟨q', by rw [NullCost.ofRule, if_pos childless, found], le⟩
  case isFalse =>
    obtain ⟨a, cheapest, rfl⟩ := Option.map_eq_some_iff.mp found
    obtain ⟨p, chosen, here⟩ := List.mem_filterMap.mp (List.min?_mem cheapest)
    obtain ⟨b, here', below⟩ := h.production (atMost_of_eq here)
    refine AtMost.trans (exists_ofRule_le chosen here') (Nat.le_trans ?_ le)
    exact Penalty.add_le_add below (Nat.le_refl _)

theorem Below.ofGroup (h : Below cost cost') {d : GroupDef} {q : Penalty} (known : AtMost (cost'.ofGroup d) q) :
    AtMost (cost.ofGroup d) q := by
  obtain ⟨q', found, le⟩ := known
  unfold NullCost.ofGroup at found ⊢
  split at found
  case isTrue none => exact ⟨q', by rw [if_pos none, found], le⟩
  case isFalse needed =>
    obtain ⟨a, here, rfl⟩ := Option.map_eq_some_iff.mp found
    obtain ⟨b, here', below⟩ := h.production (atMost_of_eq here)
    rw [if_neg needed, here']
    refine ⟨b.times d.min.toNat, rfl, Nat.le_trans ?_ le⟩
    have := Nat.mul_le_mul_right d.min.toNat below
    simp only [Penalty.le_def, Penalty.value_times] at *
    omega

/-- Costs that a look at the tables brings down to the least only where they are the least already. -/
structure Stuck (cost least : NullCost) (t : Tables) : Prop where
  rule : ∀ {r d q}, t.rules[r.index]? = some d → least.rule r = some q → AtMost (cost.ofRule d) q →
    AtMost (cost.rule r) q
  group : ∀ {k d q}, t.groups[k.index]? = some d → least.group k = some q → AtMost (cost.ofGroup d) q →
    AtMost (cost.group k) q

/-- Costs that are stuck account for every way of deriving nothing. The induction is on the cost and within it on the
derivation: what is used below a rule or group costs no more than it does, so if there is no way to derive the same
at a lower cost, a look at the tables finds the cost, and being stuck means that it is known already. -/
theorem le_of_stuck {least : NullCost} (cheapest : ∀ ss, IsCheapest { c | t.Vanishes ss c } (least.production ss))
    (stuck : cost.Stuck least t) {ss : List Symbol} {q : Penalty} (h : t.Vanishes ss q) :
    AtMost (cost.production ss) q := by
  -- What a symbol costs by a look at the tables it costs at most, if all that is cheaper is accounted for.
  have symbol (s : Symbol) {p : Penalty} (derived : t.Vanishes [s] p)
      (cheaper : ∀ {ss q}, q < p → t.Vanishes ss q → AtMost (cost.production ss) q)
      (looked : least.symbol s = some p → AtMost (cost.symbol s) p) : AtMost (cost.symbol s) p := by
    have minimal := cheapest [s]
    rw [production_singleton] at minimal
    cases known : least.symbol s with
    | none =>
      rw [known] at minimal
      exact absurd derived (Set.eq_empty_iff_forall_notMem.mp minimal p)
    | some m =>
      rw [known] at minimal
      rcases Nat.lt_or_eq_of_le (minimal.2 derived) with less | same
      · have found := cheaper less minimal.1
        rw [production_singleton] at found
        exact found.trans (Nat.le_of_lt less)
      · exact looked (known.trans (congrArg some (Penalty.ext same)))
  generalize bound : q.value = m
  induction m using Nat.strongRecOn generalizing ss q with
  | ind m outer =>
    replace bound : q.value ≤ m := Nat.le_of_eq bound
    have cheaper {p : Penalty} (le : p.value ≤ m) {ss : List Symbol} {q : Penalty} (less : q < p)
        (derived : t.Vanishes ss q) : AtMost (cost.production ss) q :=
      outer q.value (Nat.lt_of_lt_of_le less le) derived rfl
    have parts {p q : Penalty} (le : (p + q).value ≤ m) : p.value ≤ m ∧ q.value ≤ m :=
      ⟨Nat.le_trans (Penalty.le_add_right p q) le, Nat.le_trans (Penalty.add_comm p q ▸ Penalty.le_add_right q p) le⟩
    induction h with
    | nil => exact atMost_of_eq rfl
    | empty _ ih => simpa using atMost_cons (s := .empty) (atMost_of_eq rfl) (ih bound)
    | @rule r d production c ss p known chosen inner _ ihInner ihRest =>
      have single : t.Vanishes [.rule r] (c + d.penalty) := by simpa using Tables.Vanishes.rule known chosen inner .nil
      obtain ⟨a, here, le⟩ := ihInner (parts (parts bound).1).1
      refine atMost_cons (symbol (.rule r) single (cheaper (parts bound).1) fun final => ?_) (ihRest (parts bound).2)
      refine stuck.rule known final (AtMost.trans (exists_ofRule_le chosen here) ?_)
      exact Penalty.add_le_add le (Nat.le_refl _)
    | @bare r d ss p known childless _ ihRest =>
      have single : t.Vanishes [.rule r] d.penalty := by simpa using Tables.Vanishes.bare known childless .nil
      refine atMost_cons (symbol (.rule r) single (cheaper (parts bound).1) fun final => ?_) (ihRest (parts bound).2)
      exact stuck.rule known final (atMost_of_eq (by simp [NullCost.ofRule, childless]))
    | @group k d count c ss p known enough inner _ ihInner ihRest =>
      have single : t.Vanishes [.group k] c := by simpa using Tables.Vanishes.group known enough inner .nil
      obtain ⟨a, here, le⟩ := ihInner (parts bound).1
      refine atMost_cons (symbol (.group k) single (cheaper (parts bound).1) fun final => ?_) (ihRest (parts bound).2)
      exact stuck.group known final (AtMost.trans (exists_ofGroup_le enough here) le)

end NullCost

namespace Costs

variable {t : Tables} {c c' : Costs}

theorem atMost_of_improves {new old : Option Penalty} {q : Penalty} (better : improves new old = true)
    (known : AtMost old q) : AtMost new q := by
  obtain ⟨q', rfl, le⟩ := known
  cases new with
  | none => cases better
  | some p => exact ⟨p, rfl, Nat.le_trans (Nat.le_of_lt (by simpa [improves, Penalty.lt_def] using better)) le⟩

/-- Lowering a cost leaves no cost higher. -/
theorem lower_atMost (costs : Array (Option Penalty)) {i j : Nat} {new : Option Penalty} {q : Penalty}
    (known : AtMost costs[j]?.join q) : AtMost (lower costs i new)[j]?.join q := by
  unfold lower
  split
  case isTrue better =>
    by_cases here : i = j
    · subst here
      have bound : i < costs.size := by
        obtain ⟨q', found, -⟩ := known
        by_contra outside
        simp [Array.getElem?_eq_none (Nat.le_of_not_lt outside)] at found
      simpa [bound] using atMost_of_improves better known
    · simpa [here] using known
  case isFalse => exact known

theorem lower_self_atMost {costs : Array (Option Penalty)} {i : Nat} {new : Option Penalty} {q : Penalty}
    (bound : i < costs.size) (known : AtMost new q) : AtMost (lower costs i new)[i]?.join q := by
  unfold lower
  split
  case isTrue => simpa [bound] using known
  case isFalse better =>
    obtain ⟨p, rfl, le⟩ := known
    exact AtMost.trans (le_of_not_improves (by simpa using better)) le

structure Lowered (c' c : Costs) : Prop where
  rules_size : c'.rules.size = c.rules.size
  groups_size : c'.groups.size = c.groups.size
  below : c'.nullCost.Below c.nullCost

theorem lowered_refl (c : Costs) : c.Lowered c := ⟨rfl, rfl, fun _ _ known => known⟩

theorem Lowered.trans {c'' : Costs} (h : c''.Lowered c') (k : c'.Lowered c) : c''.Lowered c :=
  ⟨h.rules_size.trans k.rules_size, h.groups_size.trans k.groups_size, fun s q known => h.below s q (k.below s q known)⟩

theorem lowered_lowerRule (t : Tables) (c : Costs) (i : Nat) : (lowerRule t c i).Lowered c := by
  unfold lowerRule
  split
  case h_1 d _ =>
    refine ⟨size_lower _ _ _, rfl, fun s q known => ?_⟩
    cases s with
    | rule r => exact lower_atMost c.rules known
    | _ => exact known
  case h_2 => exact lowered_refl c

theorem lowered_lowerGroup (t : Tables) (c : Costs) (i : Nat) : (lowerGroup t c i).Lowered c := by
  unfold lowerGroup
  split
  case h_1 d _ =>
    refine ⟨rfl, size_lower _ _ _, fun s q known => ?_⟩
    cases s with
    | group k => exact lower_atMost c.groups known
    | _ => exact known
  case h_2 => exact lowered_refl c

theorem lowered_foldl {step : Costs → Nat → Costs} (lowers : ∀ c i, (step c i).Lowered c) (is : List Nat) (c : Costs) :
    (is.foldl step c).Lowered c := by
  induction is generalizing c with
  | nil => exact lowered_refl c
  | cons i is ih => exact (ih (step c i)).trans (lowers c i)

/-- What one of the steps achieves from any lower costs, all of them together achieve. -/
theorem foldl_atMost {step : Costs → Nat → Costs} (lowers : ∀ c i, (step c i).Lowered c) {is : List Nat} {i : Nat}
    (member : i ∈ is) {s : Symbol} {q : Penalty} {c : Costs}
    (here : ∀ c', c'.Lowered c → AtMost ((step c' i).nullCost.symbol s) q) :
    AtMost ((is.foldl step c).nullCost.symbol s) q := by
  induction is generalizing c with
  | nil => cases member
  | cons j is ih =>
    rcases List.mem_cons.mp member with rfl | later
    · exact (lowered_foldl lowers is (step c i)).below s q (here c (lowered_refl c))
    · exact ih later fun c' lowered => here c' (lowered.trans (lowers c j))

theorem lowered_pass (t : Tables) (c : Costs) : (pass t c).Lowered c :=
  (lowered_foldl (lowered_lowerGroup t) _ _).trans (lowered_foldl (lowered_lowerRule t) _ _)

theorem pass_rule_atMost (size : c.rules.size = t.rules.size) {r : RuleId} {d : RuleDef} {q : Penalty}
    (known : t.rules[r.index]? = some d) (looked : AtMost (c.nullCost.ofRule d) q) :
    AtMost ((pass t c).nullCost.rule r) q := by
  obtain ⟨bound, -⟩ := Array.getElem?_eq_some_iff.mp known
  apply (lowered_foldl (lowered_lowerGroup t) _ _).below (.rule r) q
  refine foldl_atMost (lowered_lowerRule t) (List.mem_range.mpr bound) fun c' lowered => ?_
  unfold lowerRule
  rw [known]
  exact lower_self_atMost (by rw [lowered.rules_size, size]; exact bound) (lowered.below.ofRule looked)

theorem pass_group_atMost (size : c.groups.size = t.groups.size) {k : GroupId} {d : GroupDef} {q : Penalty}
    (known : t.groups[k.index]? = some d) (looked : AtMost (c.nullCost.ofGroup d) q) :
    AtMost ((pass t c).nullCost.group k) q := by
  obtain ⟨bound, -⟩ := Array.getElem?_eq_some_iff.mp known
  have first := lowered_foldl (lowered_lowerRule t) (List.range t.rules.size) c
  refine foldl_atMost (s := .group k) (lowered_lowerGroup t) (List.mem_range.mpr bound) fun c' lowered => ?_
  have lowered := lowered.trans first
  unfold lowerGroup
  rw [known]
  exact lower_self_atMost (by rw [lowered.groups_size, size]; exact bound) (lowered.below.ofGroup looked)

end Costs

namespace Tables

def names (t : Tables) : Finset Symbol :=
  ((List.range t.rules.size).map (fun i => Symbol.rule ⟨i⟩) ++
    (List.range t.groups.size).map fun i => Symbol.group ⟨i⟩).toFinset

theorem card_names_le (t : Tables) : t.names.card ≤ t.rules.size + t.groups.size :=
  Nat.le_trans (List.toFinset_card_le _) (by simp)

theorem rule_mem_names {t : Tables} {r : RuleId} (inside : r.index < t.rules.size) : .rule r ∈ t.names := by
  refine List.mem_toFinset.mpr (List.mem_append_left _ ?_)
  exact List.mem_map.mpr ⟨r.index, List.mem_range.mpr inside, rfl⟩

theorem group_mem_names {t : Tables} {k : GroupId} (inside : k.index < t.groups.size) : .group k ∈ t.names := by
  refine List.mem_toFinset.mpr (List.mem_append_right _ ?_)
  exact List.mem_map.mpr ⟨k.index, List.mem_range.mpr inside, rfl⟩

def grammar (t : Tables) : Grammar := { Grammar.empty false with toTables := t }

theorem agree_grammar (t : Tables) : Agree t t.grammar.withoutBounds.toTables := Grammar.agree_withoutBounds t.grammar

theorem isCheapest_symbol_found (t : Tables) (s : Symbol) :
    IsCheapest { c | t.Vanishes [s] c } (t.found.nullCost.symbol s) := by
  rw [← NullCost.production_singleton]
  exact t.grammar.isCheapest_found [s]

end Tables

namespace Costs

/-- Costs for all rules and groups of some tables, each that of a way to derive nothing. -/
structure Realizes (c : Costs) (t : Tables) : Prop where
  rules_size : c.rules.size = t.rules.size
  groups_size : c.groups.size = t.groups.size
  vanishes : ∀ {s q}, c.nullCost.symbol s = some q → t.Vanishes [s] q

/-- The rules and groups whose least cost has not been found. -/
def pending (t : Tables) (c : Costs) : Finset Symbol :=
  t.names.filter fun s => c.nullCost.symbol s ≠ t.found.nullCost.symbol s

variable {t : Tables} {c : Costs}

theorem realizes_iff_sound : c.Realizes t ↔ c.Sound t.grammar.withoutBounds := by
  have size : t.grammar.withoutBounds.groups.size = t.groups.size := Array.size_map
  constructor
  · intro h
    exact ⟨h.rules_size, h.groups_size.trans size.symm,
      fun {r _} known => Grammar.vanishes_iff.mp (h.vanishes (s := .rule r) known),
      fun {k _} known => Grammar.vanishes_iff.mp (h.vanishes (s := .group k) known)⟩
  · intro h
    exact ⟨h.rules_size, h.groups_size.trans size, fun known => Grammar.vanishes_iff.mpr (h.realized.symbol known)⟩

theorem realizes_unknown (t : Tables) : (unknown t).Realizes t := by
  rw [realizes_iff_sound, ← t.agree_grammar.unknown]
  exact unknown_sound _

theorem Realizes.pass (h : c.Realizes t) : (pass t c).Realizes t := by
  rw [realizes_iff_sound, ← t.agree_grammar.pass]
  exact (realizes_iff_sound.mp h).pass t.grammar.feasible_withoutBounds

theorem realizes_found (t : Tables) : t.found.Realizes t := by
  rw [realizes_iff_sound, ← t.agree_grammar.found]
  exact (unknown_sound _).settle t.grammar.feasible_withoutBounds

/-- A symbol is pending just when it derives nothing and is not known to do so at its least cost. -/
theorem mem_pending_iff (h : c.Realizes t) {s : Symbol} :
    s ∈ pending t c ↔
      s ∈ t.names ∧ ∃ q, t.found.nullCost.symbol s = some q ∧ ¬ AtMost (c.nullCost.symbol s) q := by
  have cheapest := t.isCheapest_symbol_found s
  rw [pending, Finset.mem_filter]
  refine and_congr_right fun _ => ?_
  cases found : t.found.nullCost.symbol s with
  | none =>
    rw [found] at cheapest
    suffices c.nullCost.symbol s = none by simp [this]
    refine Option.eq_none_iff_forall_not_mem.mpr fun q known => ?_
    exact Set.eq_empty_iff_forall_notMem.mp cheapest q (h.vanishes known)
  | some q =>
    rw [found] at cheapest
    constructor
    · intro differ
      refine ⟨q, rfl, fun ⟨q', known, le⟩ => differ ?_⟩
      rw [known, Penalty.ext (Nat.le_antisymm le (cheapest.2 (h.vanishes known)))]
    · rintro ⟨q', least, unknown⟩ same
      exact unknown (atMost_of_eq (same.trans least))

theorem pending_pass_subset (h : c.Realizes t) : pending t (pass t c) ⊆ pending t c := by
  intro s member
  obtain ⟨name, q, found, unknown⟩ := (mem_pending_iff h.pass).mp member
  exact (mem_pending_iff h).mpr ⟨name, q, found, fun known => unknown ((lowered_pass t c).below s q known)⟩

/-- While anything is pending, the next pass finds the least cost of something. -/
theorem card_pending_pass_lt (h : c.Realizes t) (some : (pending t c).Nonempty) :
    (pending t (pass t c)).card < (pending t c).card := by
  refine Finset.card_lt_card ⟨pending_pass_subset h, fun none => ?_⟩
  -- If the pass found nothing, the costs before it would be stuck, so they would be the least.
  have looked {s : Symbol} {q : Penalty} (name : s ∈ t.names) (found : t.found.nullCost.symbol s = .some q)
      (after : AtMost ((pass t c).nullCost.symbol s) q) : AtMost (c.nullCost.symbol s) q := by
    by_contra unknown
    have later := none ((mem_pending_iff h).mpr ⟨name, q, found, unknown⟩)
    obtain ⟨-, q', found', unknown'⟩ := (mem_pending_iff h.pass).mp later
    cases found.symm.trans found'
    exact unknown' after
  have stuck : c.nullCost.Stuck t.found.nullCost t := by
    constructor
    · intro r d q known found cheap
      exact looked (s := .rule r) (Tables.rule_mem_names (Array.getElem?_eq_some_iff.mp known).1) found
        (pass_rule_atMost h.rules_size known cheap)
    · intro k d q known found cheap
      exact looked (s := .group k) (Tables.group_mem_names (Array.getElem?_eq_some_iff.mp known).1) found
        (pass_group_atMost h.groups_size known cheap)
  obtain ⟨s, member⟩ := some
  obtain ⟨-, q, found, unknown⟩ := (mem_pending_iff h).mp member
  have cheapest := t.isCheapest_symbol_found s
  rw [found] at cheapest
  have known := NullCost.le_of_stuck t.grammar.isCheapest_found stuck cheapest.1
  rw [NullCost.production_singleton] at known
  exact unknown known

/-- Costs with nothing pending are those the analysis finds. -/
theorem eq_found_of_pending_eq_empty (h : c.Realizes t) (none : pending t c = ∅) : c = t.found := by
  have final {s : Symbol} (name : s ∈ t.names) : c.nullCost.symbol s = t.found.nullCost.symbol s := by
    by_contra differ
    have member : s ∈ pending t c := Finset.mem_filter.mpr ⟨name, differ⟩
    rw [none] at member
    cases member
  have same {as bs : Array (Option Penalty)} (size : as.size = bs.size)
      (each : ∀ i, i < as.size → as[i]?.join = bs[i]?.join) : as = bs :=
    Array.ext size fun i inside inside' => by simpa [inside, inside'] using each i inside
  have found := realizes_found t
  have rules : c.rules = t.found.rules :=
    same (h.rules_size.trans found.rules_size.symm) fun i inside =>
      final (Tables.rule_mem_names (r := ⟨i⟩) (h.rules_size ▸ inside))
  have groups : c.groups = t.found.groups :=
    same (h.groups_size.trans found.groups_size.symm) fun i inside =>
      final (Tables.group_mem_names (k := ⟨i⟩) (h.groups_size ▸ inside))
  exact (Costs.mk.injEq ..).mpr ⟨rules, groups⟩

/-- After so many passes, so many fewer symbols are pending. -/
theorem card_pending_iterate_le (t : Tables) (n : Nat) :
    ((pass t)^[n] (unknown t)).Realizes t ∧
      (pending t ((pass t)^[n] (unknown t))).card ≤ t.rules.size + t.groups.size - n := by
  induction n with
  | zero => exact ⟨realizes_unknown t, Nat.le_trans (Finset.card_filter_le _ _) t.card_names_le⟩
  | succ n ih =>
    obtain ⟨real, few⟩ := ih
    rw [Function.iterate_succ_apply']
    refine ⟨real.pass, ?_⟩
    rcases Finset.eq_empty_or_nonempty (pending t ((pass t)^[n] (unknown t))) with none | some
    · have later := pending_pass_subset real
      rw [none, Finset.subset_empty] at later
      simp [later]
    · have := card_pending_pass_lt real some
      omega

/-- As many passes as there are rules and groups find all costs. -/
theorem iterate_pass_eq_found (t : Tables) : (pass t)^[t.rules.size + t.groups.size] (unknown t) = t.found := by
  obtain ⟨real, few⟩ := card_pending_iterate_le t (t.rules.size + t.groups.size)
  rw [Nat.sub_self] at few
  exact eq_found_of_pending_eq_empty real (Finset.card_eq_zero.mp (Nat.eq_zero_of_le_zero few))

end Costs

end Earley
