import Earley.Grammar.Repricing
import Earley.Proofs.Analysis
import Earley.Proofs.Marks

/-!
# Penalties and what grammars derive

No construction step looks at a penalty or at what an analysis found. So histories that differ in penalties alone lead
to grammars that differ in penalties and in what their analyses find, and as to that they agree which rules and groups
derive nothing: whether there is a derivation does not depend on what it costs.
-/

namespace Earley

/-- A rule without its penalty, and with what an analysis finds as it is at first. -/
def RuleDef.outline (d : RuleDef) : RuleDef := { d with penalty := 0, nullable := true, nullPenalty := some 0 }

theorem RuleDef.productions_of_outline {d d' : RuleDef} (same : d.outline = d'.outline) :
    d.productions = d'.productions := by
  simp only [outline, RuleDef.mk.injEq] at same
  exact same.2.1

/-- A map that commutes with a change of entries commutes with the change of one entry. -/
theorem map_modify {α β : Type} {f : α → β} {change : α → α} {change' : β → β}
    (alike : ∀ x, f (change x) = change' (f x)) (xs : Array α) (i : Nat) :
    (xs.modify i change).map f = (xs.map f).modify i change' := by
  refine Array.ext_getElem? fun j => ?_
  simp only [Array.getElem?_map, Array.getElem?_modify]
  split
  · simp only [Option.map_map, Function.comp_def, alike]
  · rfl

namespace Grammar

def outline (g : Grammar) : Grammar :=
  { g with rules := g.rules.map RuleDef.outline, groups := g.groups.map GroupDef.content }

variable {g g' : Grammar}

@[simp] theorem size_rules_outline (g : Grammar) : g.outline.rules.size = g.rules.size := Array.size_map

@[simp] theorem size_groups_outline (g : Grammar) : g.outline.groups.size = g.groups.size := Array.size_map

@[simp] theorem outline_outline (g : Grammar) : g.outline.outline = g.outline := by
  simp only [outline, Array.map_map]
  rfl

@[simp] theorem outline_reanalyze (g : Grammar) : g.reanalyze.outline = g.outline := by
  have rules : g.reanalyze.rules.map RuleDef.outline = g.rules.map RuleDef.outline := by
    refine Array.ext_getElem? fun i => ?_
    simp only [reanalyze, Tables.analyze, Tables.record, Array.getElem?_map, Array.getElem?_mapIdx, Option.map_map]
    rfl
  simp only [outline, rules, (alike_reanalyze g).groups]
  rfl

theorem outline_push_rule (g : Grammar) {d : RuleDef} (blank : d.outline = d) :
    (g.push d).outline = g.outline.push d := by
  simp only [outline, push, Array.map_push, Array.size_map, blank]

theorem outline_push_group (g : Grammar) (d : GroupDef) :
    outline { g with groups := g.groups.push d } = { g.outline with groups := g.outline.groups.push d.content } := by
  simp only [outline, Array.map_push]

/-- Changing a rule changes its outline alike. -/
theorem outline_mapRule (g : Grammar) (r : RuleId) (f f' : RuleDef → RuleDef)
    (alike : ∀ d, (f d).outline = f' d.outline) : (g.mapRule r f).outline = g.outline.mapRule r f' := by
  simp only [outline, mapRule, map_modify alike]

theorem outline_rule {r : RuleId} {d : RuleDef} (same : g.outline = g'.outline) (known : g.rule? r = some d) :
    ∃ d', g'.rule? r = some d' ∧ d.outline = d'.outline := by
  have entries := congrArg (·.rules[r.index]?) same
  simp only [outline, Array.getElem?_map] at entries
  rw [show g.rules[r.index]? = some d from known, Option.map_some] at entries
  obtain ⟨d', known', equal⟩ := Option.map_eq_some_iff.mp entries.symm
  exact ⟨d', known', equal.symm⟩

theorem outline_group {k : GroupId} {d : GroupDef} (same : g.outline = g'.outline) (known : g.group? k = some d) :
    ∃ d', g'.group? k = some d' ∧ d.content = d'.content := by
  have entries := congrArg (·.groups[k.index]?) same
  simp only [outline, Array.getElem?_map] at entries
  rw [show g.groups[k.index]? = some d from known, Option.map_some] at entries
  obtain ⟨d', known', equal⟩ := Option.map_eq_some_iff.mp entries.symm
  exact ⟨d', known', equal.symm⟩

end Grammar

open Grammar

namespace Build

/-- Symbols are stored in one way. -/
theorem Stored.unique {ss : List Symbol} {g g' g'' : Grammar} {p q : Production} (h : Stored ss g p g')
    (h' : Stored ss g q g'') : p = q ∧ g' = g'' := by
  induction h generalizing q g'' with
  | nil => cases h'; exact ⟨rfl, rfl⟩
  | plain kept _ ih =>
    cases h' with
    | plain _ rest =>
      obtain ⟨rfl, rfl⟩ := ih rest
      exact ⟨rfl, rfl⟩
    | found tolerant => cases (kept _ rfl).symm.trans tolerant
    | made tolerant => cases (kept _ rfl).symm.trans tolerant
  | found tolerant known _ ih =>
    cases h' with
    | plain kept => cases (kept _ rfl).symm.trans tolerant
    | found _ known' rest =>
      cases known.symm.trans known'
      obtain ⟨rfl, rfl⟩ := ih rest
      exact ⟨rfl, rfl⟩
    | made _ missing => cases known.symm.trans missing
  | made tolerant missing _ ih =>
    cases h' with
    | plain kept => cases (kept _ rfl).symm.trans tolerant
    | found _ known => cases known.symm.trans missing
    | made _ _ rest =>
      obtain ⟨rfl, rfl⟩ := ih rest
      exact ⟨rfl, rfl⟩

/-- Storing symbols in the outline of a grammar makes the same wrappers. -/
theorem Stored.outline {ss : List Symbol} {g g' : Grammar} {p : Production} (h : Stored ss g p g') :
    Stored ss g.outline p g'.outline := by
  induction h with
  | nil => exact .nil
  | plain kept _ ih => exact .plain kept ih
  | found tolerant known _ ih => exact .found tolerant known ih
  | @made u ss g g' p tolerant missing _ ih =>
    rw [outline_push_rule g (d := g.wrapperDef u) rfl] at ih
    have made := Stored.made (g := g.outline) (u := u) tolerant missing ih
    rwa [size_rules_outline] at made

variable (g : Grammar)

theorem outline_terminal (text : String) :
    (after (terminal text) g.outline).outline = (after (terminal text) g).outline := by
  have same : g.outline.terminal? text = g.terminal? text := rfl
  unfold after terminal
  by_cases blank : text.isEmpty = true
  · simp [blank]
  · cases known : g.terminal? text with
    | some t => simp [blank, same, known]
    | none =>
      simp [blank, same, known]
      exact congrArg (·.pushText text) (outline_outline g)

theorem outline_rule (name : String) : (after (rule name) g.outline).outline = (after (rule name) g).outline := by
  have outer := after_rule name g.outline
  have looked : g.outline.ruleNamed? name = g.ruleNamed? name := rfl
  rcases after_rule name g with ⟨r, known, same⟩ | ⟨new, made⟩
  · rw [looked, known] at outer
    obtain ⟨-, -, same'⟩ := outer.resolve_right (by simp)
    rw [same, same', outline_outline]
  · rw [looked, new] at outer
    obtain ⟨-, made'⟩ := outer.resolve_left (by simp)
    rw [made, made', outline_push_rule _ rfl, outline_push_rule _ rfl, outline_outline]

theorem outline_defineRule (name : String) :
    (after (defineRule name) g.outline).outline = (after (defineRule name) g).outline := by
  have define (g : Grammar) (r : RuleId) := outline_mapRule g r (fun d => { d with defined := true })
    (fun d => { d with defined := true }) fun _ => rfl
  have outer := after_defineRule name g.outline
  have looked : g.outline.ruleNamed? name = g.ruleNamed? name := rfl
  rcases after_defineRule name g with ⟨r, known, defined⟩ | ⟨new, made⟩
  · rw [looked, known] at outer
    obtain ⟨r', same, defined'⟩ := outer.resolve_right (by simp)
    cases same
    rw [defined, defined', define, define, outline_outline]
  · rw [looked, new] at outer
    obtain ⟨-, made'⟩ := outer.resolve_left (by simp)
    rw [made, made', define, define, outline_push_rule _ rfl, outline_push_rule _ rfl, outline_outline,
      size_rules_outline]

theorem outline_addProduction (r : RuleId) (ss : List Symbol) :
    (after (addProduction r ss) g.outline).outline = (after (addProduction r ss) g).outline := by
  have outer := after_addProduction r ss g.outline
  rw [size_rules_outline, size_groups_outline] at outer
  by_cases scope : r.index < g.rules.size ∧ ∀ s ∈ ss, s.InScope g.rules.size g.groups.size g.sets.size
  · obtain ⟨-, -, p, g', stored, added⟩ := (after_addProduction r ss g).resolve_right fun no => no.1 scope
    obtain ⟨-, -, p', g'', stored', added'⟩ := outer.resolve_right fun no => no.1 scope
    obtain ⟨rfl, rfl⟩ := stored.outline.unique stored'
    have append (g : Grammar) := outline_mapRule g r
      (fun d => { d with productions := d.productions ++ [p] })
      (fun d => { d with productions := d.productions ++ [p] }) fun _ => rfl
    rw [added, added', outline_reanalyze, outline_reanalyze, append, append, outline_outline]
  · obtain ⟨-, same⟩ := (after_addProduction r ss g).resolve_left fun yes => scope ⟨yes.1, yes.2.1⟩
    obtain ⟨-, same'⟩ := outer.resolve_left fun yes => scope ⟨yes.1, yes.2.1⟩
    rw [same, same', outline_outline]

theorem outline_setRulePenalty (r : RuleId) (penalty : Penalty) :
    (after (setRulePenalty r 0) g.outline).outline = (after (setRulePenalty r penalty) g).outline := by
  have price (g : Grammar) (penalty : Penalty) := outline_mapRule g r (fun d => { d with penalty := penalty }) id
    fun _ => rfl
  have outer := after_setRulePenalty r 0 g.outline
  rw [size_rules_outline] at outer
  rcases after_setRulePenalty r penalty g with ⟨known, set⟩ | ⟨unknown, same⟩
  · obtain ⟨-, set'⟩ := outer.resolve_right fun no => no.1 known
    rw [set, set', outline_reanalyze, outline_reanalyze, price, price, outline_outline]
  · obtain ⟨-, same'⟩ := outer.resolve_left fun yes => unknown yes.1
    rw [same, same', outline_outline]

theorem outline_setStart (r : RuleId) :
    (after (setStart r) g.outline).outline = (after (setStart r) g).outline := by
  have outer := after_setStart r g.outline
  rw [size_rules_outline] at outer
  rcases after_setStart r g with ⟨known, set⟩ | ⟨unknown, same⟩
  · obtain ⟨-, set'⟩ := outer.resolve_right fun no => no.1 known
    rw [set, set']
    exact congrArg (fun g : Grammar => { g with start := some r }) (outline_outline g)
  · obtain ⟨-, same'⟩ := outer.resolve_left fun yes => unknown yes.1
    rw [same, same', outline_outline]

theorem outline_group (ss : List Symbol) (min max : UInt32) :
    (after (group ss min max) g.outline).outline = (after (group ss min max) g).outline := by
  have outer := after_group ss min max g.outline
  rw [size_rules_outline, size_groups_outline] at outer
  by_cases scope : (max = 0 ∨ min.toNat ≤ max.toNat) ∧ ∀ s ∈ ss, s.InScope g.rules.size g.groups.size g.sets.size
  · obtain ⟨-, -, p, g', stored, added⟩ := (after_group ss min max g).resolve_right fun no => no.1 scope
    obtain ⟨-, -, p', g'', stored', added'⟩ := outer.resolve_right fun no => no.1 scope
    obtain ⟨rfl, rfl⟩ := stored.outline.unique stored'
    rw [added, added', outline_reanalyze, outline_reanalyze, outline_push_group, outline_push_group, outline_outline]
  · obtain ⟨-, same⟩ := (after_group ss min max g).resolve_left fun yes => scope ⟨yes.1, yes.2.1⟩
    obtain ⟨-, same'⟩ := outer.resolve_left fun yes => scope ⟨yes.1, yes.2.1⟩
    rw [same, same', outline_outline]

theorem outline_set (ss : List Symbol) : (after (set ss) g.outline).outline = (after (set ss) g).outline := by
  rw [after_set, after_set]
  have looked (content : List SetMember) : g.outline.setWith? content = g.setWith? content := rfl
  rcases ss.mapM SetMember.ofSymbol? with _ | _ | ⟨m, members⟩
  · exact outline_outline g
  · exact outline_outline g
  · rw [withSet, withSet, looked]
    split
    · exact outline_outline g
    · exact congrArg (·.pushSet (sortByRank (·.toUsage.rank) (m :: members))) (outline_outline g)

end Build

/-- A step looks at no more than the outline, whatever penalty it sets. -/
theorem Call.outline_after (c : Call) (g : Grammar) : (c.unpriced.after g.outline).outline = (c.after g).outline := by
  rw [Call.after_eq, Call.after_eq]
  cases c with
  | setRulePenalty r penalty => exact Build.outline_setRulePenalty g r penalty
  | addProduction r ss => exact Build.outline_addProduction g r ss
  | setStart r => exact Build.outline_setStart g r
  | anonymousRule =>
    change (g.outline.push { defined := true }).outline = (g.push { defined := true }).outline
    rw [outline_push_rule _ rfl, outline_push_rule _ rfl, outline_outline]
  | analyze =>
    change g.outline.reanalyze.outline = g.reanalyze.outline
    rw [outline_reanalyze, outline_reanalyze, outline_outline]
  | setUserData key data =>
    exact congrArg (fun g : Grammar => { g with userData := g.userData.insert key data }) (outline_outline g)
  | _ =>
    simp only [Call.unpriced, Call.perform, Build.after_discard]
    first
      | exact Build.outline_terminal g _
      | exact Build.outline_rule g _
      | exact Build.outline_defineRule g _
      | exact Build.outline_group g _ _ _
      | exact Build.outline_set g _

/-- Other prices leave the outline as it is. -/
theorem Repriced.outline_eq {g g' : Grammar} (h : Repriced g g') : g.outline = g'.outline := by
  induction h with
  | empty => rfl
  | @step g g' _ c c' same ih => rw [← c.outline_after, ← c'.outline_after, ih, same]

namespace Grammar

variable {g g' : Grammar}

theorem accepts_of_outline_eq (same : g.outline = g'.outline) (u : Usage) (t : Token) :
    g.accepts u t = g'.accepts u t :=
  accepts_congr (congrArg Grammar.sets same) u t

/-- What derives tokens derives them at other prices, at some penalty. -/
theorem Derives.reprice (same : g.outline = g'.outline) {ss : List Symbol} {ts : List Token} {p : Penalty}
    (h : g.Derives ss ts p) : ∃ q, g'.Derives ss ts q := by
  induction h with
  | nil => exact ⟨0, .nil⟩
  | empty _ ih =>
    obtain ⟨q, rest⟩ := ih
    exact ⟨q, .empty rest⟩
  | usage accepted _ ih =>
    obtain ⟨q, rest⟩ := ih
    exact ⟨q, .usage (accepts_of_outline_eq same _ _ ▸ accepted) rest⟩
  | rule known chosen _ _ inner rest =>
    obtain ⟨d', known', equal⟩ := outline_rule same known
    obtain ⟨c, inner⟩ := inner
    obtain ⟨q, rest⟩ := rest
    exact ⟨_, .rule known' (RuleDef.productions_of_outline equal ▸ chosen) inner rest⟩
  | bare known childless _ ih =>
    obtain ⟨d', known', equal⟩ := outline_rule same known
    obtain ⟨q, rest⟩ := ih
    exact ⟨_, .bare known' (RuleDef.productions_of_outline equal ▸ childless) rest⟩
  | group known admitted _ _ inner rest =>
    obtain ⟨d', known', equal⟩ := outline_group same known
    obtain ⟨c, inner⟩ := inner
    obtain ⟨q, rest⟩ := rest
    have kept := GroupDef.matches_of_content equal
    have admitted := (GroupDef.admits_congr kept.min kept.max _).mp admitted
    exact ⟨_, .group known' admitted (kept.production ▸ inner) rest⟩

/-- Whether symbols derive nothing does not depend on prices. -/
theorem Analyzed.isSome_nullCost_eq (h : g.Analyzed) (h' : g'.Analyzed) (same : g.outline = g'.outline)
    (ss : List Symbol) :
    (g.toTables.nullCost.production ss).isSome = (g'.toTables.nullCost.production ss).isSome := by
  rw [Bool.eq_iff_iff, h.isSome_production_iff, h'.isSome_production_iff]
  constructor
  · rintro ⟨p, derived⟩
    exact derived.reprice same
  · rintro ⟨p, derived⟩
    exact derived.reprice same.symm

theorem unpricedCost_congr {a b : Option Penalty} (same : a.isSome = b.isSome) : unpricedCost a = unpricedCost b := by
  cases a <;> cases b <;> simp_all [unpricedCost]

theorem rule_unpriced_congr {d d' : RuleDef} (same : d.outline = d'.outline) (flag : d.nullable = d'.nullable)
    (cost : d.nullPenalty.isSome = d'.nullPenalty.isSome) : d.unpriced = d'.unpriced := by
  have costs := unpricedCost_congr cost
  simp only [RuleDef.outline, RuleDef.mk.injEq] at same
  simp only [RuleDef.unpriced, RuleDef.mk.injEq]
  tauto

theorem group_unpriced_congr {d d' : GroupDef} (same : d.content = d'.content) (flag : d.nullable = d'.nullable)
    (cost : d.nullPenalty.isSome = d'.nullPenalty.isSome) (one : d.productionNullable = d'.productionNullable) :
    d.unpriced = d'.unpriced := by
  have costs := unpricedCost_congr cost
  simp only [GroupDef.content, GroupDef.mk.injEq] at same
  simp only [GroupDef.unpriced, GroupDef.mk.injEq]
  tauto

end Grammar

/-- Grammars that were built at different prices differ in nothing but their numbers: they agree which rules and
groups derive nothing. -/
theorem Repriced.unpriced_eq {g g' : Grammar} (h : Repriced g g') : g.unpriced = g'.unpriced := by
  have same := h.outline_eq
  obtain ⟨reached, reached'⟩ := h.reachable
  have costs := reached.analyzed.isSome_nullCost_eq reached'.analyzed same
  have rules : g.rules.map RuleDef.unpriced = g'.rules.map RuleDef.unpriced := by
    refine Array.ext_getElem? fun i => ?_
    have entries := congrArg (·.rules[i]?) same
    simp only [outline, Array.getElem?_map] at entries ⊢
    cases known : g.rules[i]? with
    | none => simp_all
    | some d =>
      obtain ⟨d', known', equal⟩ := outline_rule (r := ⟨i⟩) same known
      have cost := costs [.rule ⟨i⟩]
      simp only [NullCost.production_singleton, NullCost.symbol, nullCost_rule known, nullCost_rule known'] at cost
      have flag : d.nullable = d'.nullable := by
        rw [reached.flagged.rule (r := ⟨i⟩) known, reached'.flagged.rule known', cost]
      rw [show g'.rules[i]? = some d' from known', Option.map_some, Option.map_some]
      exact congrArg some (rule_unpriced_congr equal flag cost)
  have groups : g.groups.map GroupDef.unpriced = g'.groups.map GroupDef.unpriced := by
    refine Array.ext_getElem? fun i => ?_
    have entries := congrArg (·.groups[i]?) same
    simp only [outline, Array.getElem?_map] at entries ⊢
    cases known : g.groups[i]? with
    | none => simp_all
    | some d =>
      obtain ⟨d', known', equal⟩ := outline_group (k := ⟨i⟩) same known
      have cost := costs [.group ⟨i⟩]
      simp only [NullCost.production_singleton, NullCost.symbol, nullCost_group known, nullCost_group known'] at cost
      obtain ⟨flag, one⟩ := reached.flagged.group (k := ⟨i⟩) known
      obtain ⟨flag', one'⟩ := reached'.flagged.group known'
      have production : d'.production = d.production := (GroupDef.matches_of_content equal.symm).production
      rw [show g'.groups[i]? = some d' from known', Option.map_some, Option.map_some]
      refine congrArg some (group_unpriced_congr equal (by rw [flag, flag', cost]) cost ?_)
      rw [one, one', production, costs]
  have rest := same
  simp only [outline, Grammar.mk.injEq] at rest
  simp only [unpriced, rules, groups, rest]

end Earley
