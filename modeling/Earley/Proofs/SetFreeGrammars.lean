import Earley.Grammar.Choices
import Earley.Proofs.Interning

/-!
# Grammars without sets

For every strict grammar that an author can build there is one that an author can build with rules in place of the sets
(`Reachable.exists_setsReplaced`). It is built along with the other: where that gets a set, it gets a rule, to which a
production is added for each member.
-/

namespace Earley

namespace Grammar

structure Extends (r : RuleId) (ps : List Production) (h h' : Grammar) : Prop where
  rule : ∀ {r' d}, h.rule? r' = some d → ∃ d', h'.rule? r' = some d' ∧
    d'.productions = if r' = r then d.productions ++ ps else d.productions
  group : ∀ {k d}, h.group? k = some d → ∃ d', h'.group? k = some d' ∧ d'.production = d.production ∧
    d'.min = d.min ∧ d'.max = d.max
  groups : h'.groups.size = h.groups.size
  start : h'.start = h.start
  tolerant : h'.tolerant = h.tolerant

variable {rename rename' : RuleId → RuleId} {choice choice' : SetId → RuleId} {g g' h h' h'' : Grammar}

theorem Extends.refl (r : RuleId) (h : Grammar) : Extends r [] h h where
  rule known := ⟨_, known, by simp⟩
  group known := ⟨_, known, rfl, rfl, rfl⟩
  groups := rfl
  start := rfl
  tolerant := rfl

theorem Extends.trans {r : RuleId} {ps qs : List Production} (first : Extends r ps h h')
    (second : Extends r qs h' h'') : Extends r (ps ++ qs) h h'' where
  rule {r' d} known := by
    obtain ⟨d', known', more⟩ := first.rule known
    obtain ⟨d'', known'', more'⟩ := second.rule known'
    refine ⟨d'', known'', more'.trans ?_⟩
    rw [more]
    split
    · rw [List.append_assoc]
    · rfl
  group known := by
    obtain ⟨d', known', production, least, most⟩ := first.group known
    obtain ⟨d'', known'', production', least', most'⟩ := second.group known'
    exact ⟨d'', known'', production'.trans production, least'.trans least, most'.trans most⟩
  groups := second.groups.trans first.groups
  start := second.start.trans first.start
  tolerant := second.tolerant.trans first.tolerant

theorem extends_addProduction {r : RuleId} {ss : List Symbol} (strict : h.tolerant = false)
    (known : r.index < h.rules.size) (scope : ∀ x ∈ ss, x.InScope h.rules.size h.groups.size h.sets.size) :
    Extends r [ss] h ((Call.addProduction r ss).after h) := by
  rw [Call.after_eq, Call.perform]
  obtain ⟨-, -, p, h', stored, added⟩ := (Build.after_addProduction r ss h).resolve_right fun no => no.1 ⟨known, scope⟩
  obtain ⟨rfl, rfl⟩ := stored_strict stored strict
  rw [added]
  have analyzed := within_reanalyze (h'.mapRule r fun d => { d with productions := d.productions ++ [p] })
  refine ⟨fun {r' d} found => ?_, fun found => analyzed.group found, by simp [mapRule], rfl, rfl⟩
  by_cases here : r' = r
  · subst here
    obtain ⟨d', found', productions, -⟩ := analyzed.rule (r := r') (d := { d with productions := d.productions ++ [p] })
      (by rw [rule?_mapRule, if_pos rfl, found, Option.map_some])
    exact ⟨d', found', productions.trans (if_pos rfl).symm⟩
  · have differ : r.index ≠ r'.index := fun same => here (by cases r; cases r'; exact congrArg RuleId.mk same.symm)
    obtain ⟨d', found', productions, -⟩ := analyzed.rule (r := r') (d := d)
      (by rw [rule?_mapRule, if_neg differ, found])
    exact ⟨d', found', productions.trans (if_neg here).symm⟩

/-- A rule can be given a production for each of some members. -/
theorem exists_extends_members {r : RuleId} (reachable : Reachable h) (strict : h.tolerant = false)
    (known : r.index < h.rules.size) (members : List SetMember) :
    ∃ h', Reachable h' ∧ Extends r (members.map fun m => [.usage m.toUsage]) h h' := by
  induction members generalizing h with
  | nil => exact ⟨h, reachable, .refl r h⟩
  | cons m members ih =>
    have scope : ∀ x ∈ [Symbol.usage m.toUsage], x.InScope h.rules.size h.groups.size h.sets.size := by
      intro x member
      rw [List.mem_singleton.mp member]
      cases m <;> trivial
    have one := extends_addProduction strict known scope
    have known' : r.index < ((Call.addProduction r [.usage m.toUsage]).after h).rules.size := by
      obtain ⟨d, found⟩ := rule?_of_lt known
      obtain ⟨d', found', -⟩ := one.rule found
      exact lt_size_of_rule? found'
    obtain ⟨h', reached, others⟩ := ih (reachable.step _) (one.tolerant.trans strict) known'
    exact ⟨h', reached, one.trans others⟩

/-- A grammar that is built along with another, with rules in place of its sets. No two rules or sets share a rule. -/
structure Unfolds (rename : RuleId → RuleId) (choice : SetId → RuleId) (g h : Grammar) : Prop
    extends SetsReplaced rename choice g h where
  reachable : Reachable h
  strict : h.tolerant = false
  groups : h.groups.size = g.groups.size
  apart : ∀ {r r'}, r.index < g.rules.size → r'.index < g.rules.size → rename r = rename r' → r = r'
  aside : ∀ {r s}, r.index < g.rules.size → s.index < g.sets.size → rename r ≠ choice s

namespace Unfolds

theorem rename_lt (h' : Unfolds rename choice g h) {r : RuleId} (known : r.index < g.rules.size) :
    (rename r).index < h.rules.size := by
  obtain ⟨d, found⟩ := rule?_of_lt known
  obtain ⟨d', found', -⟩ := h'.rule found
  exact lt_size_of_rule? found'

theorem choice_lt (h' : Unfolds rename choice g h) {s : SetId} (known : s.index < g.sets.size) :
    (choice s).index < h.rules.size := by
  obtain ⟨d', found, -⟩ := h'.set (s := s) (Array.getElem?_eq_getElem known)
  exact lt_size_of_rule? found

theorem scope (h' : Unfolds rename choice g h) {ss : List Symbol}
    (scope : ∀ x ∈ ss, x.InScope g.rules.size g.groups.size g.sets.size) :
    ∀ x ∈ ss.map (Symbol.withoutSets rename choice), x.InScope h.rules.size h.groups.size h.sets.size := by
  rw [List.forall_mem_map]
  intro x member
  have inside := scope x member
  unfold Symbol.withoutSets
  split
  case h_1 r => exact h'.rename_lt inside
  case h_2 s => exact h'.choice_lt inside
  case h_3 notRule notSet =>
    cases x with
    | empty => trivial
    | rule r => exact absurd rfl (notRule r)
    | group k => exact h'.groups ▸ inside
    | usage u =>
      cases u with
      | set s => exact absurd rfl (notSet s)
      | _ => trivial

end Unfolds

theorem map_withoutSets_congr {ss : List Symbol} {groups : Nat}
    (scope : ∀ x ∈ ss, x.InScope g.rules.size groups g.sets.size)
    (rules : ∀ r, r.index < g.rules.size → rename' r = rename r)
    (sets : ∀ s, s.index < g.sets.size → choice' s = choice s) :
    ss.map (Symbol.withoutSets rename' choice') = ss.map (Symbol.withoutSets rename choice) := by
  refine List.map_congr_left fun x member => ?_
  have inside := scope x member
  cases x with
  | rule r => exact congrArg Symbol.rule (rules r inside)
  | empty => rfl
  | group k => rfl
  | usage u =>
    cases u with
    | set s => exact congrArg Symbol.rule (sets s inside)
    | _ => rfl

namespace SetsReplaced

/-- What identifiers outside the tables are renamed to makes no difference. -/
theorem congr (replaced : SetsReplaced rename choice g h) (inScope : g.Scoped)
    (rules : ∀ r, r.index < g.rules.size → rename' r = rename r)
    (sets : ∀ s, s.index < g.sets.size → choice' s = choice s) : SetsReplaced rename' choice' g h where
  rule {r d} known := by
    obtain ⟨d', found, productions⟩ := replaced.rule known
    rw [rules r (lt_size_of_rule? known)]
    refine ⟨d', found, productions.trans (List.map_congr_left fun p chosen => ?_)⟩
    exact (map_withoutSets_congr (fun x member => inScope.rule known chosen member) rules sets).symm
  set {s members} known := by
    rw [sets s (Array.getElem?_eq_some_iff.mp known).1]
    exact replaced.set known
  group known := by
    obtain ⟨d', found, least, most, production⟩ := replaced.group known
    refine ⟨d', found, least, most, production.trans ?_⟩
    exact (map_withoutSets_congr (fun x member => inScope.group known member) rules sets).symm
  start := by
    rw [replaced.start]
    exact Option.map_congr fun r begins => (rules r (inScope.start begins)).symm

/-- Productions may be added to rules that stand for nothing. -/
theorem extended {r : RuleId} {ps : List Production} (replaced : SetsReplaced rename choice g h)
    (more : Extends r ps h h') (rules : ∀ r', r'.index < g.rules.size → rename r' ≠ r)
    (sets : ∀ s, s.index < g.sets.size → choice s ≠ r) : SetsReplaced rename choice g h' where
  rule {r' d} known := by
    obtain ⟨d', found, productions⟩ := replaced.rule known
    obtain ⟨d'', found', kept⟩ := more.rule found
    rw [if_neg (rules r' (lt_size_of_rule? known))] at kept
    exact ⟨d'', found', kept.trans productions⟩
  set {s members} known := by
    obtain ⟨d', found, productions⟩ := replaced.set known
    obtain ⟨d'', found', kept⟩ := more.rule found
    rw [if_neg (sets s (Array.getElem?_eq_some_iff.mp known).1)] at kept
    exact ⟨d'', found', kept.trans productions⟩
  group known := by
    obtain ⟨d', found, least, most, production⟩ := replaced.group known
    obtain ⟨d'', found', production', least', most'⟩ := more.group found
    exact ⟨d'', found', least'.trans least, most'.trans most, production'.trans production⟩
  start := more.start.trans replaced.start

end SetsReplaced

theorem size_rules_mapRule (g : Grammar) (r : RuleId) (f : RuleDef → RuleDef) :
    (g.mapRule r f).rules.size = g.rules.size := by
  simp [mapRule]

theorem extends_push (h : Grammar) (d : RuleDef) (r : RuleId) :
    Extends r [] h (h.push d) where
  rule known := ⟨_, rule?_push_of_known known, by simp⟩
  group known := ⟨_, known, rfl, rfl, rfl⟩
  groups := rfl
  start := rfl
  tolerant := rfl

/-- A group can be added where its bounds are in order. -/
theorem exists_pushGroup {ss : List Symbol} {min max : UInt32} (reachable : Reachable h) (strict : h.tolerant = false)
    (bounds : max = 0 ∨ min.toNat ≤ max.toNat)
    (scope : ∀ x ∈ ss, x.InScope h.rules.size h.groups.size h.sets.size) :
    ∃ d : GroupDef, d.production = ss ∧ d.min = min ∧ d.max = max ∧
      Reachable (Grammar.reanalyze { h with groups := h.groups.push d }) := by
  have reached := reachable.step (.group ss min max)
  rw [Call.after_eq, Call.perform, Build.after_discard] at reached
  obtain ⟨-, -, p, h', stored, added⟩ := (Build.after_group ss min max h).resolve_right fun no => no.1 ⟨bounds, scope⟩
  obtain ⟨rfl, rfl⟩ := stored_strict stored strict
  rw [added] at reached
  exact ⟨_, rfl, rfl, rfl, reached⟩

namespace Unfolds

theorem reanalyze (unfolds : Unfolds rename choice g h) : Unfolds rename choice g.reanalyze h where
  rule known := by
    obtain ⟨d, known', same, -⟩ := (reanalyze_within g).rule known
    exact same ▸ unfolds.rule known'
  set known := unfolds.set known
  group known := by
    obtain ⟨d, known', production, least, most⟩ := (reanalyze_within g).group known
    exact production ▸ least ▸ most ▸ unfolds.group known'
  start := unfolds.start
  reachable := unfolds.reachable
  strict := unfolds.strict
  groups := by rw [size_groups_reanalyze, unfolds.groups]
  apart := by rw [size_rules_reanalyze]; exact unfolds.apart
  aside := by rw [size_rules_reanalyze]; exact unfolds.aside

theorem mapRule (unfolds : Unfolds rename choice g h) (r : RuleId) {f : RuleDef → RuleDef}
    (kept : ∀ d, (f d).productions = d.productions) : Unfolds rename choice (g.mapRule r f) h where
  rule known := by
    rcases rule?_mapRule_cases known with ⟨rfl, d, known', rfl⟩ | ⟨-, known'⟩
    · exact kept d ▸ unfolds.rule known'
    · exact unfolds.rule known'
  set known := unfolds.set known
  group known := unfolds.group known
  start := unfolds.start
  reachable := unfolds.reachable
  strict := unfolds.strict
  groups := unfolds.groups
  apart := by rw [size_rules_mapRule]; exact unfolds.apart
  aside := by rw [size_rules_mapRule]; exact unfolds.aside

/-- A production is added on both sides. -/
theorem addProduction (unfolds : Unfolds rename choice g h) {r : RuleId} {ss : List Symbol}
    (known : r.index < g.rules.size) (scope : ∀ x ∈ ss, x.InScope g.rules.size g.groups.size g.sets.size) :
    ∃ h', Unfolds rename choice (g.mapRule r fun d => { d with productions := d.productions ++ [ss] }) h' := by
  have more := extends_addProduction unfolds.strict (unfolds.rename_lt known) (unfolds.scope scope)
  refine ⟨_, ⟨⟨fun {r' d} known' => ?_, fun {s members} known' => ?_, fun known' => ?_, ?_⟩, unfolds.reachable.step _,
    more.tolerant.trans unfolds.strict, more.groups.trans unfolds.groups, ?_, ?_⟩⟩
  · rcases rule?_mapRule_cases known' with ⟨rfl, e, old, rfl⟩ | ⟨differ, known'⟩
    · obtain ⟨d', found, productions⟩ := unfolds.rule old
      obtain ⟨d'', found', added⟩ := more.rule found
      exact ⟨d'', found', by rw [added, if_pos rfl, productions, List.map_append]; rfl⟩
    · obtain ⟨d', found, productions⟩ := unfolds.rule known'
      obtain ⟨d'', found', kept⟩ := more.rule found
      have other : rename r' ≠ rename r := fun same =>
        differ (congrArg RuleId.index (unfolds.apart (lt_size_of_rule? known') known same).symm)
      exact ⟨d'', found', by rw [kept, if_neg other, productions]⟩
  · obtain ⟨d', found, productions⟩ := unfolds.set known'
    obtain ⟨d'', found', kept⟩ := more.rule found
    have other : choice s ≠ rename r := (unfolds.aside known (Array.getElem?_eq_some_iff.mp known').1).symm
    exact ⟨d'', found', by rw [kept, if_neg other, productions]⟩
  · obtain ⟨d', found, least, most, production⟩ := unfolds.group known'
    obtain ⟨d'', found', production', least', most'⟩ := more.group found
    exact ⟨d'', found', least'.trans least, most'.trans most, production'.trans production⟩
  · exact more.start.trans unfolds.start
  · rw [size_rules_mapRule]
    exact unfolds.apart
  · rw [size_rules_mapRule]
    exact unfolds.aside

/-- A group is added on both sides. -/
theorem pushGroup (unfolds : Unfolds rename choice g h) {ss : List Symbol} {d : GroupDef}
    (scope : ∀ x ∈ ss, x.InScope g.rules.size g.groups.size g.sets.size) (production : d.production = ss)
    (feasible : d.Admits d.min.toNat) :
    ∃ h', Unfolds rename choice { g with groups := g.groups.push d } h' := by
  have bounds : d.max = 0 ∨ d.min.toNat ≤ d.max.toNat := by simpa [GroupDef.isUnbounded] using feasible.2
  obtain ⟨e, production', least, most, reached⟩ :=
    exists_pushGroup unfolds.reachable unfolds.strict bounds (unfolds.scope scope)
  have kept := within_reanalyze { h with groups := h.groups.push e }
  refine ⟨Grammar.reanalyze { h with groups := h.groups.push e }, ⟨fun known => ?_, fun known => ?_,
    fun {k d'} known => ?_, unfolds.start⟩, reached, unfolds.strict, ?_, unfolds.apart, unfolds.aside⟩
  · obtain ⟨e', found, productions⟩ := unfolds.rule known
    obtain ⟨e'', found', same, -⟩ := kept.rule found
    exact ⟨e'', found', same.trans productions⟩
  · obtain ⟨e', found, productions⟩ := unfolds.set known
    obtain ⟨e'', found', same, -⟩ := kept.rule found
    exact ⟨e'', found', same.trans productions⟩
  · have both : ∃ e', Grammar.group? { h with groups := h.groups.push e } k = some e' ∧ e'.min = d'.min ∧
        e'.max = d'.max ∧ e'.production = d'.production.map (Symbol.withoutSets rename choice) := by
      simp only [group?, Array.getElem?_push, unfolds.groups] at known ⊢
      split at known
      case isTrue last =>
        cases known
        exact ⟨e, if_pos last, least, most, production ▸ production'⟩
      case isFalse before =>
        rw [if_neg before]
        exact unfolds.group known
    obtain ⟨e', found, least, most, production⟩ := both
    obtain ⟨e'', found', production', least', most'⟩ := kept.group found
    exact ⟨e'', found', least'.trans least, most'.trans most, production'.trans production⟩
  · simp [unfolds.groups]

/-- A rule that is made has an identifier that stands for nothing yet. -/
theorem fresh (unfolds : Unfolds rename choice g h) :
    (∀ r, r.index < g.rules.size → rename r ≠ ⟨h.rules.size⟩) ∧
      ∀ s, s.index < g.sets.size → choice s ≠ ⟨h.rules.size⟩ :=
  ⟨fun _ known same => Nat.ne_of_lt (unfolds.rename_lt known) (congrArg RuleId.index same),
    fun _ known same => Nat.ne_of_lt (unfolds.choice_lt known) (congrArg RuleId.index same)⟩

/-- A rule is made on both sides. -/
theorem pushRule (unfolds : Unfolds rename choice g h) (inScope : g.Scoped) {d : RuleDef} (blank : d.IsBlank) :
    ∃ rename' h', Unfolds rename' choice (g.push d) h' := by
  let rename' (r : RuleId) : RuleId := if r.index = g.rules.size then ⟨h.rules.size⟩ else rename r
  obtain ⟨fresh, fresh'⟩ := unfolds.fresh
  have old (r : RuleId) (known : r.index < g.rules.size) : rename' r = rename r := if_neg (Nat.ne_of_lt known)
  have replaced := (unfolds.congr inScope old fun _ _ => rfl).extended (extends_push h { defined := true } _)
    (fun r known => old r known ▸ fresh r known) fresh'
  have inside (r : RuleId) (known : r.index < (g.rules.push d).size) :
      r.index < g.rules.size ∧ rename' r = rename r ∨ r = ⟨g.rules.size⟩ ∧ rename' r = ⟨h.rules.size⟩ := by
    rw [Array.size_push] at known
    rcases Nat.lt_succ_iff_lt_or_eq.mp known with before | last
    · exact .inl ⟨before, old r before⟩
    · exact .inr ⟨by cases r; exact congrArg RuleId.mk last, if_pos last⟩
  refine ⟨rename', Call.anonymousRule.after h, ⟨fun {r e} known => ?_, replaced.set, replaced.group, replaced.start⟩,
    unfolds.reachable.step _, unfolds.strict, unfolds.groups, fun {r r'} known known' same => ?_,
    fun {r s} known known' => ?_⟩
  · rw [rule?_push] at known
    split at known
    case isTrue last =>
      cases known
      refine ⟨{ defined := true }, ?_, by simp [blank.childless]⟩
      rw [show rename' r = ⟨h.rules.size⟩ from if_pos last]
      exact (rule?_push ..).trans (if_pos rfl)
    case isFalse => exact replaced.rule known
  · rcases inside r known with ⟨before, here⟩ | ⟨rfl, here⟩ <;>
      rcases inside r' known' with ⟨before', here'⟩ | ⟨rfl, here'⟩
    · exact unfolds.apart before before' (here.symm.trans (same.trans here'))
    · exact absurd (here.symm.trans (same.trans here')) (fresh r before)
    · exact absurd (here'.symm.trans (same.symm.trans here)) (fresh r' before')
    · rfl
  · rcases inside r known with ⟨before, here⟩ | ⟨rfl, here⟩
    · exact here ▸ unfolds.aside before known'
    · exact here ▸ (fresh' s known').symm

/-- A rule is made where a set is. -/
theorem pushSet (unfolds : Unfolds rename choice g h) (inScope : g.Scoped) (content : List SetMember) :
    ∃ choice' h', Unfolds rename choice' (g.pushSet content) h' := by
  let choice' (s : SetId) : RuleId := if s.index = g.sets.size then ⟨h.rules.size⟩ else choice s
  obtain ⟨fresh, fresh'⟩ := unfolds.fresh
  have old (s : SetId) (known : s.index < g.sets.size) : choice' s = choice s := if_neg (Nat.ne_of_lt known)
  have made := extends_push h { defined := true } ⟨h.rules.size⟩
  obtain ⟨h', reached, filled⟩ := exists_extends_members (r := ⟨h.rules.size⟩) (unfolds.reachable.step .anonymousRule)
    unfolds.strict (Nat.lt_of_lt_of_eq (Nat.lt_succ_self _) (Array.size_push _).symm) content
  have replaced := (unfolds.congr inScope (fun _ _ => rfl) old).extended (made.trans filled) fresh
    fun s known => old s known ▸ fresh' s known
  have inside (s : SetId) (known : s.index < (g.sets.push content).size) :
      s.index < g.sets.size ∧ choice' s = choice s ∨ choice' s = ⟨h.rules.size⟩ := by
    rw [Array.size_push] at known
    rcases Nat.lt_succ_iff_lt_or_eq.mp known with before | last
    · exact .inl ⟨before, old s before⟩
    · exact .inr (if_pos last)
  refine ⟨choice', h', ⟨replaced.rule, fun {s members} known => ?_, replaced.group, replaced.start⟩, reached,
    filled.tolerant.trans unfolds.strict, filled.groups.trans unfolds.groups, unfolds.apart,
    fun {r s} known known' => ?_⟩
  · rw [set?_pushSet] at known
    split at known
    case isTrue last =>
      cases last
      cases known
      have blank : Grammar.rule? (Call.anonymousRule.after h) ⟨h.rules.size⟩ = some { defined := true } :=
        (rule?_push ..).trans (if_pos rfl)
      obtain ⟨d, found, productions⟩ := filled.rule blank
      rw [show choice' ⟨g.sets.size⟩ = ⟨h.rules.size⟩ from if_pos rfl]
      exact ⟨d, found, productions.trans (if_pos rfl)⟩
    case isFalse => exact replaced.set known
  · rcases inside s known' with ⟨before, here⟩ | here
    · exact here ▸ unfolds.aside known before
    · exact here ▸ fresh r known

theorem setStart (unfolds : Unfolds rename choice g h) {r : RuleId} (known : r.index < g.rules.size) :
    ∃ h', Unfolds rename choice { g with start := some r } h' := by
  obtain ⟨-, set⟩ := (Build.after_setStart (rename r) h).resolve_right fun no => no.1 (unfolds.rename_lt known)
  have reached := unfolds.reachable.step (.setStart (rename r))
  rw [Call.after_eq, Call.perform, set] at reached
  exact ⟨{ h with start := some (rename r) }, ⟨unfolds.rule, unfolds.set, unfolds.group, rfl⟩, reached, unfolds.strict,
    unfolds.groups, unfolds.apart, unfolds.aside⟩

theorem change (unfolds : Unfolds rename choice g h) (strict : g.tolerant = false) (inScope : g.Scoped)
    (change : Change g g') : ∃ rename' choice' h', Unfolds rename' choice' g' h' := by
  induction change generalizing rename choice h with
  | none => exact ⟨_, _, _, unfolds⟩
  | both first second ih ih' =>
    obtain ⟨_, _, _, halfway⟩ := ih unfolds strict inScope
    exact ih' halfway (first.continues.tolerant.trans strict) (inScope.change first)
  | text given missing => exact ⟨_, _, h, ⟨unfolds.rule, unfolds.set, unfolds.group, unfolds.start⟩, unfolds.reachable,
      unfolds.strict, unfolds.groups, unfolds.apart, unfolds.aside⟩
  | userData data => exact ⟨_, _, h, ⟨unfolds.rule, unfolds.set, unfolds.group, unfolds.start⟩, unfolds.reachable,
      unfolds.strict, unfolds.groups, unfolds.apart, unfolds.aside⟩
  | start known => exact ⟨_, _, unfolds.setStart known⟩
  | set filled missing =>
    obtain ⟨_, _, unfolds⟩ := unfolds.pushSet inScope _
    exact ⟨_, _, _, unfolds⟩
  | define r => exact ⟨_, _, _, unfolds.mapRule r fun _ => rfl⟩
  | rule blank missing =>
    obtain ⟨_, _, unfolds⟩ := unfolds.pushRule inScope blank
    exact ⟨_, _, _, unfolds⟩
  | production known scope stored =>
    obtain ⟨rfl, rfl⟩ := stored_strict stored strict
    obtain ⟨_, unfolds⟩ := unfolds.addProduction known scope
    exact ⟨_, _, _, unfolds.reanalyze⟩
  | penalty r penalty =>
    exact ⟨_, _, _, (unfolds.mapRule r (f := fun d => { d with penalty := penalty }) fun _ => rfl).reanalyze⟩
  | group scope stored feasible =>
    obtain ⟨production, rfl⟩ := stored_strict stored strict
    obtain ⟨_, unfolds⟩ := unfolds.pushGroup scope production feasible
    exact ⟨_, _, _, unfolds.reanalyze⟩
  | analysis => exact ⟨_, _, _, unfolds.reanalyze⟩

end Unfolds

theorem map_withoutSets_of_none {ss : List Symbol} {rules groups : Nat} (scope : ∀ x ∈ ss, x.InScope rules groups 0) :
    ss.map (Symbol.withoutSets id choice) = ss := by
  refine (List.map_congr_left fun x member => ?_).trans (List.map_id ss)
  cases x with
  | usage u =>
    cases u with
    | set s => exact absurd (scope _ member) (Nat.not_lt_zero _)
    | _ => rfl
  | _ => rfl

/-- The empty grammar stands for itself, since it has no sets. -/
theorem empty_unfolds : Unfolds id (fun _ => skipRule) (empty false) (empty false) where
  rule known := by
    refine ⟨_, known, ((List.map_congr_left fun p chosen => ?_).trans (List.map_id _)).symm⟩
    exact map_withoutSets_of_none fun x member => (empty_scoped false).rule known chosen member
  set known := by simp [set?, empty, repairsOnly] at known
  group known := by
    have inside {x : Symbol} := (empty_scoped false).group (s := x) known
    exact ⟨_, known, rfl, rfl, (map_withoutSets_of_none fun _ => inside).symm⟩
  start := rfl
  reachable := .empty false
  strict := rfl
  groups := rfl
  apart := fun _ _ same => same
  aside := fun _ known => absurd known (Nat.not_lt_zero _)

end Grammar

open Grammar

/-- Every strict grammar that an author can build has one with rules in place of its sets. -/
theorem Reachable.exists_setsReplaced {g : Grammar} (reachable : Reachable g) (strict : g.tolerant = false) :
    ∃ rename choice h, Reachable h ∧ h.tolerant = false ∧ SetsReplaced rename choice g h := by
  suffices ∃ rename choice h, Unfolds rename choice g h by
    obtain ⟨rename, choice, h, unfolds⟩ := this
    exact ⟨rename, choice, h, unfolds.reachable, unfolds.strict, unfolds.toSetsReplaced⟩
  induction reachable with
  | empty tolerant =>
    cases strict
    exact ⟨_, _, _, empty_unfolds⟩
  | @step g c reached ih =>
    have before : g.tolerant = false := (c.change g).continues.tolerant.symm.trans strict
    obtain ⟨_, _, _, unfolds⟩ := ih before
    exact unfolds.change before reached.inScope (c.change g)

end Earley
