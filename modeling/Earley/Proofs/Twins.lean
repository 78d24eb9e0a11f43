import Earley.Proofs.Marks

/-!
# What twins have in common

The rules and groups of a strict grammar are those of its fault-tolerant twin with the wrappers undone
(`Twins.mirrors`). Refused calls are refused on both sides, and names refer to rules that correspond.
-/

namespace Earley

/-- What a stored production can hold: no bare usage, and no rule that repairs are made of. -/
def Symbol.Own : Symbol → Prop
  | .rule r => 2 ≤ r.index
  | .usage _ => False
  | _ => True

namespace Grammar

/-- What fault tolerance makes of the tables: usages stand in wrappers alone, and nothing but a wrapper refers to the
rules that repairs are made of. The penalties that authors gave their rules have the given property. -/
structure Wrapped (P : Penalty → Prop) (t : Grammar) : Prop where
  tolerant : t.tolerant = true
  skip : ∃ d, t.rule? skipRule = some d ∧ d.tolerantFor = none ∧ d.penalty = 1 ∧
    d.productions = [[.usage .any], [.rule skipRule, .usage .any]]
  assume : ∃ d, t.rule? assumeRule = some d ∧ d.tolerantFor = none ∧ d.penalty = 1 ∧ d.productions = [[.empty]]
  wrapper : ∀ {r d u}, t.rule? r = some d → d.tolerantFor = some u → d.internal = true ∧ d.penalty = 0 ∧
    d.productions = [[.usage u], [.rule skipRule, .usage u], [.rule assumeRule]]
  rule : ∀ {r d}, t.rule? r = some d → d.tolerantFor = none → 2 ≤ r.index →
    P d.penalty ∧ ∀ p ∈ d.productions, ∀ s ∈ p, s.Own
  group : ∀ {k d}, t.group? k = some d → ∀ s ∈ d.production, s.Own
  start : ∀ {r}, t.start = some r → 2 ≤ r.index ∧ t.wrappedUsage? r = none

/-- A strict grammar with the rules and groups of a fault-tolerant one, as their author wrote them. -/
structure Mirrors (P : Penalty → Prop) (s t : Grammar) : Prop where
  strict : s.tolerant = false
  wrapped : Wrapped P t
  size : s.rules.size = (t.strictId ⟨t.rules.size⟩).index
  rule : ∀ {r d}, t.rule? r = some d → d.tolerantFor = none → ∃ d', s.rule? (t.strictId r) = some d' ∧
    d'.penalty = d.penalty ∧ d'.productions = d.productions.map (·.map t.unwrap)
  named : ∀ name, s.ruleNamed? name = (t.ruleNamed? name).map t.strictId
  groups : s.groups.size = t.groups.size
  group : ∀ {k d}, t.group? k = some d → ∃ d', s.group? k = some d' ∧ d'.min = d.min ∧ d'.max = d.max ∧
    d'.production = d.production.map t.unwrap
  sets : s.sets = t.sets
  index : s.setIndex = t.setIndex
  start : s.start = t.start.map t.strictId

variable {P : Penalty → Prop} {s s' t t' : Grammar}

theorem Wrapped.alike (h : Wrapped P t) (same : Alike t t') : Wrapped P t' := by
  refine ⟨same.tolerant.trans h.tolerant, ?_, ?_, ?_, ?_, ?_, ?_⟩
  · obtain ⟨d, known, mark, cost, productions⟩ := h.skip
    obtain ⟨d', known', kept⟩ := same.rule known
    exact ⟨d', known', kept.mark.trans mark, kept.penalty.trans cost, kept.productions.trans productions⟩
  · obtain ⟨d, known, mark, cost, productions⟩ := h.assume
    obtain ⟨d', known', kept⟩ := same.rule known
    exact ⟨d', known', kept.mark.trans mark, kept.penalty.trans cost, kept.productions.trans productions⟩
  · intro r d' u known' mark
    obtain ⟨d, known, kept⟩ := same.symm.rule known'
    rw [← kept.internal, ← kept.penalty, ← kept.productions]
    exact h.wrapper known (kept.mark.trans mark)
  · intro r d' known' mark above
    obtain ⟨d, known, kept⟩ := same.symm.rule known'
    rw [← kept.penalty, ← kept.productions]
    exact h.rule known (kept.mark.trans mark) above
  · intro k d' known'
    obtain ⟨d, known, kept⟩ := same.symm.group known'
    rw [← kept.production]
    exact h.group known
  · intro r begins
    rw [wrappedUsage?_eq, same.marks, ← wrappedUsage?_eq]
    exact h.start (same.start ▸ begins)

theorem Mirrors.alike (h : Mirrors P s t) (left : Alike s s') (right : Alike t t') : Mirrors P s' t' := by
  have ids := strictId_congr right.marks
  have symbols := unwrap_congr right.marks
  refine ⟨left.tolerant.trans h.strict, h.wrapped.alike right, ?_, ?_, ?_, ?_, ?_, ?_, ?_, ?_⟩
  · rw [left.size, ids, right.size]
    exact h.size
  · intro r d' known' mark
    obtain ⟨d, known, kept⟩ := right.symm.rule known'
    obtain ⟨e, found, cost, productions⟩ := h.rule known (kept.mark.trans mark)
    obtain ⟨e', found', kept'⟩ := left.rule found
    rw [ids, symbols, ← kept.penalty, ← kept.productions]
    exact ⟨e', found', kept'.penalty.trans cost, kept'.productions.trans productions⟩
  · intro name
    rw [ruleNamed?, ruleNamed?, left.names, right.names, ids]
    exact h.named name
  · have sizes : s'.groups.size = s.groups.size := by simpa using congrArg Array.size left.groups
    have sizes' : t'.groups.size = t.groups.size := by simpa using congrArg Array.size right.groups
    rw [sizes, sizes', h.groups]
  · intro k d' known'
    obtain ⟨d, known, kept⟩ := right.symm.group known'
    obtain ⟨e, found, least, most, production⟩ := h.group known
    obtain ⟨e', found', kept'⟩ := left.group found
    rw [symbols, ← kept.min, ← kept.max, ← kept.production]
    exact ⟨e', found', kept'.min.trans least, kept'.max.trans most, kept'.production.trans production⟩
  · rw [left.sets, right.sets, h.sets]
  · rw [left.index, right.index, h.index]
  · rw [left.start, right.start, ids, h.start]

theorem Wrapped.push (h : Wrapped P t) (inScope : t.Scoped) {d : RuleDef}
    (new : (∃ u, d = t.wrapperDef u) ∨ d.tolerantFor = none ∧ P d.penalty ∧ d.productions = []) :
    Wrapped P (t.push d) := by
  refine ⟨h.tolerant, ?_, ?_, ?_, ?_, h.group, ?_⟩
  · obtain ⟨e, known, shape⟩ := h.skip
    exact ⟨e, rule?_push_of_known known, shape⟩
  · obtain ⟨e, known, shape⟩ := h.assume
    exact ⟨e, rule?_push_of_known known, shape⟩
  · intro r e u known mark
    rw [rule?_push] at known
    split at known
    · cases known
      rcases new with ⟨u', rfl⟩ | ⟨plain, -⟩
      · cases mark
        exact ⟨rfl, rfl, rfl⟩
      · rw [plain] at mark
        cases mark
    · exact h.wrapper known mark
  · intro r e known mark above
    rw [rule?_push] at known
    split at known
    · cases known
      rcases new with ⟨u', rfl⟩ | ⟨-, priced, childless⟩
      · cases mark
      · exact ⟨priced, by simp [childless]⟩
    · exact h.rule known mark above
  · intro r begins
    rw [(grown_push t d).wrappedUsage? (inScope.start begins)]
    exact h.start begins

/-- A rule keeps its strict counterpart as the table grows. -/
theorem Mirrors.rule_grown (h : Mirrors P s t) (inScope : t.Scoped) (grown : Grown t t') {r : RuleId} {d : RuleDef}
    (known : t.rule? r = some d) (plain : d.tolerantFor = none) :
    ∃ d', s.rule? (t'.strictId r) = some d' ∧ d'.penalty = d.penalty ∧
      d'.productions = d.productions.map (·.map t'.unwrap) := by
  obtain ⟨d', found, cost, productions⟩ := h.rule known plain
  rw [grown.strictId (Nat.le_of_lt (lt_size_of_rule? known))]
  refine ⟨d', found, cost, productions.trans (List.map_congr_left fun p chosen => ?_)⟩
  exact (map_unwrap_grown grown fun x member => held_of_inScope (inScope.rule known chosen member) (Nat.le_refl _)).symm

theorem Mirrors.group_grown (h : Mirrors P s t) (inScope : t.Scoped) (grown : Grown t t') {k : GroupId} {d : GroupDef}
    (known : t.group? k = some d) :
    ∃ d', s.group? k = some d' ∧ d'.min = d.min ∧ d'.max = d.max ∧ d'.production = d.production.map t'.unwrap := by
  obtain ⟨d', found, least, most, production⟩ := h.group known
  refine ⟨d', found, least, most, production.trans ?_⟩
  exact (map_unwrap_grown grown fun x member => held_of_inScope (inScope.group known member) (Nat.le_refl _)).symm

theorem Mirrors.start_grown (h : Mirrors P s t) (inScope : t.Scoped) (grown : Grown t t') :
    s.start = t.start.map t'.strictId := by
  rw [h.start]
  exact Option.map_congr fun _ begins => (grown.strictId (Nat.le_of_lt (inScope.start begins))).symm

/-- Making a wrapper changes nothing on the strict side. -/
theorem Mirrors.push_wrapper (h : Mirrors P s t) (inScope : t.Scoped) (u : Usage) :
    Mirrors P s (t.push (t.wrapperDef u)) := by
  have grown := grown_push t (t.wrapperDef u)
  refine ⟨h.strict, h.wrapped.push inScope (.inl ⟨u, rfl⟩), ?_, ?_, ?_, h.groups, ?_, h.sets, h.index, ?_⟩
  · rw [rules_push, Array.size_push, strictId_push_size, h.size]
    rfl
  · intro r d known plain
    rw [rule?_push] at known
    split at known
    · cases known
      cases plain
    · exact h.rule_grown inScope grown known plain
  · intro name
    have inner : (t.wrapperDef u).givenName ≠ some name := by rintro ⟨⟩
    rw [ruleNamed?_push, if_neg inner, map_strictId_grown grown inScope.indexed]
    exact h.named name
  · intro k d known
    exact h.group_grown inScope grown known
  · exact h.start_grown inScope grown

/-- A new rule on both sides. -/
theorem Mirrors.push_rule (h : Mirrors P s t) (inScope : t.Scoped) {d : RuleDef} (plain : d.tolerantFor = none)
    (priced : P d.penalty) (childless : d.productions = []) :
    Mirrors P (s.push d) (t.push d) := by
  have grown := grown_push t d
  have last : (t.push d).strictId ⟨t.rules.size⟩ = ⟨s.rules.size⟩ := by
    rw [h.size]
    exact grown.strictId (r := ⟨t.rules.size⟩) (Nat.le_refl _)
  refine ⟨h.strict, h.wrapped.push inScope (.inr ⟨plain, priced, childless⟩), ?_, ?_, ?_, h.groups, ?_, h.sets,
    h.index, ?_⟩
  · rw [rules_push, rules_push, Array.size_push, Array.size_push, strictId_push_size, h.size, plain]
    rfl
  · intro r e known mark
    rw [rule?_push] at known
    split at known
    case isTrue here =>
      cases known
      obtain rfl : r = ⟨t.rules.size⟩ := by cases r; simpa using here
      rw [last]
      exact ⟨d, by simp [rule?_push], rfl, by simp [childless]⟩
    case isFalse =>
      obtain ⟨d', found, shape⟩ := h.rule_grown inScope grown known mark
      exact ⟨d', rule?_push_of_known found, shape⟩
  · intro name
    rw [ruleNamed?_push, ruleNamed?_push, h.named, ← map_strictId_grown grown inScope.indexed]
    split
    · rw [Option.map_some, last]
    · rfl
  · intro k d known
    exact h.group_grown inScope grown known
  · exact h.start_grown inScope grown

/-- A rule that an author could name is known on both sides or on none. -/
theorem Mirrors.strictId_lt_size_iff (h : Mirrors P s t) {r : RuleId} (own : ¬ t.Synthesized r) :
    (t.strictId r).index < s.rules.size ↔ r.index < t.rules.size := by
  rw [h.size]
  constructor
  · intro less
    by_contra more
    have le : (t.strictId ⟨t.rules.size⟩).index ≤ (t.strictId r).index := unmarkedIndex_mono (Nat.le_of_not_lt more)
    exact absurd less (Nat.not_lt.mpr le)
  · intro less
    obtain ⟨d, known⟩ := rule?_of_lt less
    exact strictId_lt known (mark_none_of_own own known) less

theorem Mirrors.inScope_iff (h : Mirrors P s t) {x : Symbol} (own : ∀ r ∈ x.rules, ¬ t.Synthesized r) :
    (x.mapRule t.strictId).InScope s.rules.size s.groups.size s.sets.size ↔
      x.InScope t.rules.size t.groups.size t.sets.size := by
  cases x with
  | rule r => exact h.strictId_lt_size_iff (own r (by simp [Symbol.rules]))
  | empty => rfl
  | group k => simp only [Symbol.mapRule, Symbol.InScope, h.groups]
  | usage u =>
    rw [h.sets]
    cases u <;> rfl

theorem Mirrors.inScope_all_iff (h : Mirrors P s t) {ss : List Symbol}
    (own : ∀ r ∈ ss.flatMap Symbol.rules, ¬ t.Synthesized r) :
    (∀ x ∈ ss.map (·.mapRule t.strictId), x.InScope s.rules.size s.groups.size s.sets.size) ↔
      ∀ x ∈ ss, x.InScope t.rules.size t.groups.size t.sets.size := by
  rw [List.forall_mem_map]
  exact forall₂_congr fun x member =>
    h.inScope_iff fun r inside => own r (List.mem_flatMap.mpr ⟨x, member, inside⟩)

theorem Wrapped.two_le (h : Wrapped P t) {r : RuleId} {u : Usage} (wraps : t.wrappedUsage? r = some u) :
    2 ≤ r.index := by
  obtain ⟨d, known, mark⟩ := Option.bind_eq_some_iff.mp wraps
  obtain ⟨d₀, skip, plain, -⟩ := h.skip
  obtain ⟨d₁, assume, plain', -⟩ := h.assume
  obtain ⟨_ | _ | i⟩ := r
  · cases known.symm.trans skip
    rw [plain] at mark
    cases mark
  · cases known.symm.trans assume
    rw [plain'] at mark
    cases mark
  · exact Nat.le_add_left 2 i

/-- Storing symbols makes wrappers alone, and undoing them gives the symbols back. -/
theorem Mirrors.stored (h : Mirrors P s t) (inScope : t.Scoped) {ss : List Symbol} {p : Production}
    (stored : Build.Stored ss t p t') (scope : ∀ x ∈ ss, x.InScope t.rules.size t.groups.size t.sets.size)
    (own : ∀ r ∈ ss.flatMap Symbol.rules, ¬ t.Synthesized r) :
    Mirrors P s t' ∧ Grown t t' ∧ p.map t'.unwrap = ss.map (·.mapRule t.strictId) ∧ ∀ x ∈ p, x.Own := by
  induction stored with
  | nil => exact ⟨h, .refl _, rfl, by simp⟩
  | @plain x ss t t' p kept _ ih =>
    obtain ⟨here, others⟩ := List.forall_mem_cons.mp scope
    obtain ⟨mirrors, grown, same, clean⟩ := ih h inScope others fun r member => own r (by simp [member])
    have first : t'.unwrap x = x.mapRule t.strictId ∧ x.Own := by
      cases x with
      | usage u => exact absurd (kept u rfl) (by simp [h.wrapped.tolerant])
      | rule r =>
        have mine := own r (by simp [Symbol.rules])
        have bound : r.index < t.rules.size := here
        have plain : t'.wrappedUsage? r = none := by
          rw [grown.wrappedUsage? bound, wrappedUsage?_of_own mine]
        exact ⟨by simp only [unwrap, plain, grown.strictId (Nat.le_of_lt bound), Symbol.mapRule], two_le_of_own mine⟩
      | _ => exact ⟨rfl, trivial⟩
    exact ⟨mirrors, grown, by rw [List.map_cons, first.1, same, List.map_cons],
      List.forall_mem_cons.mpr ⟨first.2, clean⟩⟩
  | @found u r ss t t' p tolerant known _ ih =>
    obtain ⟨-, others⟩ := List.forall_mem_cons.mp scope
    obtain ⟨mirrors, grown, same, clean⟩ := ih h inScope others fun r member => own r (by simp [member])
    have wraps := inScope.indexed.wrapper.mp known
    have first : t'.unwrap (.rule r) = .usage u := by
      simp only [unwrap, grown.wrappedUsage? (inScope.indexed.lt_size_of_wrapper? known), wraps]
    exact ⟨mirrors, grown, by rw [List.map_cons, first, same, List.map_cons]; rfl,
      List.forall_mem_cons.mpr ⟨h.wrapped.two_le wraps, clean⟩⟩
  | @made u ss t t' p tolerant missing _ ih =>
    obtain ⟨here, others⟩ := List.forall_mem_cons.mp scope
    have pushed := grown_push t (t.wrapperDef u)
    have bound (r : RuleId) (member : r ∈ ss.flatMap Symbol.rules) : r.index < t.rules.size := by
      obtain ⟨x, inside, named⟩ := List.mem_flatMap.mp member
      exact held_of_inScope (others x inside) (Nat.le_refl _) r named
    obtain ⟨mirrors, grown, same, clean⟩ := ih (h.push_wrapper inScope u) (inScope.push_wrapper missing here)
      (fun x member => (others x member).mono (by simp) (Nat.le_refl _) (Nat.le_refl _)) fun r member => by
        rw [Synthesized, pushed.wrappedUsage? (bound r member)]
        exact own r (by simp [member])
    have new : (⟨t.rules.size⟩ : RuleId).index < (t.push (t.wrapperDef u)).rules.size := by simp
    have wraps : t'.wrappedUsage? ⟨t.rules.size⟩ = some u := by
      rw [grown.wrappedUsage? new]
      simp [wrappedUsage?, rule?_push, wrapperDef]
    have first : t'.unwrap (.rule ⟨t.rules.size⟩) = .usage u := by simp only [unwrap, wraps]
    refine ⟨mirrors, pushed.trans grown, ?_, List.forall_mem_cons.mpr ⟨mirrors.wrapped.two_le wraps, clean⟩⟩
    rw [List.map_cons, first, same, List.map_cons]
    congr 1
    exact List.map_congr_left fun x member => by
      cases x with
      | rule r =>
        rw [Symbol.mapRule, Symbol.mapRule, pushed.strictId (Nat.le_of_lt (bound r _))]
        exact List.mem_flatMap.mpr ⟨_, member, by simp [Symbol.rules]⟩
      | _ => rfl

/-- A change of a rule that keeps its mark and what its productions may hold. -/
structure Edits (P : Penalty → Prop) (f : RuleDef → RuleDef) : Prop where
  mark : ∀ d, (f d).tolerantFor = d.tolerantFor
  priced : ∀ {d}, P d.penalty → P (f d).penalty
  clean : ∀ {d}, (∀ p ∈ d.productions, ∀ x ∈ p, x.Own) → ∀ p ∈ (f d).productions, ∀ x ∈ p, x.Own

theorem Wrapped.mapRule (h : Wrapped P t) {r : RuleId} (own : ¬ t.Synthesized r) {f : RuleDef → RuleDef}
    (edits : Edits P f) : Wrapped P (t.mapRule r f) := by
  have apart {r' : RuleId} (first : r'.index < 2) : r.index ≠ r'.index := by
    have := two_le_of_own own
    omega
  refine ⟨h.tolerant, ?_, ?_, ?_, ?_, h.group, ?_⟩
  · obtain ⟨d, known, shape⟩ := h.skip
    exact ⟨d, by rw [rule?_mapRule, if_neg (apart (by decide)), known], shape⟩
  · obtain ⟨d, known, shape⟩ := h.assume
    exact ⟨d, by rw [rule?_mapRule, if_neg (apart (by decide)), known], shape⟩
  · intro r' d u known mark
    rcases rule?_mapRule_cases known with ⟨rfl, e, known', rfl⟩ | ⟨-, known'⟩
    · rw [edits.mark] at mark
      exact absurd ((mark_none_of_own own known').symm.trans mark) (by simp)
    · exact h.wrapper known' mark
  · intro r' d known plain above
    rcases rule?_mapRule_cases known with ⟨rfl, e, known', rfl⟩ | ⟨-, known'⟩
    · obtain ⟨priced, old⟩ := h.rule known' ((edits.mark e).symm.trans plain) above
      exact ⟨edits.priced priced, edits.clean old⟩
    · exact h.rule known' plain above
  · intro r' begins
    rw [wrappedUsage?_eq, marks_mapRule edits.mark, ← wrappedUsage?_eq]
    exact h.start begins

/-- The same change on both sides. -/
theorem Mirrors.mapRule (h : Mirrors P s t) {r : RuleId} (bound : r.index < t.rules.size) (own : ¬ t.Synthesized r)
    {f f' : RuleDef → RuleDef} (edits : Edits P f)
    (alike : ∀ {d d' : RuleDef}, d'.penalty = d.penalty → d'.productions = d.productions.map (·.map t.unwrap) →
      (f' d').penalty = (f d).penalty ∧ (f' d').productions = (f d).productions.map (·.map t.unwrap)) :
    Mirrors P (s.mapRule (t.strictId r) f') (t.mapRule r f) := by
  have marks : (t.mapRule r f).marks = t.marks := marks_mapRule edits.mark r
  have ids := strictId_congr marks
  have symbols := unwrap_congr marks
  obtain ⟨e, here⟩ := rule?_of_lt bound
  refine ⟨h.strict, h.wrapped.mapRule own edits, ?_, ?_, ?_, h.groups, ?_, h.sets, h.index, ?_⟩
  · rw [ids]
    simpa [Grammar.mapRule] using h.size
  · intro r' d known plain
    rw [ids, symbols]
    rcases rule?_mapRule_cases known with ⟨rfl, e, known', rfl⟩ | ⟨differ, known'⟩
    · obtain ⟨d', found, cost, productions⟩ := h.rule known' ((edits.mark e).symm.trans plain)
      exact ⟨f' d', by rw [rule?_mapRule, if_pos rfl, found, Option.map_some], alike cost productions⟩
    · obtain ⟨d', found, shape⟩ := h.rule known' plain
      refine ⟨d', ?_, shape⟩
      rw [rule?_mapRule, if_neg, found]
      intro same
      have equal : t.strictId r = t.strictId r' := congrArg RuleId.mk same
      exact differ (congrArg RuleId.index (strictId_injective here (mark_none_of_own own here) known' plain equal))
  · intro name
    rw [ids]
    exact h.named name
  · intro k d known
    rw [symbols]
    exact h.group known
  · rw [ids]
    exact h.start

/-- A production on the tolerant side, and what its author wrote on the strict one. -/
theorem Mirrors.addProduction (h : Mirrors P s t) {r : RuleId} (bound : r.index < t.rules.size)
    (own : ¬ t.Synthesized r) {p : Production} (clean : ∀ x ∈ p, x.Own) :
    Mirrors P (s.mapRule (t.strictId r) (.withProduction (p.map t.unwrap))) (t.mapRule r (.withProduction p)) := by
  have edits : Edits P (.withProduction p) := by
    refine ⟨fun _ => rfl, fun priced => priced, fun old q chosen => ?_⟩
    rcases List.mem_append.mp chosen with before | new
    · exact old q before
    · exact List.mem_singleton.mp new ▸ clean
  refine h.mapRule bound own edits fun cost productions => ⟨cost, ?_⟩
  simp [RuleDef.withProduction, productions]

/-- A group on the tolerant side, and what its author wrote on the strict one. -/
theorem Mirrors.push_group (h : Mirrors P s t) {d d' : GroupDef} (clean : ∀ x ∈ d.production, x.Own)
    (least : d'.min = d.min) (most : d'.max = d.max) (production : d'.production = d.production.map t.unwrap) :
    Mirrors P { s with groups := s.groups.push d' } { t with groups := t.groups.push d } := by
  have group?_push (g : Grammar) (e : GroupDef) (k : GroupId) :
      Grammar.group? { g with groups := g.groups.push e } k =
        if k.index = g.groups.size then some e else g.group? k := by
    simp [group?, Array.getElem?_push]
  refine ⟨h.strict, ⟨h.wrapped.tolerant, h.wrapped.skip, h.wrapped.assume, h.wrapped.wrapper, h.wrapped.rule, ?_,
    h.wrapped.start⟩, h.size, h.rule, h.named, by simp [h.groups], ?_, h.sets, h.index, h.start⟩
  · intro k e known
    rw [group?_push] at known
    split at known
    · cases known
      exact clean
    · exact h.wrapped.group known
  · intro k e known
    rw [group?_push] at known ⊢
    rw [h.groups]
    split at known
    case isTrue last =>
      cases known
      exact ⟨d', by rw [if_pos last], least, most, production⟩
    case isFalse before =>
      rw [if_neg before]
      exact h.group known

/-- The same set on both sides. -/
theorem Mirrors.pushSet (h : Mirrors P s t) (content : List SetMember) :
    Mirrors P (s.pushSet content) (t.pushSet content) := by
  refine ⟨h.strict, ⟨h.wrapped.tolerant, h.wrapped.skip, h.wrapped.assume, h.wrapped.wrapper, h.wrapped.rule,
    h.wrapped.group, h.wrapped.start⟩, h.size, h.rule, h.named, h.groups, h.group, ?_, ?_, h.start⟩
  · rw [Grammar.pushSet, Grammar.pushSet, h.sets]
  · rw [Grammar.pushSet, Grammar.pushSet, h.sets, h.index]

section Unwrap

variable {x : Symbol} {r : RuleId} {u : Usage} {k : GroupId}

theorem eq_empty_of_unwrap (same : t.unwrap x = .empty) : x = .empty := by
  cases x with
  | rule r =>
    simp only [unwrap] at same
    split at same <;> cases same
  | _ => exact same

theorem eq_group_of_unwrap (same : t.unwrap x = .group k) : x = .group k := by
  cases x with
  | rule r =>
    simp only [unwrap] at same
    split at same <;> cases same
  | _ => exact same

theorem exists_wrapper_of_unwrap (own : x.Own) (same : t.unwrap x = .usage u) :
    ∃ w, x = .rule w ∧ t.wrappedUsage? w = some u := by
  cases x with
  | rule w =>
    simp only [unwrap] at same
    split at same
    case h_1 u' wraps =>
      cases same
      exact ⟨w, rfl, wraps⟩
    case h_2 => cases same
  | usage u => exact own.elim
  | empty => cases same
  | group k => cases same

theorem exists_rule_of_unwrap (same : t.unwrap x = .rule r) :
    ∃ r', x = .rule r' ∧ t.wrappedUsage? r' = none ∧ t.strictId r' = r := by
  cases x with
  | rule r' =>
    simp only [unwrap] at same
    split at same
    case h_1 => cases same
    case h_2 plain =>
      cases same
      exact ⟨r', rfl, plain, rfl⟩
  | usage u => cases same
  | empty => cases same
  | group k => cases same

end Unwrap

/-- What a rule of the strict grammar is on the tolerant side. -/
theorem Mirrors.tolerant_rule (h : Mirrors P s t) {r : RuleId} {d' : RuleDef} (plain : t.wrappedUsage? r = none)
    (above : 2 ≤ r.index) (found : s.rule? (t.strictId r) = some d') :
    ∃ d, t.rule? r = some d ∧ d'.penalty = d.penalty ∧ P d.penalty ∧
      d'.productions = d.productions.map (·.map t.unwrap) ∧ ∀ p ∈ d.productions, ∀ x ∈ p, x.Own := by
  have own : ¬ t.Synthesized r := by
    rintro (rfl | rfl | wraps)
    · exact absurd above (by decide)
    · exact absurd above (by decide)
    · simp [plain] at wraps
  obtain ⟨d, known⟩ := rule?_of_lt ((h.strictId_lt_size_iff own).mp (lt_size_of_rule? found))
  have unmarked := mark_none_of_own own known
  obtain ⟨e, found', cost, productions⟩ := h.rule known unmarked
  cases found.symm.trans found'
  obtain ⟨priced, clean⟩ := h.wrapped.rule known unmarked above
  exact ⟨d, known, cost, priced, productions, clean⟩

theorem Mirrors.tolerant_group (h : Mirrors P s t) {k : GroupId} {d' : GroupDef} (found : s.group? k = some d') :
    ∃ d, t.group? k = some d ∧ d'.min = d.min ∧ d'.max = d.max ∧ d'.production = d.production.map t.unwrap ∧
      ∀ x ∈ d.production, x.Own := by
  have bound : k.index < t.groups.size := h.groups ▸ (Array.getElem?_eq_some_iff.mp found).1
  have known : t.group? k = some t.groups[k.index] := Array.getElem?_eq_getElem bound
  obtain ⟨e, found', least, most, production⟩ := h.group known
  cases found.symm.trans found'
  exact ⟨_, known, least, most, production, h.wrapped.group known⟩

theorem forall_mem_copies {Q : Symbol → Prop} {p : Production} (all : ∀ x ∈ p, Q x) (n : Nat) :
    ∀ x ∈ (List.replicate n p).flatten, Q x := by
  intro x member
  obtain ⟨q, copy, inside⟩ := List.mem_flatten.mp member
  exact all x ((List.mem_replicate.mp copy).2 ▸ inside)

theorem map_copies (f : Symbol → Symbol) (p : Production) (n : Nat) :
    (List.replicate n p).flatten.map f = (List.replicate n (p.map f)).flatten := by
  simp [List.map_flatten]

end Grammar

open Grammar

namespace Build

variable {P : Penalty → Prop} {s t : Grammar}

theorem mirrors_addProduction (h : Mirrors P s t) (inScope : t.Scoped) (r : RuleId) (ss : List Symbol)
    (own : ∀ r' ∈ r :: ss.flatMap Symbol.rules, ¬ t.Synthesized r') :
    Mirrors P (after (addProduction (t.strictId r) (ss.map (·.mapRule t.strictId))) s)
      (after (addProduction r ss) t) := by
  obtain ⟨mine, others⟩ := List.forall_mem_cons.mp own
  have tolerant := after_addProduction r ss t
  have strict := after_addProduction (t.strictId r) (ss.map (·.mapRule t.strictId)) s
  rw [h.strictId_lt_size_iff mine, h.inScope_all_iff others] at strict
  by_cases scope : r.index < t.rules.size ∧ ∀ x ∈ ss, x.InScope t.rules.size t.groups.size t.sets.size
  · obtain ⟨bound, inside, p, t', stored, added⟩ := tolerant.resolve_right fun no => no.1 scope
    obtain ⟨-, -, p', s', stored', added'⟩ := strict.resolve_right fun no => no.1 scope
    obtain ⟨rfl, rfl⟩ := stored_strict stored' h.strict
    obtain ⟨mirrors, grown, same, clean⟩ := h.stored inScope stored inside others
    have more : t.rules.size ≤ t'.rules.size := by
      obtain ⟨new, marks⟩ := grown.marks
      rw [← length_marks, ← length_marks, marks, List.length_append]
      exact Nat.le_add_right ..
    have mine' : ¬ t'.Synthesized r := by
      rw [Synthesized, grown.wrappedUsage? bound]
      exact mine
    rw [added, added', ← same, ← grown.strictId (Nat.le_of_lt bound)]
    exact (mirrors.addProduction (Nat.lt_of_lt_of_le bound more) mine' clean).alike (alike_reanalyze _)
      (alike_reanalyze _)
  · obtain ⟨-, same⟩ := tolerant.resolve_left fun yes => scope ⟨yes.1, yes.2.1⟩
    obtain ⟨-, same'⟩ := strict.resolve_left fun yes => scope ⟨yes.1, yes.2.1⟩
    rw [same, same']
    exact h

theorem mirrors_group (h : Mirrors P s t) (inScope : t.Scoped) (ss : List Symbol) (min max : UInt32)
    (own : ∀ r ∈ ss.flatMap Symbol.rules, ¬ t.Synthesized r) :
    Mirrors P (after (group (ss.map (·.mapRule t.strictId)) min max) s) (after (group ss min max) t) := by
  have tolerant := after_group ss min max t
  have strict := after_group (ss.map (·.mapRule t.strictId)) min max s
  rw [h.inScope_all_iff own] at strict
  by_cases scope : (max = 0 ∨ min.toNat ≤ max.toNat) ∧ ∀ x ∈ ss, x.InScope t.rules.size t.groups.size t.sets.size
  · obtain ⟨-, inside, p, t', stored, added⟩ := tolerant.resolve_right fun no => no.1 scope
    obtain ⟨-, -, p', s', stored', added'⟩ := strict.resolve_right fun no => no.1 scope
    obtain ⟨rfl, rfl⟩ := stored_strict stored' h.strict
    obtain ⟨mirrors, -, same, clean⟩ := h.stored inScope stored inside own
    rw [added, added']
    apply Mirrors.alike _ (alike_reanalyze _) (alike_reanalyze _)
    exact mirrors.push_group clean rfl rfl same.symm
  · obtain ⟨-, same⟩ := tolerant.resolve_left fun yes => scope ⟨yes.1, yes.2.1⟩
    obtain ⟨-, same'⟩ := strict.resolve_left fun yes => scope ⟨yes.1, yes.2.1⟩
    rw [same, same']
    exact h

theorem mirrors_setRulePenalty (h : Mirrors P s t) (r : RuleId) (own : ¬ t.Synthesized r) {penalty : Penalty}
    (priced : P penalty) :
    Mirrors P (after (setRulePenalty (t.strictId r) penalty) s) (after (setRulePenalty r penalty) t) := by
  have strict := after_setRulePenalty (t.strictId r) penalty s
  rw [h.strictId_lt_size_iff own] at strict
  rcases after_setRulePenalty r penalty t with ⟨bound, set⟩ | ⟨unknown, same⟩
  · obtain ⟨-, set'⟩ := strict.resolve_right fun no => no.1 bound
    rw [set, set']
    have edits : Edits P fun d => { d with penalty := penalty } :=
      ⟨fun _ => rfl, fun _ => priced, fun old => old⟩
    apply Mirrors.alike _ (alike_reanalyze _) (alike_reanalyze _)
    exact h.mapRule bound own edits fun _ productions => ⟨rfl, productions⟩
  · obtain ⟨-, same'⟩ := strict.resolve_left fun yes => unknown yes.1
    rw [same, same']
    exact h

theorem mirrors_setStart (h : Mirrors P s t) (r : RuleId) (own : ¬ t.Synthesized r) :
    Mirrors P (after (setStart (t.strictId r)) s) (after (setStart r) t) := by
  have strict := after_setStart (t.strictId r) s
  rw [h.strictId_lt_size_iff own] at strict
  rcases after_setStart r t with ⟨bound, set⟩ | ⟨unknown, same⟩
  · obtain ⟨-, set'⟩ := strict.resolve_right fun no => no.1 bound
    rw [set, set']
    refine ⟨h.strict, ⟨h.wrapped.tolerant, h.wrapped.skip, h.wrapped.assume, h.wrapped.wrapper, h.wrapped.rule,
      h.wrapped.group, ?_⟩, h.size, h.rule, h.named, h.groups, h.group, h.sets, h.index, rfl⟩
    rintro _ ⟨⟩
    exact ⟨two_le_of_own own, wrappedUsage?_of_own own⟩
  · obtain ⟨-, same'⟩ := strict.resolve_left fun yes => unknown yes.1
    rw [same, same']
    exact h

theorem mirrors_set (h : Mirrors P s t) (ss : List Symbol) (f : RuleId → RuleId) :
    Mirrors P (after (set (ss.map (·.mapRule f))) s) (after (set ss) t) := by
  rw [after_set, after_set, mapM_ofSymbol?_mapRule]
  rcases ss.mapM SetMember.ofSymbol? with _ | _ | ⟨m, members⟩
  · exact h
  · exact h
  · have looked (content : List SetMember) : s.setWith? content = t.setWith? content := by
      rw [setWith?, setWith?, h.index]
    rw [withSet, withSet, looked]
    split
    · exact h
    · exact h.pushSet _

theorem mirrors_rule (h : Mirrors P s t) (inScope : t.Scoped) (free : P 0) (name : String) :
    Mirrors P (after (rule name) s) (after (rule name) t) := by
  have strict := after_rule name s
  rw [h.named] at strict
  rcases after_rule name t with ⟨r, known, same⟩ | ⟨new, made⟩
  · rw [known] at strict
    obtain ⟨-, -, same'⟩ := strict.resolve_right (by simp)
    rw [same, same']
    exact h
  · rw [new] at strict
    obtain ⟨-, made'⟩ := strict.resolve_left (by simp)
    rw [made, made']
    exact h.push_rule inScope rfl free rfl

theorem mirrors_defineRule (h : Mirrors P s t) (inScope : t.Scoped) (free : P 0) (name : String) :
    Mirrors P (after (defineRule name) s) (after (defineRule name) t) := by
  have strict := after_defineRule name s
  rw [h.named] at strict
  rcases after_defineRule name t with ⟨r, known, defined⟩ | ⟨new, made⟩
  · rw [known] at strict
    obtain ⟨r', -, defined'⟩ := strict.resolve_right (by simp)
    rw [defined, defined']
    exact h.alike (alike_define _ _) (alike_define _ _)
  · rw [new] at strict
    obtain ⟨-, made'⟩ := strict.resolve_left (by simp)
    rw [made, made']
    exact (h.push_rule inScope rfl free rfl).alike (alike_define _ _) (alike_define _ _)

theorem alike_terminal (text : String) (g : Grammar) : Alike g (after (terminal text) g) := by
  unfold after terminal
  by_cases blank : text.isEmpty = true
  · simpa [blank] using Alike.refl g
  · cases known : g.terminal? text with
    | some t => simpa [blank, known] using Alike.refl g
    | none => simpa [blank, known] using ⟨rfl, rfl, rfl, rfl, rfl, rfl, rfl⟩

end Build

theorem mirrors_empty (P : Penalty → Prop) : Mirrors P (.empty false) (.empty true) := by
  -- The two grammars as they are before their analysis.
  apply Mirrors.alike (s := repairsOnly false) (t := repairsOnly true) _ (alike_reanalyze _) (alike_reanalyze _)
  refine ⟨rfl, ⟨rfl, ⟨_, rfl, rfl, rfl, rfl⟩, ⟨_, rfl, rfl, rfl, rfl⟩, ?_, ?_, ?_, ?_⟩, rfl, ?_,
    fun _ => by simp [ruleNamed?, repairsOnly], rfl, ?_, rfl, rfl, rfl⟩
  · intro r d u known mark
    obtain ⟨_ | _ | i⟩ := r <;> cases known <;> cases mark
  · intro r d known plain above
    obtain ⟨_ | _ | i⟩ := r
    · exact absurd above (by decide)
    · exact absurd above (by decide)
    · cases known
  · intro k d known
    cases known
  · intro r begins
    cases begins
  · intro r d known plain
    obtain ⟨_ | _ | i⟩ := r <;> cases known
    · exact ⟨_, rfl, rfl, rfl⟩
    · exact ⟨_, rfl, rfl, rfl⟩
  · intro k d known
    cases known

/-- One call on both sides leaves grammars that mirror each other. -/
theorem Call.mirrors {P : Penalty → Prop} {s t : Grammar} (c : Call) (h : Mirrors P s t) (inScope : t.Scoped)
    (own : ∀ r ∈ c.rules, ¬ t.Synthesized r) (free : P 0)
    (priced : ∀ r penalty, c = .setRulePenalty r penalty → P penalty) :
    Mirrors P ((c.mapRules t.strictId).after s) (c.after t) := by
  rw [Call.after_eq, Call.after_eq]
  cases c with
  | setRulePenalty r penalty =>
    exact Build.mirrors_setRulePenalty h r (own r (List.mem_singleton_self r)) (priced r penalty rfl)
  | addProduction r ss => exact Build.mirrors_addProduction h inScope r ss own
  | setStart r => exact Build.mirrors_setStart h r (own r (List.mem_singleton_self r))
  | anonymousRule => exact h.push_rule inScope rfl free rfl
  | analyze => exact h.alike (alike_reanalyze s) (alike_reanalyze t)
  | setUserData key data =>
    cases key <;> exact h.alike ⟨rfl, rfl, rfl, rfl, rfl, rfl, rfl⟩ ⟨rfl, rfl, rfl, rfl, rfl, rfl, rfl⟩
  | _ =>
    simp only [Call.mapRules, Call.perform, Build.after_discard]
    first
      | exact h.alike (Build.alike_terminal _ s) (Build.alike_terminal _ t)
      | exact Build.mirrors_rule h inScope free _
      | exact Build.mirrors_defineRule h inScope free _
      | exact Build.mirrors_group h inScope _ _ _ own
      | exact Build.mirrors_set h _ _

/-- Twins have the same rules and groups once wrappers are undone, and none of the rules costs anything. -/
theorem Twins.mirrors {s t : Grammar} (h : Twins s t) : Mirrors (· = 0) s t := by
  induction h with
  | empty => exact mirrors_empty _
  | step twins c own free ih =>
    exact c.mirrors ih twins.reachable.2.inScope own rfl fun r penalty same => absurd same (free r penalty)

/-- Counterparts have the same rules and groups at the same penalties, once wrappers are undone. -/
theorem Counterparts.mirrors {s t : Grammar} (h : Counterparts s t) : Mirrors (fun _ => True) s t := by
  induction h with
  | empty => exact mirrors_empty _
  | step counterparts c own ih =>
    exact c.mirrors ih counterparts.reachable.2.inScope own trivial fun _ _ _ => trivial

def letterGrammar (tolerant : Bool) : Grammar :=
  let calls : List Call := [.rule "letter", .addProduction ⟨2⟩ [.usage (.terminal (.ofChar 'a'))], .setStart ⟨2⟩]
  calls.foldl (fun g c => c.after g) (.empty tolerant)

theorem letterGrammar_start : (letterGrammar true).start = some ⟨2⟩ := by decide +kernel

theorem letterGrammar_twins : Twins (letterGrammar false) (letterGrammar true) := by
  -- The rule is older than any wrapper, so it has the same identifier on both sides.
  have step {s t : Grammar} (h : Twins s t) (c : Call) (only : ∀ r ∈ c.rules, r = ⟨2⟩)
      (same : t.strictId ⟨2⟩ = ⟨2⟩ → c.mapRules t.strictId = c) (free : ∀ r penalty, c ≠ .setRulePenalty r penalty)
      (older : t.strictId ⟨2⟩ = ⟨2⟩) (plain : t.wrappedUsage? ⟨2⟩ = none) : Twins (c.after s) (c.after t) := by
    have both := h.step c (fun r named => ?_) free
    · rwa [same older] at both
    · rw [only r named]
      rintro (zero | one | wraps)
      · cases zero
      · cases one
      · simp [plain] at wraps
  simp only [letterGrammar, List.foldl_cons, List.foldl_nil]
  refine step (step (step .empty _ ?_ ?_ ?_ ?_ ?_) _ ?_ ?_ ?_ ?_ ?_) _ ?_ ?_ ?_ ?_ ?_
  all_goals first | simp [Call.rules, Call.mapRules, Symbol.rules, Symbol.mapRule] | decide +kernel

end Earley
