import Earley.Grammar.Twins
import Earley.Proofs.Reachable

/-!
# Marks of wrappers

The marks of the rules of a grammar say which are wrappers, and so how rules are numbered where none are made. Most
construction steps keep the marks, or add some at their end.
-/

namespace Earley

section Marks

variable {marks more : List (Option Usage)} {i j : Nat}

theorem countP_take_le (marks : List (Option Usage)) (i : Nat) : (marks.take i).countP (·.isSome) ≤ i :=
  Nat.le_trans List.countP_le_length (List.length_take_le ..)

theorem unmarkedIndex_append (inside : i ≤ marks.length) :
    unmarkedIndex (marks ++ more) i = unmarkedIndex marks i := by
  rw [unmarkedIndex, List.take_append_of_le_length inside, unmarkedIndex]

theorem unmarkedIndex_mono (le : i ≤ j) : unmarkedIndex marks i ≤ unmarkedIndex marks j := by
  obtain ⟨n, rfl⟩ := Nat.exists_eq_add_of_le le
  have between := countP_take_le (marks.drop i) n
  rw [unmarkedIndex, unmarkedIndex, List.take_add, List.countP_append]
  omega

/-- Unmarked entries keep their order. -/
theorem unmarkedIndex_lt (unmarked : marks[i]? = some none) (less : i < j) :
    unmarkedIndex marks i < unmarkedIndex marks j := by
  apply Nat.lt_of_lt_of_le _ (unmarkedIndex_mono (Nat.succ_le_of_lt less))
  have below := countP_take_le marks i
  rw [unmarkedIndex, unmarkedIndex, List.take_add_one, unmarked, List.countP_append]
  simp
  omega

theorem unmarkedIndex_last (mark : Option Usage) : unmarkedIndex (marks ++ [mark]) (marks.length + 1) =
    if mark.isSome then unmarkedIndex marks marks.length else unmarkedIndex marks marks.length + 1 := by
  have below := countP_take_le marks marks.length
  rw [List.take_length] at below
  cases mark <;> simp [unmarkedIndex, List.take_of_length_le]
  omega

end Marks

/-- What an author wrote of a rule, with everything else as it is at first. -/
def RuleDef.content (d : RuleDef) : RuleDef := { d with nullable := true, nullPenalty := some 0, defined := false }

structure RuleDef.Matches (d d' : RuleDef) : Prop where
  productions : d'.productions = d.productions
  penalty : d'.penalty = d.penalty
  internal : d'.internal = d.internal
  mark : d'.tolerantFor = d.tolerantFor

theorem RuleDef.matches_of_content {d d' : RuleDef} (same : d'.content = d.content) : d.Matches d' := by
  simp only [content, RuleDef.mk.injEq] at same
  simp_all [RuleDef.Matches.mk]

def GroupDef.content (d : GroupDef) : GroupDef :=
  { d with nullable := false, nullPenalty := none, productionNullable := false }

structure GroupDef.Matches (d d' : GroupDef) : Prop where
  production : d'.production = d.production
  min : d'.min = d.min
  max : d'.max = d.max

theorem GroupDef.matches_of_content {d d' : GroupDef} (same : d'.content = d.content) : d.Matches d' := by
  simp only [content, GroupDef.mk.injEq] at same
  simp_all [GroupDef.Matches.mk]

theorem GroupDef.admits_congr {d d' : GroupDef} (least : d'.min = d.min) (most : d'.max = d.max) (n : Nat) :
    d'.Admits n ↔ d.Admits n := by
  simp only [Admits, isUnbounded, least, most]

def RuleDef.withProduction (p : Production) (d : RuleDef) : RuleDef := { d with productions := d.productions ++ [p] }

namespace Grammar

variable {g g' t t' : Grammar}

/-- Two grammars that differ in no more than what an analysis finds, the texts of terminals and data that is carried
along. -/
structure Alike (g g' : Grammar) : Prop where
  rules : g'.rules.map RuleDef.content = g.rules.map RuleDef.content
  groups : g'.groups.map GroupDef.content = g.groups.map GroupDef.content
  sets : g'.sets = g.sets
  names : g'.ruleNames = g.ruleNames
  index : g'.setIndex = g.setIndex
  tolerant : g'.tolerant = g.tolerant
  start : g'.start = g.start

theorem Alike.symm (h : Alike g g') : Alike g' g :=
  ⟨h.rules.symm, h.groups.symm, h.sets.symm, h.names.symm, h.index.symm, h.tolerant.symm, h.start.symm⟩

theorem Alike.refl (g : Grammar) : Alike g g := ⟨rfl, rfl, rfl, rfl, rfl, rfl, rfl⟩

theorem Alike.rule (h : Alike g g') {r : RuleId} {d : RuleDef} (known : g.rule? r = some d) :
    ∃ d', g'.rule? r = some d' ∧ d.Matches d' := by
  have same := congrArg (·[r.index]?) h.rules
  simp only [Array.getElem?_map] at same
  rw [show g.rules[r.index]? = some d from known, Option.map_some] at same
  obtain ⟨d', known', same⟩ := Option.map_eq_some_iff.mp same
  exact ⟨d', known', RuleDef.matches_of_content same⟩

theorem Alike.group (h : Alike g g') {k : GroupId} {d : GroupDef} (known : g.group? k = some d) :
    ∃ d', g'.group? k = some d' ∧ d.Matches d' := by
  have same := congrArg (·[k.index]?) h.groups
  simp only [Array.getElem?_map] at same
  rw [show g.groups[k.index]? = some d from known, Option.map_some] at same
  obtain ⟨d', known', same⟩ := Option.map_eq_some_iff.mp same
  exact ⟨d', known', GroupDef.matches_of_content same⟩

theorem Alike.size (h : Alike g g') : g'.rules.size = g.rules.size := by
  simpa using congrArg Array.size h.rules

theorem Alike.marks (h : Alike g g') : g'.marks = g.marks := by
  have same := congrArg (fun rules => rules.toList.map (·.tolerantFor)) h.rules
  simpa [Function.comp_def, RuleDef.content, Grammar.marks] using same

theorem alike_reanalyze (g : Grammar) : Alike g g.reanalyze := by
  refine ⟨Array.ext_getElem? fun i => ?_, Array.ext_getElem? fun i => ?_, rfl, rfl, rfl, rfl, rfl⟩
  · simp only [reanalyze, Tables.analyze, Tables.record, Array.getElem?_map, Array.getElem?_mapIdx, Option.map_map]
    rfl
  · simp only [reanalyze, Tables.analyze, Tables.record, Array.getElem?_map, Array.getElem?_mapIdx, Option.map_map]
    rfl

theorem alike_define (g : Grammar) (r : RuleId) : Alike g (g.mapRule r fun d => { d with defined := true }) := by
  refine ⟨?_, rfl, rfl, rfl, rfl, rfl, rfl⟩
  apply map_rules_mapRule
  exact fun _ => rfl

theorem marks_getElem? (g : Grammar) (r : RuleId) : g.marks[r.index]? = (g.rule? r).map (·.tolerantFor) := by
  simp [marks, rule?]

theorem wrappedUsage?_eq (g : Grammar) (r : RuleId) : g.wrappedUsage? r = g.marks[r.index]?.join := by
  rw [marks_getElem?, wrappedUsage?]
  cases g.rule? r <;> rfl

theorem length_marks (g : Grammar) : g.marks.length = g.rules.size := by
  simp [marks]

theorem strictId_congr (same : g'.marks = g.marks) : g'.strictId = g.strictId := by
  funext r
  rw [strictId, strictId, same]

theorem unwrap_congr (same : g'.marks = g.marks) : g'.unwrap = g.unwrap := by
  funext s
  cases s <;> simp only [unwrap, wrappedUsage?_eq, strictId_congr same, same]

def Held (g : Grammar) (s : Symbol) : Prop := ∀ r ∈ s.rules, r.index < g.rules.size

theorem held_of_inScope {s : Symbol} {rules groups sets : Nat} (scope : s.InScope rules groups sets)
    (le : rules ≤ g.rules.size) : g.Held s := by
  cases s <;> simp_all [Held, Symbol.rules, Symbol.InScope]
  omega

structure Grown (g g' : Grammar) : Prop where
  marks : ∃ more, g'.marks = g.marks ++ more

theorem Grown.refl (g : Grammar) : Grown g g := ⟨[], by simp⟩

theorem Grown.trans {g'' : Grammar} (h : Grown g g') (k : Grown g' g'') : Grown g g'' := by
  obtain ⟨more, first⟩ := h.marks
  obtain ⟨more', second⟩ := k.marks
  exact ⟨more ++ more', by rw [second, first, List.append_assoc]⟩

theorem grown_push (g : Grammar) (d : RuleDef) : Grown g (g.push d) :=
  ⟨[d.tolerantFor], by simp [Grammar.marks]⟩

theorem Grown.strictId (h : Grown g g') {r : RuleId} (held : r.index ≤ g.rules.size) :
    g'.strictId r = g.strictId r := by
  obtain ⟨more, same⟩ := h.marks
  rw [Grammar.strictId, Grammar.strictId, same, unmarkedIndex_append (by rwa [length_marks])]

theorem Grown.wrappedUsage? (h : Grown g g') {r : RuleId} (held : r.index < g.rules.size) :
    g'.wrappedUsage? r = g.wrappedUsage? r := by
  obtain ⟨more, same⟩ := h.marks
  rw [wrappedUsage?_eq, wrappedUsage?_eq, same, List.getElem?_append_left (by rwa [length_marks])]

theorem Grown.unwrap (h : Grown g g') {s : Symbol} (held : g.Held s) : g'.unwrap s = g.unwrap s := by
  cases s with
  | rule r =>
    have bound : r.index < g.rules.size := held r (by simp [Symbol.rules])
    simp only [Grammar.unwrap, h.wrappedUsage? bound, h.strictId (Nat.le_of_lt bound)]
  | _ => rfl

theorem rule?_push_of_known {d e : RuleDef} {r : RuleId} (known : g.rule? r = some d) :
    (g.push e).rule? r = some d := by
  rw [rule?_push, if_neg (Nat.ne_of_lt (lt_size_of_rule? known)), known]

theorem Indexed.lt_size_of_ruleNamed? (h : g.Indexed) {name : String} {r : RuleId}
    (found : g.ruleNamed? name = some r) : r.index < g.rules.size := by
  obtain ⟨d, known, -⟩ := h.name.mp found
  exact lt_size_of_rule? known

theorem ruleNamed?_push (g : Grammar) (d : RuleDef) (name : String) : (g.push d).ruleNamed? name =
    if d.givenName = some name then some ⟨g.rules.size⟩ else g.ruleNamed? name :=
  Index.find?_enter ..

theorem map_strictId_grown (h : Grown t t') (indexed : t.Indexed) (name : String) :
    (t.ruleNamed? name).map t'.strictId = (t.ruleNamed? name).map t.strictId :=
  Option.map_congr fun _ found => h.strictId (Nat.le_of_lt (indexed.lt_size_of_ruleNamed? found))

theorem map_unwrap_grown (h : Grown t t') {ss : List Symbol} (held : ∀ x ∈ ss, t.Held x) :
    ss.map t'.unwrap = ss.map t.unwrap :=
  List.map_congr_left fun x member => h.unwrap (held x member)

theorem strictId_push_size (t : Grammar) (d : RuleDef) :
    ((t.push d).strictId ⟨t.rules.size + 1⟩).index =
      if d.tolerantFor.isSome then (t.strictId ⟨t.rules.size⟩).index else (t.strictId ⟨t.rules.size⟩).index + 1 := by
  simp only [strictId, marks, rules_push, Array.toList_push, List.map_append, List.map_cons, List.map_nil]
  rw [← length_marks t]
  exact unmarkedIndex_last d.tolerantFor

theorem mark_none_of_own {r : RuleId} (own : ¬ t.Synthesized r) {d : RuleDef} (known : t.rule? r = some d) :
    d.tolerantFor = none := by
  cases mark : d.tolerantFor with
  | none => rfl
  | some u => exact absurd (.inr (.inr (by simp [wrappedUsage?, known, mark]))) own

theorem wrappedUsage?_of_own {r : RuleId} (own : ¬ t.Synthesized r) : t.wrappedUsage? r = none := by
  cases mark : t.wrappedUsage? r with
  | none => rfl
  | some u => exact absurd (.inr (.inr (by rw [mark]; rfl))) own

theorem two_le_of_own {r : RuleId} (own : ¬ t.Synthesized r) : 2 ≤ r.index := by
  obtain ⟨_ | _ | i⟩ := r
  · exact absurd (.inl rfl) own
  · exact absurd (.inr (.inl rfl)) own
  · exact Nat.le_add_left 2 i

/-- Rules that are not wrappers keep their order on the strict side. -/
theorem strictId_lt {r : RuleId} {d : RuleDef} (known : t.rule? r = some d) (plain : d.tolerantFor = none) {r' : RuleId}
    (less : r.index < r'.index) : (t.strictId r).index < (t.strictId r').index := by
  apply unmarkedIndex_lt _ less
  rw [marks_getElem?, known, Option.map_some, plain]

theorem strictId_injective {r r' : RuleId} {d d' : RuleDef} (known : t.rule? r = some d) (plain : d.tolerantFor = none)
    (known' : t.rule? r' = some d') (plain' : d'.tolerantFor = none) (same : t.strictId r = t.strictId r') :
    r = r' := by
  have equal := congrArg RuleId.index same
  rcases Nat.lt_trichotomy r.index r'.index with less | here | more
  · have := strictId_lt known plain less
    omega
  · cases r
    cases r'
    exact congrArg RuleId.mk here
  · have := strictId_lt known' plain' more
    omega

/-- A strict grammar stores symbols as they are. -/
theorem stored_strict {ss : List Symbol} {p : Production} (stored : Build.Stored ss g p g')
    (strict : g.tolerant = false) : p = ss ∧ g' = g := by
  induction stored with
  | nil => exact ⟨rfl, rfl⟩
  | plain _ _ ih =>
    obtain ⟨rfl, rfl⟩ := ih strict
    exact ⟨rfl, rfl⟩
  | found tolerant => rw [strict] at tolerant; cases tolerant
  | made tolerant => rw [strict] at tolerant; cases tolerant

theorem marks_mapRule {f : RuleDef → RuleDef} (kept : ∀ d, (f d).tolerantFor = d.tolerantFor) (r : RuleId) :
    (g.mapRule r f).marks = g.marks := by
  simpa [marks] using congrArg Array.toList (map_rules_mapRule kept r)

theorem rule?_mapRule_cases {f : RuleDef → RuleDef} {r r' : RuleId} {d : RuleDef}
    (known : (g.mapRule r f).rule? r' = some d) :
    (r = r' ∧ ∃ e, g.rule? r = some e ∧ f e = d) ∨ r.index ≠ r'.index ∧ g.rule? r' = some d := by
  rw [rule?_mapRule] at known
  split at known
  case isTrue same =>
    obtain rfl : r = r' := by cases r; cases r'; exact congrArg RuleId.mk same
    exact .inl ⟨rfl, Option.map_eq_some_iff.mp known⟩
  case isFalse differ => exact .inr ⟨differ, known⟩

end Grammar

open Grammar

theorem mapM_ofSymbol?_mapRule (f : RuleId → RuleId) (ss : List Symbol) :
    (ss.map (·.mapRule f)).mapM SetMember.ofSymbol? = ss.mapM SetMember.ofSymbol? := by
  induction ss with
  | nil => rfl
  | cons x ss ih =>
    rw [List.map_cons, List.mapM_cons, List.mapM_cons, ih]
    cases x <;> rfl

end Earley
