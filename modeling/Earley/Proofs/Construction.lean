import Earley.Grammar.Interning
import Earley.Proofs.Nullability
import Earley.Proofs.RankOrder

/-!
# What construction steps do

Each step leaves the tables as they were or changes them in one of a few ways (`Change`). From these follow the
two facts about a grammar that parsing relies on: its identifiers name entries of its tables (`Scoped`), and the
costs of deriving nothing that it carries are right (`Analyzed`).
-/

namespace Earley

def Symbol.InScope (rules groups sets : Nat) : Symbol → Prop
  | .rule r => r.index < rules
  | .group k => k.index < groups
  | .usage (.set s) => s.index < sets
  | _ => True

theorem Symbol.InScope.mono {rules groups sets rules' groups' sets' : Nat} {s : Symbol}
    (h : s.InScope rules groups sets) (hr : rules ≤ rules') (hg : groups ≤ groups') (hs : sets ≤ sets') :
    s.InScope rules' groups' sets' := by
  unfold InScope at *
  split <;> simp_all <;> omega

def RuleDef.givenName (d : RuleDef) : Option String := if d.internal then none else d.name

namespace Grammar

/-- The grammar with one more rule, to which its name and its mark lead. -/
def push (g : Grammar) (d : RuleDef) : Grammar :=
  { g with
    rules := g.rules.push d
    ruleNames := g.ruleNames.enter d.givenName ⟨g.rules.size⟩
    wrappers := g.wrappers.enter d.tolerantFor ⟨g.rules.size⟩ }

@[simp] theorem rules_push (g : Grammar) (d : RuleDef) : (g.push d).rules = g.rules.push d := rfl

@[simp] theorem groups_push (g : Grammar) (d : RuleDef) : (g.push d).groups = g.groups := rfl

@[simp] theorem sets_push (g : Grammar) (d : RuleDef) : (g.push d).sets = g.sets := rfl

def pushText (g : Grammar) (text : String) : Grammar :=
  { g with texts := g.texts.push text, terminals := g.terminals.insert text (.ofText g.texts.size) }

def pushSet (g : Grammar) (content : List SetMember) : Grammar :=
  { g with sets := g.sets.push content, setIndex := g.setIndex.insert content ⟨g.sets.size⟩ }

/-- Identifiers name entries of the tables, and a group mentions none but older groups. -/
structure Scoped (g : Grammar) : Prop where
  indexed : g.Indexed
  /-- The rules that repairs are made of are there. -/
  repairs : 2 ≤ g.rules.size
  rule : ∀ {r d p s}, g.rule? r = some d → p ∈ d.productions → s ∈ p →
    s.InScope g.rules.size g.groups.size g.sets.size
  group : ∀ {k d s}, g.group? k = some d → s ∈ d.production → s.InScope g.rules.size k.index g.sets.size
  /-- Some number of repetitions is admitted. -/
  feasible : ∀ {k d}, g.group? k = some d → d.Admits d.min.toNat
  start : ∀ {r}, g.start = some r → r.index < g.rules.size

end Grammar

namespace Build

open Grammar

def after (step : Build α) (g : Grammar) : Grammar :=
  match step.run g with
  | .ok _ h => h
  | .error _ h => h

theorem after_ok {step : Build α} {g g' : Grammar} {a : α} (run : step.run g = .ok a g') : after step g = g' := by
  rw [after, run]

theorem after_error {step : Build α} {g g' : Grammar} {e : GrammarError} (run : step.run g = .error e g') :
    after step g = g' := by
  rw [after, run]

theorem run_map (f : α → β) (step : Build α) (g : Grammar) :
    (f <$> step).run g = match step.run g with
      | .ok a h => .ok (f a) h
      | .error e h => .error e h := by
  change EStateM.map f step g = _
  rw [EStateM.map, EStateM.run]
  cases step g <;> rfl

@[simp] theorem after_discard (step : Build α) (g : Grammar) : after (discard step) g = after step g := by
  change after ((fun _ => ()) <$> step) g = after step g
  rw [after, run_map, after]
  cases step.run g <;> rfl

/-- Symbols with the productions that store them, and the grammars before and after: in a fault-tolerant grammar
each usage is replaced by its wrapper, which is made where it is missing. -/
inductive Stored : List Symbol → Grammar → Production → Grammar → Prop where
  | nil {g : Grammar} : Stored [] g [] g
  | plain {s : Symbol} {ss : List Symbol} {g g' : Grammar} {p : Production}
      (kept : ∀ u, s = .usage u → g.tolerant = false) (rest : Stored ss g p g') : Stored (s :: ss) g (s :: p) g'
  | found {u : Usage} {r : RuleId} {ss : List Symbol} {g g' : Grammar} {p : Production}
      (tolerant : g.tolerant = true) (known : g.wrapper? u = some r) (rest : Stored ss g p g') :
      Stored (.usage u :: ss) g (.rule r :: p) g'
  | made {u : Usage} {ss : List Symbol} {g g' : Grammar} {p : Production}
      (tolerant : g.tolerant = true) (missing : g.wrapper? u = none)
      (rest : Stored ss (g.push (g.wrapperDef u)) p g') :
      Stored (.usage u :: ss) g (.rule ⟨g.rules.size⟩ :: p) g'

theorem run_wrapper_found {u : Usage} {r : RuleId} {g : Grammar} (known : g.wrapper? u = some r) :
    (wrapper u).run g = .ok r g := by
  rw [wrapper, EStateM.run_bind]
  simp only [EStateM.run_get, known]
  rfl

theorem run_wrapper_made {u : Usage} {g : Grammar} (missing : g.wrapper? u = none) :
    (wrapper u).run g = .ok ⟨g.rules.size⟩ (g.push (g.wrapperDef u)) := by
  rw [wrapper, EStateM.run_bind]
  simp only [EStateM.run_get, missing]
  rfl

theorem run_store_strict (u : Usage) {g : Grammar} (strict : g.tolerant = false) :
    (store (.usage u)).run g = .ok (.usage u) g := by
  rw [store, EStateM.run_bind]
  simp only [EStateM.run_get, strict]
  rfl

theorem run_store_tolerant {u : Usage} {r : RuleId} {g g' : Grammar} (tolerant : g.tolerant = true)
    (run : (wrapper u).run g = .ok r g') : (store (.usage u)).run g = .ok (.rule r) g' := by
  rw [store, EStateM.run_bind]
  simp only [EStateM.run_get, tolerant, ite_true, EStateM.run_bind, run]
  rfl

theorem run_mapM_cons {s s' : Symbol} {ss : List Symbol} {p : Production} {g g' g'' : Grammar}
    (first : (store s).run g = .ok s' g') (others : (ss.mapM store).run g' = .ok p g'') :
    ((s :: ss).mapM store).run g = .ok (s' :: p) g'' := by
  rw [List.mapM_cons, EStateM.run_bind]
  simp only [first, EStateM.run_bind, others]
  rfl

theorem run_mapM_store (ss : List Symbol) (g : Grammar) :
    ∃ p g', (ss.mapM store).run g = .ok p g' ∧ Stored ss g p g' := by
  induction ss generalizing g with
  | nil => exact ⟨[], g, by simp, .nil⟩
  | cons s ss ih =>
    have plain (kept : ∀ u, s = .usage u → g.tolerant = false) (run : (store s).run g = .ok s g) :
        ∃ p g', ((s :: ss).mapM store).run g = .ok p g' ∧ Stored (s :: ss) g p g' := by
      obtain ⟨p, g', others, stored⟩ := ih g
      exact ⟨s :: p, g', run_mapM_cons run others, .plain kept stored⟩
    cases s with
    | usage u =>
      cases tolerant : g.tolerant with
      | false => exact plain (fun _ _ => tolerant) (run_store_strict u tolerant)
      | true =>
        cases known : g.wrapper? u with
        | some r =>
          obtain ⟨p, g', others, stored⟩ := ih g
          have run := run_store_tolerant tolerant (run_wrapper_found known)
          exact ⟨_, g', run_mapM_cons run others, .found tolerant known stored⟩
        | none =>
          obtain ⟨p, g', others, stored⟩ := ih (g.push (g.wrapperDef u))
          have run := run_store_tolerant tolerant (run_wrapper_made known)
          exact ⟨_, g', run_mapM_cons run others, .made tolerant known stored⟩
    | empty => exact plain (by simp) rfl
    | rule r => exact plain (by simp) rfl
    | group k => exact plain (by simp) rfl

theorem run_checkRule (r : RuleId) (g : Grammar) :
    r.index < g.rules.size ∧ (checkRule r).run g = .ok () g ∨
      ¬ r.index < g.rules.size ∧ ∃ e, (checkRule r).run g = .error e g := by
  by_cases known : r.index < g.rules.size
  · exact .inl ⟨known, by simp [checkRule, Nat.not_le.mpr known]⟩
  · exact .inr ⟨known, .unknownRule r, by simp [checkRule, Nat.le_of_not_lt known]⟩

theorem run_checkSymbol (s : Symbol) (g : Grammar) :
    s.InScope g.rules.size g.groups.size g.sets.size ∧ (checkSymbol s).run g = .ok () g ∨
      ¬ s.InScope g.rules.size g.groups.size g.sets.size ∧ ∃ e, (checkSymbol s).run g = .error e g := by
  unfold checkSymbol
  split
  case h_1 r => exact run_checkRule r g
  case h_2 k =>
    by_cases known : k.index < g.groups.size
    · exact .inl ⟨known, by simp [Nat.not_le.mpr known]⟩
    · exact .inr ⟨known, .unknownGroup k, by simp [Nat.le_of_not_lt known]⟩
  case h_3 s =>
    by_cases known : s.index < g.sets.size
    · exact .inl ⟨known, by simp [Nat.not_le.mpr known]⟩
    · exact .inr ⟨known, .unknownSet s, by simp [Nat.le_of_not_lt known]⟩
  case h_4 notRule notGroup notSet =>
    refine .inl ⟨?_, rfl⟩
    unfold Symbol.InScope
    split <;> simp_all

theorem run_checkSymbols (ss : List Symbol) (g : Grammar) :
    (∀ s ∈ ss, s.InScope g.rules.size g.groups.size g.sets.size) ∧ (forM ss checkSymbol).run g = .ok () g ∨
      (¬ ∀ s ∈ ss, s.InScope g.rules.size g.groups.size g.sets.size) ∧
        ∃ e, (forM ss checkSymbol).run g = .error e g := by
  induction ss with
  | nil => exact .inl ⟨by simp, rfl⟩
  | cons s ss ih =>
    rcases run_checkSymbol s g with ⟨here, passed⟩ | ⟨unknown, e, refused⟩
    · rcases ih with ⟨others, passed'⟩ | ⟨unknown, e, refused⟩
      · exact .inl ⟨by simpa using ⟨here, others⟩, by simp [passed, passed']⟩
      · exact .inr ⟨fun all => unknown (List.forall_mem_cons.mp all).2, e, by simp [passed, refused]⟩
    · exact .inr ⟨fun all => unknown (List.forall_mem_cons.mp all).1, e, by simp [refused]⟩

/-- All symbols are checked before anything is stored, so a refused production changes nothing. -/
theorem run_production (ss : List Symbol) (g : Grammar) :
    (∃ p g', (∀ s ∈ ss, s.InScope g.rules.size g.groups.size g.sets.size) ∧ Stored ss g p g' ∧
      (production ss).run g = .ok p g') ∨
    (¬ ∀ s ∈ ss, s.InScope g.rules.size g.groups.size g.sets.size) ∧ ∃ e, (production ss).run g = .error e g := by
  rcases run_checkSymbols ss g with ⟨scope, passed⟩ | ⟨unknown, e, refused⟩
  · obtain ⟨p, g', run, stored⟩ := run_mapM_store ss g
    exact .inl ⟨p, g', scope, stored, by simp [production, passed, run]⟩
  · exact .inr ⟨unknown, e, by simp [production, refused]⟩

end Build

structure RuleDef.IsBlank (d : RuleDef) : Prop where
  childless : d.productions = []
  free : d.penalty = 0
  cost : d.nullPenalty = some 0
  flag : d.nullable = true
  mark : d.tolerantFor = none

open Grammar in
inductive Change : Grammar → Grammar → Prop where
  | none {g : Grammar} : Change g g
  | both {g g' g'' : Grammar} (first : Change g g') (second : Change g' g'') : Change g g''
  | text {g : Grammar} {text : String} (given : text.isEmpty = false) (missing : g.terminal? text = none) :
      Change g (g.pushText text)
  | userData {g : Grammar} (data : Index UserKey Datum) : Change g { g with userData := data }
  | start {g : Grammar} {r : RuleId} (known : r.index < g.rules.size) : Change g { g with start := some r }
  | set {g : Grammar} {content : List SetMember} (filled : content ≠ []) (missing : g.setWith? content = none) :
      Change g (g.pushSet content)
  | define {g : Grammar} (r : RuleId) : Change g (g.mapRule r fun d => { d with defined := true })
  | rule {g : Grammar} {d : RuleDef} (blank : d.IsBlank)
      (missing : ∀ name, d.givenName = some name → g.ruleNamed? name = none) : Change g (g.push d)
  | production {g g' : Grammar} {r : RuleId} {ss : List Symbol} {p : Production} (known : r.index < g.rules.size)
      (scope : ∀ s ∈ ss, s.InScope g.rules.size g.groups.size g.sets.size) (stored : Build.Stored ss g p g') :
      Change g (g'.mapRule r fun d => { d with productions := d.productions ++ [p] }).reanalyze
  | penalty {g : Grammar} (r : RuleId) (penalty : Penalty) :
      Change g (g.mapRule r fun d => { d with penalty := penalty }).reanalyze
  | group {g g' : Grammar} {d : GroupDef} {ss : List Symbol}
      (scope : ∀ s ∈ ss, s.InScope g.rules.size g.groups.size g.sets.size)
      (stored : Build.Stored ss g d.production g') (feasible : d.Admits d.min.toNat) :
      Change g (Grammar.reanalyze { g' with groups := g'.groups.push d })
  | analysis {g : Grammar} : Change g g.reanalyze

namespace Build

open Grammar

/-- An empty text is refused; any other is a terminal already, or becomes one. -/
theorem run_terminal (text : String) (g : Grammar) :
    text.isEmpty = true ∧ (terminal text).run g = .error .emptyTerminal g ∨
    (∃ t, g.terminal? text = some t ∧ (terminal text).run g = .ok t g) ∨
    text.isEmpty = false ∧ g.terminal? text = none ∧
      (terminal text).run g = .ok (.ofText g.texts.size) (g.pushText text) := by
  unfold terminal
  cases blank : text.isEmpty with
  | true => exact .inl ⟨rfl, by simp⟩
  | false =>
    cases known : g.terminal? text with
    | some t => exact .inr (.inl ⟨t, rfl, by simp [known]⟩)
    | none => exact .inr (.inr ⟨rfl, rfl, by simp [known, pushText]⟩)

theorem change_terminal (text : String) (g : Grammar) : Change g (after (terminal text) g) := by
  rcases run_terminal text g with ⟨-, run⟩ | ⟨t, -, run⟩ | ⟨given, missing, run⟩
  · rw [after_error run]
    exact .none
  · rw [after_ok run]
    exact .none
  · rw [after_ok run]
    exact .text given missing

/-- The rule of a name is found, or it is made. -/
theorem run_rule (name : String) (g : Grammar) :
    (∃ r, g.ruleNamed? name = some r ∧ (rule name).run g = .ok r g) ∨
      g.ruleNamed? name = none ∧ (rule name).run g = .ok ⟨g.rules.size⟩ (g.push { name := some name }) := by
  unfold rule
  cases known : g.ruleNamed? name with
  | some r => exact .inl ⟨r, rfl, by simp [known]⟩
  | none => exact .inr ⟨rfl, by simp [known, pushRule]; rfl⟩

theorem after_rule (name : String) (g : Grammar) :
    (∃ r, g.ruleNamed? name = some r ∧ after (rule name) g = g) ∨
      g.ruleNamed? name = none ∧ after (rule name) g = g.push { name := some name } := by
  rcases run_rule name g with ⟨r, known, run⟩ | ⟨new, run⟩
  · exact .inl ⟨r, known, after_ok run⟩
  · exact .inr ⟨new, after_ok run⟩

theorem change_push_name {name : String} {g : Grammar} (new : g.ruleNamed? name = none) :
    Change g (g.push { name := some name }) := by
  refine .rule ⟨rfl, rfl, rfl, rfl, rfl⟩ ?_
  rintro _ ⟨⟩
  exact new

theorem change_rule (name : String) (g : Grammar) : Change g (after (rule name) g) := by
  rcases after_rule name g with ⟨r, -, same⟩ | ⟨new, made⟩
  · rw [same]
    exact .none
  · rw [made]
    exact change_push_name new

/-- A rule that is defined stays as it is when it is defined again. -/
theorem mapRule_define {g : Grammar} {r : RuleId} (defined : (g.rule? r).any (·.defined) = true) :
    (g.mapRule r fun d => { d with defined := true }) = g := by
  obtain ⟨d, known, flag⟩ := (Option.any_eq_true ..).mp defined
  have same : g.rules.modify r.index (fun d => { d with defined := true }) = g.rules := by
    refine Array.ext_getElem? fun i => ?_
    rw [Array.getElem?_modify]
    split
    case isTrue here =>
      subst here
      rw [show g.rules[r.index]? = some d from known, Option.map_some, ← flag]
    case isFalse => rfl
  rw [mapRule, same]

/-- A name is refused where it has been taken for definition before; otherwise it is taken as it is, or once it is
made. -/
theorem run_defineRule (name : String) (g : Grammar) :
    (∃ r, g.ruleNamed? name = some r ∧ (g.rule? r).any (·.defined) = true ∧
      (defineRule name).run g = .error (.duplicateRule name) g) ∨
    (∃ r, g.ruleNamed? name = some r ∧
      (defineRule name).run g = .ok r (g.mapRule r fun d => { d with defined := true })) ∨
    g.ruleNamed? name = none ∧ (defineRule name).run g = .ok ⟨g.rules.size⟩
      ((g.push { name := some name }).mapRule ⟨g.rules.size⟩ fun d => { d with defined := true }) := by
  unfold defineRule
  rcases run_rule name g with ⟨r, known, run⟩ | ⟨new, run⟩
  · by_cases defined : (g.rule? r).any (·.defined) = true
    · exact .inl ⟨r, known, defined, by simp [run, defined]⟩
    · refine .inr (.inl ⟨r, known, ?_⟩)
      simp only [EStateM.run_bind, EStateM.run_get, run, defined]
      rfl
  · have fresh : ((g.push { name := some name }).rule? ⟨g.rules.size⟩).any (·.defined) = false := by
      simp [Grammar.rule?]
    refine .inr (.inr ⟨new, ?_⟩)
    simp only [EStateM.run_bind, EStateM.run_get, run, fresh]
    rfl

/-- A name is taken for definition as it is, or once it is made. Where it has been taken before, nothing changes. -/
theorem after_defineRule (name : String) (g : Grammar) :
    (∃ r, g.ruleNamed? name = some r ∧
      after (defineRule name) g = g.mapRule r fun d => { d with defined := true }) ∨
    g.ruleNamed? name = none ∧ after (defineRule name) g =
      (g.push { name := some name }).mapRule ⟨g.rules.size⟩ fun d => { d with defined := true } := by
  rcases run_defineRule name g with ⟨r, known, defined, run⟩ | ⟨r, known, run⟩ | ⟨new, run⟩
  · exact .inl ⟨r, known, (after_error run).trans (mapRule_define defined).symm⟩
  · exact .inl ⟨r, known, after_ok run⟩
  · exact .inr ⟨new, after_ok run⟩

theorem change_defineRule (name : String) (g : Grammar) : Change g (after (defineRule name) g) := by
  rcases after_defineRule name g with ⟨r, -, defined⟩ | ⟨new, made⟩
  · rw [defined]
    exact .define r
  · rw [made]
    exact .both (change_push_name new) (.define _)

/-- A production is added where all it mentions is in scope; otherwise it is refused and nothing changes. -/
theorem run_addProduction (r : RuleId) (ss : List Symbol) (g : Grammar) :
    (r.index < g.rules.size ∧ (∀ s ∈ ss, s.InScope g.rules.size g.groups.size g.sets.size) ∧
      ∃ p g', Stored ss g p g' ∧ (addProduction r ss).run g = .ok ()
        (g'.mapRule r fun d => { d with productions := d.productions ++ [p] }).reanalyze) ∨
    ¬ (r.index < g.rules.size ∧ ∀ s ∈ ss, s.InScope g.rules.size g.groups.size g.sets.size) ∧
      ∃ e, (addProduction r ss).run g = .error e g := by
  unfold addProduction
  rcases run_checkRule r g with ⟨known, passed⟩ | ⟨unknown, e, refused⟩
  · rcases run_production ss g with ⟨p, g', scope, stored, run⟩ | ⟨unknown, e, run⟩
    · exact .inl ⟨known, scope, p, g', stored, by simp [passed, run]⟩
    · exact .inr ⟨fun all => unknown all.2, e, by simp [passed, run]⟩
  · exact .inr ⟨fun all => unknown all.1, e, by simp [refused]⟩

theorem after_addProduction (r : RuleId) (ss : List Symbol) (g : Grammar) :
    (r.index < g.rules.size ∧ (∀ s ∈ ss, s.InScope g.rules.size g.groups.size g.sets.size) ∧
      ∃ p g', Stored ss g p g' ∧ after (addProduction r ss) g =
        (g'.mapRule r fun d => { d with productions := d.productions ++ [p] }).reanalyze) ∨
    ¬ (r.index < g.rules.size ∧ ∀ s ∈ ss, s.InScope g.rules.size g.groups.size g.sets.size) ∧
      after (addProduction r ss) g = g := by
  rcases run_addProduction r ss g with ⟨known, scope, p, g', stored, run⟩ | ⟨unknown, e, run⟩
  · exact .inl ⟨known, scope, p, g', stored, after_ok run⟩
  · exact .inr ⟨unknown, after_error run⟩

theorem change_addProduction (r : RuleId) (ss : List Symbol) (g : Grammar) :
    Change g (after (addProduction r ss) g) := by
  rcases after_addProduction r ss g with ⟨known, scope, p, g', stored, added⟩ | ⟨-, same⟩
  · rw [added]
    exact .production known scope stored
  · rw [same]
    exact .none

theorem after_setRulePenalty (r : RuleId) (penalty : Penalty) (g : Grammar) :
    r.index < g.rules.size ∧ after (setRulePenalty r penalty) g =
        (g.mapRule r fun d => { d with penalty := penalty }).reanalyze ∨
      ¬ r.index < g.rules.size ∧ after (setRulePenalty r penalty) g = g := by
  unfold after setRulePenalty
  rcases run_checkRule r g with ⟨known, passed⟩ | ⟨unknown, e, refused⟩
  · exact .inl ⟨known, by simp [passed]⟩
  · exact .inr ⟨unknown, by simp [refused]⟩

theorem change_setRulePenalty (r : RuleId) (penalty : Penalty) (g : Grammar) :
    Change g (after (setRulePenalty r penalty) g) := by
  rcases after_setRulePenalty r penalty g with ⟨-, set⟩ | ⟨-, same⟩
  · rw [set]
    exact .penalty r penalty
  · rw [same]
    exact .none

theorem after_setStart (r : RuleId) (g : Grammar) :
    r.index < g.rules.size ∧ after (setStart r) g = { g with start := some r } ∨
      ¬ r.index < g.rules.size ∧ after (setStart r) g = g := by
  unfold after setStart
  rcases run_checkRule r g with ⟨known, passed⟩ | ⟨unknown, e, refused⟩
  · exact .inl ⟨known, by simp [passed]⟩
  · exact .inr ⟨unknown, by simp [refused]⟩

theorem change_setStart (r : RuleId) (g : Grammar) : Change g (after (setStart r) g) := by
  rcases after_setStart r g with ⟨known, set⟩ | ⟨-, same⟩
  · rw [set]
    exact .start known
  · rw [same]
    exact .none

/-- A group is added where its bounds are in order and all it mentions is in scope; otherwise it is refused and nothing
changes. -/
theorem run_group (ss : List Symbol) (min max : UInt32) (g : Grammar) :
    ((max = 0 ∨ min.toNat ≤ max.toNat) ∧ (∀ s ∈ ss, s.InScope g.rules.size g.groups.size g.sets.size) ∧
      ∃ p g', Stored ss g p g' ∧ (group ss min max).run g = .ok ⟨g'.groups.size⟩ (Grammar.reanalyze { g' with
        groups := g'.groups.push
          { production := p
            min := min
            max := max
            nullable := min == 0
            nullPenalty := if min = 0 then some 0 else none
            productionNullable := false } })) ∨
    ¬ ((max = 0 ∨ min.toNat ≤ max.toNat) ∧ ∀ s ∈ ss, s.InScope g.rules.size g.groups.size g.sets.size) ∧
      ∃ e, (group ss min max).run g = .error e g := by
  unfold group
  by_cases wrong : max ≠ 0 ∧ max < min
  · refine .inr ⟨fun all => ?_, .invalidGroupBounds min max, by simp [wrong]⟩
    rcases all.1 with none | le
    · exact wrong.1 none
    · exact absurd wrong.2 (Nat.not_lt.mpr le)
  · have feasible : max = 0 ∨ min.toNat ≤ max.toNat := by
      by_cases none : max = 0
      · exact .inl none
      · exact .inr (Nat.le_of_not_lt fun less => wrong ⟨none, less⟩)
    rcases run_production ss g with ⟨p, g', scope, stored, run⟩ | ⟨unknown, e, run⟩
    · exact .inl ⟨feasible, scope, p, g', stored, by simp [wrong, run]⟩
    · exact .inr ⟨fun all => unknown all.2, e, by simp [wrong, run]⟩

theorem after_group (ss : List Symbol) (min max : UInt32) (g : Grammar) :
    ((max = 0 ∨ min.toNat ≤ max.toNat) ∧ (∀ s ∈ ss, s.InScope g.rules.size g.groups.size g.sets.size) ∧
      ∃ p g', Stored ss g p g' ∧ after (group ss min max) g = Grammar.reanalyze { g' with
        groups := g'.groups.push
          { production := p
            min := min
            max := max
            nullable := min == 0
            nullPenalty := if min = 0 then some 0 else none
            productionNullable := false } }) ∨
    ¬ ((max = 0 ∨ min.toNat ≤ max.toNat) ∧ ∀ s ∈ ss, s.InScope g.rules.size g.groups.size g.sets.size) ∧
      after (group ss min max) g = g := by
  rcases run_group ss min max g with ⟨feasible, scope, p, g', stored, run⟩ | ⟨unknown, e, run⟩
  · exact .inl ⟨feasible, scope, p, g', stored, after_ok run⟩
  · exact .inr ⟨unknown, after_error run⟩

theorem change_group (ss : List Symbol) (min max : UInt32) (g : Grammar) :
    Change g (after (group ss min max) g) := by
  rcases after_group ss min max g with ⟨feasible, scope, p, g', stored, added⟩ | ⟨-, same⟩
  · rw [added]
    exact .group scope stored ⟨Nat.le_refl _, by simpa [GroupDef.isUnbounded] using feasible⟩
  · rw [same]
    exact .none

theorem run_setMembers (ss : List Symbol) (g : Grammar) :
    (∃ members, ss.mapM SetMember.ofSymbol? = some members ∧ (ss.mapM setMember).run g = .ok members g) ∨
      ss.mapM SetMember.ofSymbol? = none ∧ ∃ e, (ss.mapM setMember).run g = .error e g := by
  induction ss with
  | nil => exact .inl ⟨[], by simp, by simp⟩
  | cons s ss ih =>
    cases first : SetMember.ofSymbol? s with
    | none => exact .inr ⟨by simp [first], .invalidSetMember s, by simp [setMember, first]; rfl⟩
    | some m =>
      have run : (setMember s).run g = .ok m g := by simp [setMember, first]
      have rest : ((s :: ss).mapM setMember).run g = ((m :: ·) <$> ss.mapM setMember).run g := by
        rw [List.mapM_cons, EStateM.run_bind, run]
        rfl
      rcases ih with ⟨members, found, others⟩ | ⟨none, e, others⟩
      · exact .inl ⟨m :: members, by simp [first, found], by rw [rest, run_map, others]⟩
      · exact .inr ⟨by simp [first, none], e, by rw [rest, run_map, others]⟩

/-- The grammar once some members are added as a set, if there are any and they are not there as a set already. -/
def withSet (g : Grammar) : Option (List SetMember) → Grammar
  | some (m :: members) =>
    let content := sortByRank (·.toUsage.rank) (m :: members)
    if (g.setWith? content).isSome then g else g.pushSet content
  | _ => g

/-- A set is refused where some symbol is no member or there is none; otherwise it is there already, or it is added. -/
theorem run_set (ss : List Symbol) (g : Grammar) :
    (∃ m members, ss.mapM SetMember.ofSymbol? = some (m :: members) ∧
      ((∃ s, g.setWith? (sortByRank (·.toUsage.rank) (m :: members)) = some s ∧ (set ss).run g = .ok s g) ∨
        g.setWith? (sortByRank (·.toUsage.rank) (m :: members)) = none ∧ (set ss).run g = .ok ⟨g.sets.size⟩
          (g.pushSet (sortByRank (·.toUsage.rank) (m :: members))))) ∨
    (ss.mapM SetMember.ofSymbol? = none ∨ ss.mapM SetMember.ofSymbol? = some []) ∧
      ∃ e, (set ss).run g = .error e g := by
  unfold set
  rcases run_setMembers ss g with ⟨members, listed, run⟩ | ⟨none, e, run⟩
  · cases members with
    | nil => exact .inr ⟨.inr listed, .emptySet, by simp [run]⟩
    | cons m members =>
      refine .inl ⟨m, members, listed, ?_⟩
      cases known : g.setWith? (sortByRank (·.toUsage.rank) (m :: members)) with
      | some s => exact .inl ⟨s, rfl, by simp [run, known]⟩
      | none => exact .inr ⟨rfl, by simp [run, known, pushSet]⟩
  · exact .inr ⟨.inl none, e, by simp [run]⟩

theorem after_set (ss : List Symbol) (g : Grammar) :
    after (set ss) g = withSet g (ss.mapM SetMember.ofSymbol?) := by
  rcases run_set ss g with ⟨m, members, listed, ⟨s, known, run⟩ | ⟨new, run⟩⟩ | ⟨listed | listed, e, run⟩
  · rw [after_ok run, listed, withSet, known]
    rfl
  · rw [after_ok run, listed, withSet, new]
    rfl
  · rw [after_error run, listed, withSet]
    exact fun _ _ same => by cases same
  · rw [after_error run, listed, withSet]
    exact fun _ _ same => by cases same

theorem change_set (ss : List Symbol) (g : Grammar) : Change g (after (set ss) g) := by
  rw [after_set]
  rcases ss.mapM SetMember.ofSymbol? with _ | _ | ⟨m, members⟩
  · exact .none
  · exact .none
  · rw [withSet]
    split
    case isTrue => exact .none
    case isFalse missing =>
      have listed := (mem_sortByRank SetMember.rank_injective).mpr (List.mem_cons_self (a := m) (l := members))
      exact .set (List.ne_nil_of_mem listed) (Option.not_isSome_iff_eq_none.mp missing)

end Build

theorem Call.after_eq (c : Call) (g : Grammar) : c.after g = Build.after c.perform g := by
  unfold Call.after Build.after
  cases c.perform.run g <;> rfl

theorem Call.change (c : Call) (g : Grammar) : Change g (c.after g) := by
  rw [Call.after_eq]
  cases c <;> simp only [Call.perform, Build.after_discard]
  case terminal text => exact Build.change_terminal text g
  case rule name => exact Build.change_rule name g
  case defineRule name => exact Build.change_defineRule name g
  case anonymousRule => exact .rule (d := { defined := true }) ⟨rfl, rfl, rfl, rfl, rfl⟩ (by rintro _ ⟨⟩)
  case addProduction r ss => exact Build.change_addProduction r ss g
  case setRulePenalty r penalty => exact Build.change_setRulePenalty r penalty g
  case setStart r => exact Build.change_setStart r g
  case group ss min max => exact Build.change_group ss min max g
  case set ss => exact Build.change_set ss g
  case setUserData key data => exact .userData _
  case analyze => exact .analysis

end Earley
