import Earley.Grammar.Refusals
import Earley.Parser.Source
import Earley.Proofs.Construction
import Earley.Proofs.Recognition
import Earley.Proofs.Twins

/-!
# What refused calls leave behind

A call that takes symbols checks all of them before it makes the first wrapper, and a call that takes a name refuses it
only where the name has a rule already. So nothing is half done when a call is refused, and the reason is that of the
first symbol at fault. A run is refused before the first token is drawn (`refusals_change_nothing`).
-/

namespace Earley

namespace Build

open Grammar

variable {g g' : Grammar} {e : GrammarError} {r : RuleId} {ss : List Symbol}

section Reasons

theorem run_checkSymbol_eq (s : Symbol) (g : Grammar) :
    (checkSymbol s).run g = match g.refusal? s with
      | none => .ok () g
      | some e => .error e g := by
  cases s with
  | empty => rfl
  | rule r =>
    by_cases known : r.index < g.rules.size
    · simp [checkSymbol, checkRule, refusal?, rule?, known, Nat.not_le.mpr known]
    · simp [checkSymbol, checkRule, refusal?, rule?, known, Nat.le_of_not_lt known]
  | group k =>
    by_cases known : k.index < g.groups.size
    · simp [checkSymbol, refusal?, group?, known, Nat.not_le.mpr known]
    · simp [checkSymbol, refusal?, group?, known, Nat.le_of_not_lt known]
  | usage u =>
    cases u with
    | set s =>
      by_cases known : s.index < g.sets.size
      · simp [checkSymbol, refusal?, set?, known, Nat.not_le.mpr known]
      · simp [checkSymbol, refusal?, set?, known, Nat.le_of_not_lt known]
    | _ => rfl

/-- The symbols are checked in their order, up to the first that is refused. -/
theorem run_checkSymbols_eq (ss : List Symbol) (g : Grammar) :
    (forM ss checkSymbol).run g = match ss.findSome? g.refusal? with
      | none => .ok () g
      | some e => .error e g := by
  induction ss with
  | nil => rfl
  | cons s ss ih =>
    rw [List.findSome?_cons]
    have first := run_checkSymbol_eq s g
    cases refused : g.refusal? s with
    | none => simpa [refused, first] using ih
    | some e => simp [refused, first]

/-- A step is refused for the reasons that are found, if it succeeds where none is. -/
theorem run_eq_error_iff {α : Type} {step : Build α} {found : Option GrammarError}
    (refused : ∀ e, found = some e → step.run g = .error e g)
    (passed : found = none → ∃ a g', step.run g = .ok a g') : step.run g = .error e g' ↔ g' = g ∧ found = some e := by
  cases reason : found with
  | none =>
    obtain ⟨a, h, run⟩ := passed reason
    simp [run]
  | some e' =>
    rw [refused e' reason, EStateM.Result.error.injEq, Option.some.injEq]
    exact ⟨fun ⟨same, same'⟩ => ⟨same'.symm, same⟩, fun ⟨same', same⟩ => ⟨same, same'.symm⟩⟩

theorem run_production_refused (refused : ss.findSome? g.refusal? = some e) : (production ss).run g = .error e g := by
  have checked := run_checkSymbols_eq ss g
  rw [refused] at checked
  simp [production, checked]

theorem run_production_passed (known : ss.findSome? g.refusal? = none) : ∃ p g', (production ss).run g = .ok p g' := by
  have checked := run_checkSymbols_eq ss g
  rw [known] at checked
  obtain ⟨p, g', stored, -⟩ := run_mapM_store ss g
  exact ⟨p, g', by simp [production, checked, stored]⟩

theorem addProduction_refused_iff : (addProduction r ss).run g = .error e g' ↔
    g' = g ∧ (.rule r :: ss).findSome? g.refusal? = some e := by
  have checked : (checkRule r).run g = _ := run_checkSymbol_eq (.rule r) g
  apply run_eq_error_iff
  · intro e refused
    rw [List.findSome?_cons] at refused
    cases unknown : g.refusal? (.rule r) with
    | some e' =>
      simp only [unknown] at refused checked
      cases refused
      simp [addProduction, checked]
    | none =>
      simp only [unknown] at refused checked
      simp [addProduction, checked, run_production_refused refused]
  · intro known
    rw [List.findSome?_eq_none_iff] at known
    obtain ⟨here, others⟩ := List.forall_mem_cons.mp known
    obtain ⟨p, h, stored⟩ := run_production_passed (List.findSome?_eq_none_iff.mpr others)
    simp only [here] at checked
    refine ⟨(), (h.mapRule r fun d => { d with productions := d.productions ++ [p] }).reanalyze, ?_⟩
    simp [addProduction, checked, stored]

/-- Why a group is refused: for its bounds, and otherwise for its first symbol at fault. -/
theorem group_refused_iff {min max : UInt32} : (group ss min max).run g = .error e g' ↔ g' = g ∧
    (if max ≠ 0 ∧ max < min then some (.invalidGroupBounds min max) else ss.findSome? g.refusal?) = some e := by
  apply run_eq_error_iff
  · intro e refused
    split at refused
    case isTrue wrong =>
      cases refused
      simp [group, wrong]
    case isFalse right => simp [group, right, run_production_refused refused]
  · intro known
    split at known
    case isTrue wrong => cases known
    case isFalse right =>
      obtain ⟨p, h, stored⟩ := run_production_passed known
      exact ⟨_, _, by simp [group, right, stored]; exact ⟨rfl, rfl⟩⟩

end Reasons

section Atomicity

variable {α : Type} {step : Build α}

theorem atomic_of_run
    (run : ∀ g, (∃ a g', step.run g = .ok a g') ∨ ∃ e, step.run g = .error e g) : Atomic step := by
  intro g e g' refused
  rcases run g with ⟨a, h, passed⟩ | ⟨e', same⟩
  · cases passed.symm.trans refused
  · cases same.symm.trans refused
    rfl

theorem Atomic.discard (h : Atomic step) : Atomic (discard step) := by
  intro g e g' refused
  have refused : ((fun _ => ()) <$> step).run g = .error e g' := refused
  rw [run_map] at refused
  split at refused
  case h_1 => cases refused
  case h_2 e' g'' run =>
    cases refused
    exact h g e g' run

theorem atomic_terminal (text : String) : Atomic (terminal text) := by
  refine atomic_of_run fun g => ?_
  rcases run_terminal text g with ⟨-, run⟩ | ⟨t, -, run⟩ | ⟨-, -, run⟩
  · exact .inr ⟨_, run⟩
  · exact .inl ⟨_, _, run⟩
  · exact .inl ⟨_, _, run⟩

theorem atomic_rule (name : String) : Atomic (rule name) := by
  refine atomic_of_run fun g => .inl ?_
  rcases run_rule name g with ⟨r, -, run⟩ | ⟨-, run⟩
  · exact ⟨_, _, run⟩
  · exact ⟨_, _, run⟩

/-- A rule that is made for a name is not defined yet, so the name is not refused. -/
theorem atomic_defineRule (name : String) : Atomic (defineRule name) := by
  refine atomic_of_run fun g => ?_
  rcases run_defineRule name g with ⟨r, -, -, run⟩ | ⟨r, -, run⟩ | ⟨-, run⟩
  · exact .inr ⟨_, run⟩
  · exact .inl ⟨_, _, run⟩
  · exact .inl ⟨_, _, run⟩

theorem atomic_addProduction (r : RuleId) (ss : List Symbol) : Atomic (addProduction r ss) :=
  fun _ _ _ refused => (addProduction_refused_iff.mp refused).1

theorem atomic_setRulePenalty (r : RuleId) (penalty : Penalty) : Atomic (setRulePenalty r penalty) := by
  refine atomic_of_run fun g => ?_
  rcases run_checkRule r g with ⟨-, passed⟩ | ⟨-, e, refused⟩
  · exact .inl ⟨(), (g.mapRule r fun d => { d with penalty := penalty }).reanalyze, by simp [setRulePenalty, passed]⟩
  · exact .inr ⟨e, by simp [setRulePenalty, refused]⟩

theorem atomic_setStart (r : RuleId) : Atomic (setStart r) := by
  refine atomic_of_run fun g => ?_
  rcases run_checkRule r g with ⟨-, passed⟩ | ⟨-, e, refused⟩
  · exact .inl ⟨(), { g with start := some r }, by simp [setStart, passed]⟩
  · exact .inr ⟨e, by simp [setStart, refused]⟩

theorem atomic_group (ss : List Symbol) (min max : UInt32) : Atomic (group ss min max) :=
  fun _ _ _ refused => (group_refused_iff.mp refused).1

theorem atomic_set (ss : List Symbol) : Atomic (set ss) := by
  refine atomic_of_run fun g => ?_
  rcases run_set ss g with ⟨m, members, -, ⟨s, -, run⟩ | ⟨-, run⟩⟩ | ⟨-, e, run⟩
  · exact .inl ⟨_, _, run⟩
  · exact .inl ⟨_, _, run⟩
  · exact .inr ⟨_, run⟩

theorem atomic_perform (c : Call) : Atomic c.perform := by
  cases c with
  | terminal text => exact (atomic_terminal text).discard
  | rule name => exact (atomic_rule name).discard
  | defineRule name => exact (atomic_defineRule name).discard
  | anonymousRule => exact (atomic_of_run fun g => .inl ⟨_, _, rfl⟩).discard
  | addProduction r ss => exact atomic_addProduction r ss
  | setRulePenalty r penalty => exact atomic_setRulePenalty r penalty
  | setStart r => exact atomic_setStart r
  | group ss min max => exact (atomic_group ss min max).discard
  | set ss => exact (atomic_set ss).discard
  | setUserData key data => exact (atomic_of_run fun g => .inl ⟨_, _, rfl⟩).discard
  | analyze => exact (atomic_of_run fun g => .inl ⟨_, _, rfl⟩).discard

end Atomicity

/-- A production is refused just where its rule or one of its symbols is. -/
theorem exists_addProduction_refused_iff :
    (∃ e g', (addProduction r ss).run g = .error e g') ↔ g.rule? r = none ∨ ∃ s ∈ ss, (g.refusal? s).isSome = true := by
  simp only [addProduction_refused_iff, exists_eq_left]
  rw [← Option.isSome_iff_exists, List.findSome?_isSome_iff]
  simp [refusal?]

/-- A group is refused just where its bounds are wrong or one of its symbols is refused. -/
theorem exists_group_refused_iff {min max : UInt32} : (∃ e g', (group ss min max).run g = .error e g') ↔
    (max ≠ 0 ∧ max < min) ∨ ∃ s ∈ ss, (g.refusal? s).isSome = true := by
  simp only [group_refused_iff, exists_eq_left]
  rw [← Option.isSome_iff_exists, ← List.findSome?_isSome_iff]
  by_cases wrong : max ≠ 0 ∧ max < min
  · simp [wrong]
  · simp [wrong]

end Build

namespace Parser

variable {p q : Parser} {e : ParseError}

/-- Why a parser refuses to run. -/
theorem run_refused_iff {tokens : List Token} : (run tokens).run p = .error e q ↔ q = p ∧
    (p.states ≠ #[] ∧ e = .alreadyRun ∨ p.states = #[] ∧ p.grammar.start = none ∧ e = .noStartRule) := by
  by_cases fresh : p.states = #[]
  · cases starts : p.grammar.start with
    | none => simp [run_eq_noStartRule p tokens fresh starts, fresh, eq_comm, and_comm]
    | some start => simp [run_eq p tokens fresh starts, fresh]
  · simp [run_eq_alreadyRun p tokens fresh, fresh, eq_comm, and_comm]

section Sources

variable {σ : Type} {next : σ → Token × σ} {source rest : σ}

theorem runFrom_eq_alreadyRun (used : p.states ≠ #[]) :
    runFrom next source p = some (.error .alreadyRun p, source) := by
  simp [runFrom, used]

theorem runFrom_eq_noStartRule (fresh : p.states = #[]) (starts : p.grammar.start = none) :
    runFrom next source p = some (.error .noStartRule p, source) := by
  simp [runFrom, fresh, starts]

/-- A parser that refuses a list refuses every source, and no token is drawn: what the source would hand out does not
matter, and it comes back as it was. -/
theorem runFrom_refused_iff : runFrom next source p = some (.error e q, rest) ↔ rest = source ∧ q = p ∧
    (p.states ≠ #[] ∧ e = .alreadyRun ∨ p.states = #[] ∧ p.grammar.start = none ∧ e = .noStartRule) := by
  by_cases fresh : p.states = #[]
  · cases starts : p.grammar.start with
    | none => simp [runFrom_eq_noStartRule fresh starts, fresh, eq_comm, and_comm]
    | some start => simp [runFrom, fresh, starts, Option.bind_eq_some_iff]
  · simp [runFrom_eq_alreadyRun fresh, fresh, eq_comm, and_comm]

end Sources

end Parser

open Build in
/-- Whatever call is refused, everything stays as it was. A production is refused for its rule, or else for the first of
its symbols with an unknown identifier; a group is refused for its bounds, or else for the first such symbol. A parser
refuses to run where it has run before or has no start rule, and then it draws no token from any source. -/
theorem refusals_change_nothing :
    (∀ c : Call, Atomic c.perform) ∧
    (∀ ss, Atomic (optional ss) ∧ Atomic (star ss) ∧ Atomic (plus ss)) ∧ (∀ classes, Atomic (classSet classes)) ∧
    (∀ g r ss,
      ((∃ e g', (addProduction r ss).run g = .error e g') ↔
        g.rule? r = none ∨ ∃ s ∈ ss, (g.refusal? s).isSome = true) ∧
      ∀ e g', (addProduction r ss).run g = .error e g' ↔
        g' = g ∧ (.rule r :: ss).findSome? g.refusal? = some e) ∧
    (∀ g ss min max,
      ((∃ e g', (group ss min max).run g = .error e g') ↔
        (max ≠ 0 ∧ max < min) ∨ ∃ s ∈ ss, (g.refusal? s).isSome = true) ∧
      ∀ e g', (group ss min max).run g = .error e g' ↔ g' = g ∧
        (if max ≠ 0 ∧ max < min then some (.invalidGroupBounds min max) else ss.findSome? g.refusal?) = some e) ∧
    ∀ (p q : Parser) (e : ParseError),
      let refused := q = p ∧
        (p.states ≠ #[] ∧ e = .alreadyRun ∨ p.states = #[] ∧ p.grammar.start = none ∧ e = .noStartRule)
      (∀ tokens, (Parser.run tokens).run p = .error e q ↔ refused) ∧
      ∀ (σ : Type) (next : σ → Token × σ) (source rest : σ),
        Parser.runFrom next source p = some (.error e q, rest) ↔ rest = source ∧ refused := by
  refine ⟨atomic_perform, fun ss => ⟨atomic_group ss 0 1, atomic_group ss 0 0, atomic_group ss 1 0⟩,
    fun classes => atomic_set _,
    fun g r ss => ⟨exists_addProduction_refused_iff, fun e g' => addProduction_refused_iff⟩,
    fun g ss min max => ⟨exists_group_refused_iff, fun e g' => group_refused_iff⟩, fun p q e => ?_⟩
  exact ⟨fun tokens => Parser.run_refused_iff, fun σ next source rest => Parser.runFrom_refused_iff⟩

/-- The first usage has no wrapper yet, and it gets none, since a symbol behind it is refused. -/
theorem letterGrammar_refusals_change_nothing :
    (letterGrammar true).wrapper? .any = none ∧
      (Build.addProduction ⟨2⟩ [.usage .any, .rule ⟨9⟩, .group ⟨0⟩]).run (letterGrammar true) =
        .error (.unknownRule ⟨9⟩) (letterGrammar true) := by
  obtain ⟨-, -, -, productions, -⟩ := refusals_change_nothing
  obtain ⟨-, refused⟩ := productions (letterGrammar true) ⟨2⟩ [.usage .any, .rule ⟨9⟩, .group ⟨0⟩]
  exact ⟨by decide +kernel, (refused _ _).mpr ⟨rfl, by decide +kernel⟩⟩

end Earley
