import Earley.Proofs.ChartChecked

/-!
# Earlier states are frozen

Where states are kept in one table and changed in place, every step writes to the state that is being closed or opened
and to no other. So a state stays as it is once the next one is opened, and what is built for an input begins with what
is built for its first tokens.
-/

namespace Earley

namespace Chart

variable {g : Grammar} {states states' states'' : Array State}

structure OnlyAt (j : Nat) (states states' : Array State) : Prop where
  size : states'.size = states.size
  others : ∀ i, i ≠ j → states'[i]? = states[i]?

theorem OnlyAt.refl (j : Nat) (states : Array State) : OnlyAt j states states := ⟨rfl, fun _ _ => rfl⟩

theorem OnlyAt.trans {j : Nat} (h : OnlyAt j states states') (h' : OnlyAt j states' states'') :
    OnlyAt j states states'' :=
  ⟨h'.size.trans h.size, fun i other => (h'.others i other).trans (h.others i other)⟩

theorem onlyAt_set (states : Array State) (j : Nat) (s : State) : OnlyAt j states (states.setIfInBounds j s) :=
  ⟨by simp, fun i other => Array.getElem?_setIfInBounds_ne other.symm⟩

/-- What differs from a longer table in its last state at most is as long, with the same states before. -/
theorem OnlyAt.of_push {s : State} (h : OnlyAt states.size (states.push s) states') :
    ∃ opened, states' = states.push opened := by
  have size : states'.size = states.size + 1 := by simpa using h.size
  refine ⟨states'[states.size], Array.ext_getElem? fun i => ?_⟩
  by_cases here : i = states.size
  · subst here
    simp
  · rw [h.others i here, Array.getElem?_push, Array.getElem?_push, if_neg here, if_neg here]

theorem foldlM_onlyAt {α : Type} {j : Nat} {step : Array State → α → Option (Array State)}
    (each : ∀ {states states' a}, step states a = some states' → OnlyAt j states states') {as : List α}
    (h : as.foldlM step states = some states') : OnlyAt j states states' := by
  induction as generalizing states with
  | nil =>
    cases h
    exact .refl _ _
  | cons a as ih =>
    rw [List.foldlM_cons] at h
    obtain ⟨between, first, rest⟩ := Option.bind_eq_some_iff.mp h
    exact (each first).trans (ih rest)

namespace Checked

variable {fits : Nat → Bool} {j : Nat}

theorem change_onlyAt {ref : ItemRef} {f : Item → Item} (h : change states ref f = some states') :
    OnlyAt ref.state states states' := by
  obtain ⟨s, -, h⟩ := Option.bind_eq_some_iff.mp h
  obtain ⟨item, -, h⟩ := Option.bind_eq_some_iff.mp h
  cases h
  exact onlyAt_set states _ _

theorem refTo_state {i : Nat} {ref : ItemRef} (h : refTo fits j i = some ref) : ref.state = j := by
  unfold refTo number at h
  split at h
  · split at h <;> simp at h
    rw [← h]
  · simp at h

theorem add_onlyAt {cause : Cause} {key : ItemKey} {ref : ItemRef}
    (h : add fits states j cause key = some (states', ref)) : OnlyAt j states states' := by
  obtain ⟨s, -, h⟩ := Option.bind_eq_some_iff.mp h
  cases known : s.index.find? key with
  | some i =>
    simp only [known] at h
    obtain ⟨changed, here, h⟩ := Option.bind_eq_some_iff.mp h
    obtain ⟨_, -, h⟩ := Option.bind_eq_some_iff.mp h
    cases h
    exact change_onlyAt here
  | none =>
    simp only [known] at h
    obtain ⟨_, -, h⟩ := Option.bind_eq_some_iff.mp h
    cases h
    exact onlyAt_set states _ _

theorem addAll_onlyAt {cause : Cause} {keys : List ItemKey} {refs : List ItemRef}
    (h : addAll fits states j cause keys = some (states', refs)) : OnlyAt j states states' := by
  induction keys generalizing states refs with
  | nil =>
    cases h
    exact .refl _ _
  | cons key keys ih =>
    obtain ⟨⟨between, ref⟩, first, h⟩ := Option.bind_eq_some_iff.mp h
    obtain ⟨⟨last, others⟩, rest, h⟩ := Option.bind_eq_some_iff.mp h
    cases h
    exact (add_onlyAt first).trans (ih rest)

theorem advance_onlyAt {ref : ItemRef} {child : Child} {cost : Penalty} {refs : List ItemRef}
    (h : advance fits g states j ref child cost = some (states', refs)) : OnlyAt j states states' := by
  obtain ⟨item, -, h⟩ := Option.bind_eq_some_iff.mp h
  obtain ⟨keys, -, h⟩ := Option.bind_eq_some_iff.mp h
  split at h
  · cases h
    exact .refl _ _
  · exact addAll_onlyAt h

theorem predict_onlyAt {ref : ItemRef} {target : Target} (h : predict fits g states ref target = some states') :
    OnlyAt ref.state states states' := by
  obtain ⟨keys, -, h⟩ := Option.bind_eq_some_iff.mp h
  obtain ⟨⟨added, refs⟩, opened, h⟩ := Option.bind_eq_some_iff.mp h
  obtain ⟨noted, change, h⟩ := Option.bind_eq_some_iff.mp h
  have before := (addAll_onlyAt opened).trans (change_onlyAt change)
  split at h
  · obtain ⟨⟨moved, _⟩, advanced, h⟩ := Option.bind_eq_some_iff.mp h
    cases h
    exact before.trans (advance_onlyAt advanced)
  · cases h
    exact before

/-- What waited in an earlier state is read there and moved on elsewhere. -/
theorem resume_onlyAt {ref : ItemRef} {cost : Penalty} {origin i : Nat}
    (h : resume fits g ref cost origin states i = some states') : OnlyAt ref.state states states' := by
  obtain ⟨waiter, -, h⟩ := Option.bind_eq_some_iff.mp h
  obtain ⟨⟨moved, refs⟩, advanced, h⟩ := Option.bind_eq_some_iff.mp h
  exact (advance_onlyAt advanced).trans (change_onlyAt h)

theorem complete_onlyAt {ref : ItemRef} {target : Target} (h : complete fits g states ref target = some states') :
    OnlyAt ref.state states states' := by
  obtain ⟨own, -, h⟩ := Option.bind_eq_some_iff.mp h
  obtain ⟨item, -, h⟩ := Option.bind_eq_some_iff.mp h
  split at h
  · cases h
    exact .refl _ _
  · obtain ⟨opened, -, h⟩ := Option.bind_eq_some_iff.mp h
    exact foldlM_onlyAt resume_onlyAt h

theorem serve_onlyAt {i : Nat} (h : serve fits g states j i = some states') : OnlyAt j states states' := by
  obtain ⟨ref, here, h⟩ := Option.bind_eq_some_iff.mp h
  obtain ⟨item, -, h⟩ := Option.bind_eq_some_iff.mp h
  -- What an item does is written to the state that it is in.
  obtain rfl := refTo_state here
  split at h
  · exact predict_onlyAt h
  · obtain ⟨⟨moved, _⟩, advanced, h⟩ := Option.bind_eq_some_iff.mp h
    cases h
    exact advance_onlyAt advanced
  · cases h
    exact .refl _ _
  · exact complete_onlyAt h

theorem serveFrom_onlyAt {fuel i : Nat} (h : serveFrom fits g j fuel states i = some states') :
    OnlyAt j states states' := by
  induction fuel generalizing states i with
  | zero =>
    unfold serveFrom at h
    obtain ⟨s, -, h⟩ := Option.bind_eq_some_iff.mp h
    split at h
    · cases h
    · cases h
      exact .refl _ _
  | succ fuel ih =>
    unfold serveFrom at h
    obtain ⟨s, -, h⟩ := Option.bind_eq_some_iff.mp h
    split at h
    · obtain ⟨between, first, rest⟩ := Option.bind_eq_some_iff.mp h
      exact (serve_onlyAt first).trans (ih rest)
    · cases h
      exact .refl _ _

/-- Closing a state leaves all others as they are. -/
theorem close_onlyAt (h : close fits g states j = some states') : OnlyAt j states states' :=
  serveFrom_onlyAt h

/-- A scan from the last state adds a state and leaves all others as they are. -/
theorem scan?_appends {t : Token} (last : j + 1 = states.size) (h : scan? fits g states j t = some (some states')) :
    ∃ opened, states' = states.push opened := by
  obtain ⟨s, -, h⟩ := Option.bind_eq_some_iff.mp h
  obtain ⟨refs, -, h⟩ := Option.bind_eq_some_iff.mp h
  split at h
  · cases h
  · obtain ⟨scanned, moved, h⟩ := Option.bind_eq_some_iff.mp h
    cases h
    have only : OnlyAt (j + 1) (states.push (.entered (some t))) states' := by
      refine foldlM_onlyAt (fun step => ?_) moved
      obtain ⟨⟨_, refs⟩, advanced, rfl⟩ := Option.map_eq_some_iff.mp step
      exact advance_onlyAt advanced
    rw [last] at only
    exact only.of_push

end Checked

theorem push_prefix_grow (g : Grammar) (past : Array State) (last : State) (tokens : List Token) :
    (past.push last).toList <+: (grow g past last tokens).1.toList := by
  induction tokens generalizing past last with
  | nil => exact List.prefix_rfl
  | cons t rest ih =>
    unfold grow
    split
    case h_1 opened _ =>
      refine List.IsPrefix.trans ?_ (ih (past.push last) (close g (past.push last) opened))
      simp
    case h_2 => exact List.prefix_rfl

/-- More tokens add states and change none. -/
theorem grow_prefix (g : Grammar) (past : Array State) (last : State) (u v : List Token) :
    (grow g past last u).1.toList <+: (grow g past last (u ++ v)).1.toList := by
  induction u generalizing past last with
  | nil => exact push_prefix_grow g past last v
  | cons t rest ih =>
    rw [List.cons_append]
    unfold grow
    split
    case h_1 opened _ => exact ih (past.push last) (close g (past.push last) opened)
    case h_2 => exact List.prefix_rfl

theorem build_prefix (g : Grammar) (start : RuleId) (u v : List Token) :
    (build g start u).1.toList <+: (build g start (u ++ v)).1.toList := by
  obtain ⟨rest, more⟩ : ∃ rest, (u ++ v).takeWhile (!·.isFinish) = u.takeWhile (!·.isFinish) ++ rest := by
    rw [List.takeWhile_append]
    split
    case isTrue whole =>
      have all := (List.takeWhile_prefix (fun t : Token => !t.isFinish)).eq_of_length whole
      exact ⟨_, by rw [all]⟩
    case isFalse => exact ⟨[], by simp⟩
  unfold build
  rw [more]
  exact grow_prefix g _ _ _ rest

end Chart

namespace Parser

open Chart

def statesAfter (p : Parser) (tokens : List Token) : Array State :=
  match (run tokens).run p with
  | .ok _ q => q.states
  | .error _ q => q.states

theorem statesAfter_eq (p : Parser) (tokens : List Token) :
    p.statesAfter tokens = match p.states.isEmpty, p.grammar.start with
      | true, some start => (build p.grammar start tokens).1
      | _, _ => p.states := by
  by_cases fresh : p.states = #[]
  · cases starts : p.grammar.start with
    | none => simp [statesAfter, run_eq_noStartRule p tokens fresh starts, fresh]
    | some start => simp [statesAfter, run_eq p tokens fresh starts, fresh]
  · simp [statesAfter, run_eq_alreadyRun p tokens fresh, fresh]

/-- What a parser builds for some tokens begins with what it builds for the first of them. The states are the same as
if they were kept in one table and changed in place; then closing a state changes no other, and a scan from the last
state changes none and adds one. -/
theorem states_frozen (p : Parser) (reachable : Reachable p.grammar) :
    (∀ u v, (p.statesAfter u).toList <+: (p.statesAfter (u ++ v)).toList) ∧
    (∀ start tokens, p.grammar.start = some start →
      Checked.build (fun _ => true) p.grammar start tokens = some (build p.grammar start tokens)) ∧
    (∀ fits states states' j, Checked.close fits p.grammar states j = some states' →
      states'.size = states.size ∧ ∀ i, i ≠ j → states'[i]? = states[i]?) ∧
    ∀ fits states states' j t, j + 1 = states.size → Checked.scan? fits p.grammar states j t = some (some states') →
      ∃ opened, states' = states.push opened := by
  refine ⟨fun u v => ?_, fun start tokens starts => ?_, fun fits states states' j closes => ?_,
    fun fits states states' j t last scans => Checked.scan?_appends last scans⟩
  · simp only [statesAfter_eq]
    split
    · exact build_prefix p.grammar _ u v
    · exact List.prefix_rfl
  · exact Checked.build_eq ⟨by simp, by simp, by simp⟩ reachable.inScope reachable.analyzed
      (reachable.inScope.start starts) ⟨by simp, fun _ _ _ => rfl⟩
  · have only := Checked.close_onlyAt closes
    exact ⟨only.size, only.others⟩

/-- The state before a letter that a rule which derives itself accepts. -/
theorem states_loopGrammar_frozen :
    let p : Parser := .new loopGrammar {}
    (p.statesAfter []).toList <+: (p.statesAfter [.ofChar 'a']).toList ∧ (p.statesAfter []).size = 1 ∧
      (p.statesAfter [.ofChar 'a']).size = 2 :=
  ⟨(states_frozen (.new loopGrammar {}) loopGrammar_reachable).1 [] [.ofChar 'a'], by decide +kernel, by decide +kernel⟩

end Parser

end Earley
