import Earley.Chart.Worklist
import Earley.Proofs.ChartChecked
import Earley.Proofs.Recognition

/-!
# Closing a state ends

However far the loop that closes a state has come, the state holds no key twice and none out of bounds, so the loop
has a number of turns that is known beforehand. It goes on to the state that the run leaves behind
(`Parser.closing_ends`).
-/

namespace Earley

namespace Chart

variable {g : Grammar} {start : RuleId} {input : List Token} {past states : Array State} {s s' : State} {i i' : Nat}

/-- Turns keep what holds of a growing state. -/
theorem Serves.grown (analyzed : g.Analyzed) (old : PastValid g input past) (h : Growing g input past s)
    (run : Serves g past s i s' i') : GrownFrom g input past s s' := by
  induction run with
  | here => exact h.refl
  | turn left _ ih =>
    have first := (h.serve analyzed old (Array.getElem?_eq_getElem left)).1
    exact first.trans (ih first.growing)

/-- A turn serves an item that is there, so no more items are served than there are. -/
theorem Serves.served_le (analyzed : g.Analyzed) (old : PastValid g input past) (h : Growing g input past s)
    (run : Serves g past s i s' i') (inside : i ≤ s.items.size) : i' ≤ s'.items.size := by
  induction run with
  | here => exact inside
  | turn left _ ih =>
    have first := (h.serve analyzed old (Array.getElem?_eq_getElem left)).1
    exact ih first.growing (Nat.le_trans (Nat.succ_le_of_lt left) first.more.size_le)

/-- There is one turn to take at most, so of two runs of the loop one continues the other. -/
theorem Serves.linear {a b : State} {m n : Nat} (h : Serves g past s i a m) (k : Serves g past s i b n) :
    Serves g past a m b n ∨ Serves g past b n a m := by
  induction h with
  | here => exact .inl k
  | turn left rest ih =>
    cases k with
    | here => exact .inr (.turn left rest)
    | turn _ rest' => exact ih rest'

/-- Once all items are served there is no further turn. -/
theorem Serves.eq_of_done (h : Serves g past s s.items.size s' i') : s' = s ∧ i' = s.items.size := by
  cases h with
  | here => exact ⟨rfl, rfl⟩
  | turn left => exact absurd left (Nat.lt_irrefl _)

/-- The loop is done where it has reached the number of items. -/
theorem serves_done (inside : i ≤ s.items.size) (outside : ¬ i < s.items.size) : Serves g past s i s s.items.size := by
  rw [Nat.le_antisymm inside (Nat.le_of_not_lt outside)]
  exact .here

/-- What is served by counting down are turns until no item is left. -/
theorem serves_serveFrom (analyzed : g.Analyzed) (old : PastValid g input past) {fuel : Nat}
    (h : Growing g input past s) (inside : i ≤ s.items.size) (enough : g.keyBound past.size ≤ fuel + i) :
    Serves g past s i (serveFrom g past fuel s i) (serveFrom g past fuel s i).items.size := by
  induction fuel generalizing s i with
  | zero =>
    apply serves_done inside
    have room := h.size_le
    omega
  | succ fuel ih =>
    unfold serveFrom
    by_cases left : i < s.items.size
    · rw [if_pos left]
      have first := (h.serve analyzed old (Array.getElem?_eq_getElem left)).1
      apply Serves.turn left
      apply ih first.growing
      · exact Nat.le_trans (Nat.succ_le_of_lt left) first.more.size_le
      · omega
    · rw [if_neg left]
      exact serves_done inside left

/-- A run of the loop goes on to the closed state. -/
theorem Serves.finish (analyzed : g.Analyzed) (old : PastValid g input past) (h : Growing g input past s)
    (run : Serves g past s 0 s' i') : Serves g past s' i' (close g past s) (close g past s).items.size := by
  have whole := serves_serveFrom analyzed old h (Nat.zero_le _) (Nat.le_add_right (g.keyBound past.size) 0)
  rcases run.linear whole with later | earlier
  · exact later
  · obtain ⟨rfl, rfl⟩ := earlier.eq_of_done
    exact .here

theorem ItemKey.Valid.inBounds {j : Nat} {key : ItemKey} (h : key.Valid g j) : key.InBounds g j := by
  refine ⟨h.origin_le, ?_⟩
  cases h with
  | @dotted owner dot origin walks place begun =>
    cases owner with
    | group k => exact walks.elim
    | rule r n =>
      obtain ⟨d, known, chosen⟩ := walks.production
      exact ⟨_, by simpa [Grammar.productions, known] using chosen, place, rfl⟩
    | iteration k =>
      obtain ⟨d, known⟩ := walks
      exact ⟨d, known, symbolsOf_iteration known ▸ place, rfl⟩
  | @group k d origin count key known counted begun member =>
    have bound : count ≤ if d.max = 0 then max d.min.toNat 1 else d.max.toNat := by
      simpa [GroupDef.countBound, GroupDef.isUnbounded] using counted
    rcases mem_groupKeys.mp member with ⟨-, rfl⟩ | ⟨-, rfl⟩ <;> exact ⟨d, known, rfl, bound⟩

theorem Growing.inBounds (h : Growing g input past s) : s.InBounds g past.size := by
  refine ⟨fun item member => ?_, h.coherent.nodup_keys, h.size_le⟩
  obtain ⟨i, found⟩ := Array.mem_iff_getElem?.mp member
  exact (h.items found).key.inBounds

structure ClosedAt (g : Grammar) (start : RuleId) (input : List Token) (states : Array State) (j : Nat)
    (s : State) : Prop where
  opened : opened? g start input states j = some s
  past : PastValid g input (states.take j)
  growing : Growing g input (states.take j) s
  closed : states[j]? = some (close g (states.take j) s)

theorem ClosedAt.lt_size {j : Nat} {opened : State} (h : ClosedAt g start input states j opened) : j < states.size :=
  (Array.getElem?_eq_some_iff.mp h.closed).1

theorem take_push_of_le (states : Array State) (s : State) {j : Nat} (le : j ≤ states.size) :
    (states.push s).take j = states.take j := by
  apply Array.toList_inj.mp
  simp [le]

theorem opened?_push {j : Nat} (le : j ≤ states.size) :
    opened? g start input (states.push s) j = opened? g start input states j := by
  cases j with
  | zero => rfl
  | succ j => simp only [opened?, getElem?_push_lt s (Nat.lt_of_succ_le le)]

/-- States that follow do not matter. -/
theorem ClosedAt.push {j : Nat} {opened : State} (h : ClosedAt g start input states j opened) (s : State) :
    ClosedAt g start input (states.push s) j opened := by
  have less := h.lt_size
  have same := take_push_of_le states s (Nat.le_of_lt less)
  exact ⟨(opened?_push (Nat.le_of_lt less)).trans h.opened, same ▸ h.past, same ▸ h.growing,
    by rw [getElem?_push_lt s less, same]; exact h.closed⟩

/-- The last state, closed. -/
theorem closedAt_last {opened : State} (open? : opened? g start input past past.size = some opened)
    (valid : PastValid g input past) (growing : Growing g input past opened) :
    ClosedAt g start input (past.push (close g past opened)) past.size opened := by
  have same : (past.push (close g past opened)).take past.size = past :=
    (take_push_of_le past _ (Nat.le_refl _)).trans (by simp)
  exact ⟨(opened?_push (Nat.le_refl _)).trans open?, same.symm ▸ valid, same.symm ▸ growing,
    by rw [same]; exact getElem?_push_size past _⟩

def ClosedAll (g : Grammar) (start : RuleId) (input : List Token) (states : Array State) : Prop :=
  ∀ j < states.size, ∃ opened, ClosedAt g start input states j opened

theorem ClosedAll.push {opened : State} (h : ClosedAll g start input past)
    (last : ClosedAt g start input (past.push (close g past opened)) past.size opened) :
    ClosedAll g start input (past.push (close g past opened)) := by
  intro j inside
  rw [Array.size_push] at inside
  by_cases earlier : j < past.size
  · obtain ⟨opened', closed⟩ := h j earlier
    exact ⟨opened', closed.push _⟩
  · obtain rfl : j = past.size := by omega
    exact ⟨opened, last⟩

/-- Reading on opens each state by the token before it. -/
theorem ClosedAll.grow {last : State} {rest : List Token} (analyzed : g.Analyzed)
    (h : ClosedAll g start input (past.push last)) (valid : PastValid g input (past.push last))
    (left : input.drop past.size = rest) : ClosedAll g start input (grow g past last rest).1 := by
  induction rest generalizing past last with
  | nil => exact h
  | cons t rest ih =>
    obtain ⟨read, left⟩ := getElem?_of_drop left
    unfold Chart.grow
    rcases scan?_cases valid read with ⟨none, -⟩ | ⟨next, some, growing, -, -⟩
    · rw [none]
      exact h
    · rw [some]
      have open? : opened? g start input (past.push last) (past.push last).size = .some next := by
        simp [opened?, read, some]
      have last := closedAt_last open? valid growing
      have grown := (growing.close analyzed valid).1
      exact ih (h.push last) (valid.push grown.growing) (by simpa using left)

theorem build_closedAll (analyzed : g.Analyzed) (start : RuleId) (tokens : List Token) :
    ClosedAll g start (tokens.takeWhile (!·.isFinish)) (build g start tokens).1 := by
  have growing := (firstState_growing g start (tokens.takeWhile (!·.isFinish))).1
  have nothing : PastValid g (tokens.takeWhile (!·.isFinish)) #[] := ⟨by simp, by simp⟩
  have first : ClosedAt g start _ (Array.push #[] (close g #[] (firstState g start))) 0 (firstState g start) :=
    closedAt_last rfl nothing growing
  have none : ClosedAll g start (tokens.takeWhile (!·.isFinish)) #[] := fun j inside => absurd inside (Nat.not_lt_zero j)
  exact (none.push first).grow analyzed (nothing.push (growing.close analyzed nothing).1.growing) rfl

end Chart

namespace Parser

open Chart

/-- A run comes to an end, and so does the loop that closes each of its states: wherever the loop is, the items of the
state are in bounds and all different, it has taken no more turns than there are keys, and it goes on to the state that
the run leaves behind, with nothing left to serve. -/
theorem closing_ends (p : Parser) (start : RuleId) (tokens : List Token) (reachable : Reachable p.grammar)
    (fresh : p.states = #[]) (starts : p.grammar.start = some start) :
    ∃ outcome p', (run tokens).run p = .ok outcome p' ∧ ∀ j s, p'.states[j]? = some s →
      ∃ opened, opened? p.grammar start (tokens.takeWhile (!·.isFinish)) p'.states j = some opened ∧
        ∀ s' i, Serves p.grammar (p'.states.take j) opened 0 s' i →
          s'.InBounds p.grammar j ∧ i ≤ p.grammar.keyBound j ∧
            Serves p.grammar (p'.states.take j) s' i s s.items.size := by
  refine ⟨_, _, run_eq p tokens fresh starts, fun j s found => ?_⟩
  have inside := (Array.getElem?_eq_some_iff.mp found).1
  obtain ⟨opened, h⟩ := build_closedAll reachable.analyzed start tokens j inside
  refine ⟨opened, h.opened, fun s' i turns => ?_⟩
  have size : ((build p.grammar start tokens).1.take j).size = j := by
    simpa using Nat.le_of_lt inside
  have bounds := (turns.grown reachable.analyzed h.past h.growing).growing.inBounds
  have served := turns.served_le reachable.analyzed h.past h.growing (Nat.zero_le _)
  rw [size] at bounds
  cases found.symm.trans h.closed
  exact ⟨bounds, Nat.le_trans served bounds.size, turns.finish reachable.analyzed h.past h.growing⟩

/-- A rule of itself and of a group without a bound, whose repetitions are groups without a bound. -/
def nestGrammar : Grammar :=
  let calls : List Call := [.rule "nest", .group [.usage (.terminal (.ofChar 'a'))] 0 0, .group [.group ⟨0⟩] 2 0,
    .addProduction ⟨2⟩ [.rule ⟨2⟩], .addProduction ⟨2⟩ [.group ⟨1⟩], .setStart ⟨2⟩]
  calls.foldl (fun g c => c.after g) (.empty false)

/-- Both states before and after a letter hold more items than were opened. -/
theorem closing_nestGrammar_ends :
    ∃ outcome p', (run [.ofChar 'a']).run (.new nestGrammar {}) = .ok outcome p' ∧
      p'.states.map (·.items.size) = #[13, 14] ∧ ∀ j s, p'.states[j]? = some s →
        ∃ opened, opened? nestGrammar ⟨2⟩ [.ofChar 'a'] p'.states j = some opened ∧
          ∀ s' i, Serves nestGrammar (p'.states.take j) opened 0 s' i →
            s'.InBounds nestGrammar j ∧ i ≤ nestGrammar.keyBound j ∧
              Serves nestGrammar (p'.states.take j) s' i s s.items.size := by
  have reachable : Reachable nestGrammar := reachable_foldl (.empty false) _
  have starts : nestGrammar.start = some ⟨2⟩ := by decide +kernel
  obtain ⟨outcome, p', ran, ends⟩ := closing_ends (.new nestGrammar {}) ⟨2⟩ [.ofChar 'a'] reachable rfl starts
  refine ⟨outcome, p', ran, ?_, ends⟩
  cases (run_eq (.new nestGrammar {}) [.ofChar 'a'] rfl starts).symm.trans ran
  decide +kernel

end Parser

end Earley
