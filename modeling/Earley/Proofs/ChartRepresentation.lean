import Earley.Proofs.ForestCycles
import Earley.Proofs.ForestLinks
import Earley.Proofs.ForestTrees

/-!
# What a chart represents

The state of a finished chart in terms of its own data. The lists beside the items of a state agree with the items.
Every item stands in its production, and the chains of links behind it lead, one step at a time, through items of the
same owner and origin to one item without links, which is the item's start.
-/

namespace Earley

namespace Chart

/-- Chains of links that lead from an item back to an earlier one. -/
inductive LeadsTo (states : Array State) (first : ItemRef) : ItemRef → Prop where
  | here : LeadsTo states first first
  | step {ref : ItemRef} {item : Item} {link : Link} (found : itemAt states ref = some item)
      (member : link ∈ item.links) (before : LeadsTo states first link.previous) : LeadsTo states first ref

/-- The first key is one step to the left of the second: before one more symbol of the same production, or with one
repetition less behind the same group. -/
structure StepLeft (g : Grammar) (previous key : ItemKey) : Prop where
  owner : previous.owner = key.owner
  origin : previous.origin = key.origin
  place : match key.owner with
    | .group k => previous.dot = key.dot ∧ ∃ d, g.group? k = some d ∧ d.nextCount previous.count = key.count
    | _ => previous.dot + 1 = key.dot ∧ previous.count = key.count

/-- What an item's reference to its start says: the item there has no links and the same owner, it is in the state
that the item began in, and it is the only item without links that links lead back to. -/
structure StartsWith (states : Array State) (ref : ItemRef) (item : Item) : Prop where
  state : item.start.state = item.key.origin
  first : ∃ start, itemAt states item.start = some start ∧ start.links = #[] ∧ start.key.owner = item.key.owner ∧
    start.key.origin = item.key.origin
  leads : LeadsTo states item.start ref
  unique : ∀ {other start}, itemAt states other = some start → start.links = #[] → LeadsTo states other ref →
    other = item.start

structure ItemSound (g : Grammar) (states : Array State) (j i : Nat) (item : Item) : Prop where
  origin : item.key.origin ≤ j
  dot : item.key.dot ≤ (g.symbolsOf item.key.owner).length
  opening : item.links = #[] ↔ item.key.dot = 0 ∧ item.key.count = 0
  link : ∀ {l}, l ∈ item.links → ∃ previous, itemAt states l.previous = some previous ∧
    StepLeft g previous.key item.key ∧ ChildValid g states j l.previous.state previous.key l.child
  start : StartsWith states ⟨j, i⟩ item

/-- State number `j` of a chart is what it should be: its keys differ, its lists agree with its items, and so do the
items with those that they refer to. -/
structure StateSound (g : Grammar) (states : Array State) (j : Nat) (s : State) : Prop extends s.Coherent where
  distinct : (s.items.toList.map (·.key)).Nodup
  items : ∀ {i item}, s.items[i]? = some item → ItemSound g states j i item

variable {g : Grammar} {input : List Token} {states : Array State}

theorem ItemKey.Valid.dot_le {j : Nat} {key : ItemKey} (h : key.Valid g j) :
    key.dot ≤ (g.symbolsOf key.owner).length := by
  cases h with
  | dotted _ place => exact place
  | group _ _ _ member => rcases mem_groupKeys.mp member with ⟨-, rfl⟩ | ⟨-, rfl⟩ <;> exact Nat.zero_le _

theorem firstKey_opening (g : Grammar) (key : ItemKey) :
    (firstKey g key).owner = key.owner ∧ (firstKey g key).origin = key.origin ∧ (firstKey g key).dot = 0 ∧
      (firstKey g key).count = 0 := by
  unfold firstKey
  split
  case isTrue first => exact ⟨rfl, rfl, first⟩
  case isFalse => split <;> simp_all [Grammar.dottedKey]

/-- Every step leads one place to the right. -/
theorem ItemKey.Valid.stepLeft {i : Nat} {key key' : ItemKey} (h : key.Valid g i) (member : key' ∈ g.nextKeys key) :
    StepLeft g key key' := by
  cases h with
  | @dotted owner dot origin walks =>
    rw [nextKeys_dotted walks] at member
    rw [List.mem_singleton.mp member]
    cases owner with
    | group k => exact walks.elim
    | _ => exact ⟨rfl, rfl, rfl, rfl⟩
  | @group k d origin count key known _ _ inside =>
    rcases mem_groupKeys.mp inside with ⟨-, rfl⟩ | ⟨-, rfl⟩ <;> simp only [Grammar.nextKeys, known] at member <;>
      rcases mem_groupKeys.mp member with ⟨-, rfl⟩ | ⟨-, rfl⟩ <;> exact ⟨rfl, rfl, rfl, d, known, rfl⟩

/-- Links lead back inside one derivation. -/
theorem LeadsTo.firstKey_eq (h : PastValid g input states) {first ref : ItemRef} (leads : LeadsTo states first ref)
    {start item : Item} (found : itemAt states first = some start) (found' : itemAt states ref = some item) :
    firstKey g start.key = firstKey g item.key := by
  induction leads generalizing item with
  | here => cases found.symm.trans found'; rfl
  | step place member before ih =>
    cases place.symm.trans found'
    obtain ⟨previous, at', linked, -⟩ := linked_previous h found' member
    obtain ⟨part, steps⟩ := linked.child.part?
    exact (ih at').trans (firstKey_next linked.valid steps linked.next).symm

/-- A step back leaves the state or has less of it behind. -/
theorem exists_leadsTo (h : PastValid g input states) {ref : ItemRef} {item : Item}
    (found : itemAt states ref = some item) :
    ∃ first start, LeadsTo states first ref ∧ itemAt states first = some start ∧ start.links = #[] := by
  by_cases opening : item.links = #[]
  · exact ⟨ref, item, .here, found, opening⟩
  · obtain ⟨link, member⟩ := Array.exists_mem_of_ne_empty _ opening
    obtain ⟨previous, found', linked, -, -, le⟩ := linked_previous h found member
    obtain ⟨part, steps⟩ := linked.child.part?
    have less : link.previous.state < ref.state ∨
        link.previous.state = ref.state ∧ previous.key.dot + previous.key.count < item.key.dot + item.key.count := by
      rcases Nat.lt_or_eq_of_le le with before | same
      · exact .inl before
      · exact .inr ⟨same, progress_next linked.valid steps linked.next (linked.moved same)⟩
    obtain ⟨first, start, leads, begins⟩ := exists_leadsTo h found'
    exact ⟨first, start, .step found member leads, begins⟩
  termination_by (ref.state, item.key.dot + item.key.count)
  decreasing_by
    rcases less with before | ⟨same, fewer⟩
    · exact Prod.Lex.left _ _ before
    · rw [same]
      exact Prod.Lex.right _ fewer

/-- An item without links that links lead back to is the start. -/
theorem LeadsTo.eq_start (h : PastValid g input states) {first ref : ItemRef} (leads : LeadsTo states first ref)
    {start item : Item} (found : itemAt states first = some start) (found' : itemAt states ref = some item)
    (opening : start.links = #[]) : first = item.start := by
  have valid := h.itemAt found
  have valid' := h.itemAt found'
  have key : start.key = firstKey g item.key := by
    rw [← leads.firstKey_eq h found found', firstKey, if_pos (valid.opening.mp opening)]
  have state : first.state = item.start.state := by
    rw [← valid.origin opening, key, (firstKey_opening g item.key).2.1, valid'.begun.1]
  exact HasKey.unique h ⟨start, found, key⟩ valid'.begun.2 state

theorem PastValid.startsWith (h : PastValid g input states) {ref : ItemRef} {item : Item}
    (found : Chart.itemAt states ref = some item) : StartsWith states ref item := by
  have valid := h.itemAt found
  obtain ⟨start, begins, same⟩ := valid.begun.2
  obtain ⟨owner, origin, dot, count⟩ := firstKey_opening g item.key
  rw [← same] at owner origin dot count
  refine ⟨valid.begun.1, ?_, ?_, fun found' opening leads => leads.eq_start h found' found opening⟩
  · exact ⟨start, begins, (h.itemAt begins).opening.mpr ⟨dot, count⟩, owner, origin⟩
  · obtain ⟨first, other, leads, found', opening⟩ := exists_leadsTo h found
    rw [← leads.eq_start h found' found opening]
    exact leads

theorem PastValid.stateSound (h : PastValid g input states) {j : Nat} {s : State} (state : states[j]? = some s) :
    StateSound g states j s := by
  refine ⟨h.coherent state, (h.coherent state).nodup_keys, ?_⟩
  intro i item place
  have found : Chart.itemAt states ⟨j, i⟩ = some item := Option.bind_eq_some_iff.mpr ⟨s, state, place⟩
  have valid := h.itemAt found
  refine ⟨valid.key.origin_le, valid.key.dot_le, valid.opening, fun member => ?_, h.startsWith found⟩
  obtain ⟨previous, found', linked, -⟩ := linked_previous h found member
  exact ⟨previous, found', linked.valid.stepLeft linked.next, linked.child⟩

end Chart

namespace Parser

open Chart

/-- A run either lacks a start rule or ends with states that are what they should be. -/
theorem run_states_sound (p : Parser) (tokens : List Token) (reachable : Reachable p.grammar)
    (fresh : p.states = #[]) :
    (p.grammar.start = none ∧ (run tokens).run p = .error .noStartRule p) ∨
      ∃ outcome p', (run tokens).run p = .ok outcome p' ∧
        ∀ {j s}, p'.states[j]? = some s → StateSound p.grammar p'.states j s := by
  cases starts : p.grammar.start with
  | none => exact .inl ⟨rfl, run_eq_noStartRule p tokens fresh starts⟩
  | some start =>
    obtain ⟨charted, -⟩ := build_charted reachable.analyzed start tokens
    exact .inr ⟨_, _, run_eq p tokens fresh starts, charted.valid.stateSound⟩

theorem run_loopGrammar_states_sound :
    ∃ outcome p', (run [.ofChar 'a']).run (.new loopGrammar {}) = .ok outcome p' ∧ p'.states.size = 2 ∧
      ∀ {j s}, p'.states[j]? = some s → StateSound loopGrammar p'.states j s := by
  obtain ⟨none, -⟩ | ⟨outcome, p', ran, sound⟩ :=
    run_states_sound (.new loopGrammar {}) [.ofChar 'a'] loopGrammar_reachable rfl
  · cases none.symm.trans loopGrammar_start
  · refine ⟨outcome, p', ran, ?_, sound⟩
    rw [run_eq (.new loopGrammar {}) [.ofChar 'a'] rfl loopGrammar_start] at ran
    cases ran
    decide +kernel

end Parser

end Earley
