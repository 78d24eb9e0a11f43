import Earley.Proofs.CanonicalTrees
import Earley.Proofs.ChartClosure

/-!
# From links to trees

Goals are reached from other goals by steps, one for each way of following a link, of finishing an item and of
answering for a target that derives nothing. What is answered by such steps is sound: it consists of canonical trees
of what the goal is about.
-/

namespace Earley

namespace Chart

variable {g : Grammar} {input : List Token}

theorem next_owner {key key' : ItemKey} (member : key' ∈ g.nextKeys key) : key'.owner = key.owner := by
  unfold Grammar.nextKeys at member
  split at member
  case h_1 k owner =>
    split at member
    · rcases mem_groupKeys.mp member with ⟨-, rfl⟩ | ⟨-, rfl⟩ <;> exact owner.symm
    · simp at member
  case h_2 =>
    rw [List.mem_singleton.mp member]
    rfl

/-- A group that still counts has not got all the repetitions of nothing that it needs. -/
theorem length_lt_of_not_saturated {i m : Nat} {key : ItemKey} {part : Part} {k : GroupId} {d : GroupDef}
    {ts : List Tree} {p : Penalty} (valid : key.Valid g i) (behind : Behind g input key m ts p)
    (steps : key.op.part? = some part) (owner : key.owner = .group k) (known : g.group? k = some d)
    (unbounded : d.isUnbounded = true) (counts : g.isSaturated key = false) : ts.length < max d.min.toNat 1 := by
  cases valid with
  | dotted walks =>
    dsimp only [Grammar.dottedKey] at owner
    rw [owner] at walks
    exact walks.elim
  | @group k' d' origin count key known' counted begun inside =>
    rcases mem_groupKeys.mp inside with ⟨more, rfl⟩ | ⟨-, rfl⟩
    · cases owner
      cases known.symm.trans known'
      obtain ⟨d'', known'', clamped, -⟩ := behind
      cases known.symm.trans known''
      dsimp only at clamped
      simp only [Grammar.isSaturated, known, Option.any_some, beq_eq_false_iff_ne, ne_eq] at counts
      rw [clamped, GroupDef.nextCount_clamp_eq_iff (clamped ▸ more)] at counts
      by_cases less : ts.length < max d.min.toNat 1
      · exact less
      · exact absurd ⟨unbounded, by omega⟩ counts
    · simp [Operation.part?] at steps

/-- A step that adds at most one canonical tree keeps what lies behind an item canonical. -/
theorem canonical_next {i m j : Nat} {key key' : ItemKey} {part : Part} {ts us : List Tree} {p q : Penalty}
    (valid : key.Valid g i) (behind : Behind g input key m ts p) (steps : key.op.part? = some part)
    (member : key' ∈ g.nextKeys key) (known : (nodeOf g key m p ts).Canonical g) (one : us.length ≤ 1)
    (fresh : ∀ t ∈ us, t.Canonical g ∧ (t.span.isEmpty = true → g.isSaturated key = false)) :
    (nodeOf g key' j q (ts ++ us)).Canonical g := by
  obtain ⟨frugal, below⟩ := Tree.canonical_iff.mp known
  refine Tree.canonical_iff.mpr ⟨?_, fun t inside => ?_⟩
  · intro k d kind found unbounded n child place narrow
    have owner : key.owner = .group k := by
      have kind : key'.owner.nodeKind = .group k := kind
      rw [next_owner member] at kind
      cases same : key.owner <;> simp [same, Owner.nodeKind] at kind
      rw [kind]
    have place : (ts ++ us)[n]? = some child := place
    by_cases early : n < ts.length
    · rw [List.getElem?_append_left early] at place
      exact frugal k d (by simp [nodeOf, Tree.kind, owner, Owner.nodeKind]) found unbounded n child place narrow
    · rw [List.getElem?_append_right (by omega)] at place
      have last := (List.getElem?_eq_some_iff.mp place).1
      have := length_lt_of_not_saturated valid behind steps owner found unbounded
        ((fresh child (List.mem_of_getElem? place)).2 narrow)
      omega
  · rcases List.mem_append.mp inside with old | new
    · exact below t old
    · exact (fresh t new).1

/-- Nothing lies behind an item that has no links. -/
theorem ItemValid.behind_opening {states : Array State} {j : Nat} {item : Item} (h : ItemValid g input states j item)
    (opening : item.links = #[]) : Behind g input item.key j [] 0 := by
  obtain ⟨dot, count⟩ := h.opening.mp opening
  have origin := h.origin opening
  have valid := h.key
  generalize item.key = key at *
  cases valid with
  | @dotted owner _ _ walks =>
    dsimp only [Grammar.dottedKey] at dot origin
    subst dot origin
    rw [behind_dotted walks]
    exact .nil
  | group known _ _ member =>
    rcases mem_groupKeys.mp member with ⟨-, rfl⟩ | ⟨-, rfl⟩ <;> dsimp only at count origin <;> subst count origin <;>
      exact ⟨_, known, by simp, .nil⟩

theorem PastValid.itemAt {states : Array State} (h : PastValid g input states) {ref : ItemRef} {item : Item}
    (found : itemAt states ref = some item) : ItemValid g input states ref.state item := by
  obtain ⟨s, state, inside⟩ := Option.bind_eq_some_iff.mp found
  exact h.items state inside

end Chart

/-- A target has one tree, which carries the whole penalty. -/
theorem Grammar.Parses.single_target {g : Grammar} {input : List Token} {target : Chart.Target} {i j : Nat}
    {ts : List Tree} {p : Penalty} (h : g.Parses input [target.part] i j ts p) : ∃ t, ts = [t] ∧ t.penalty = p := by
  have cost := h.penalty_eq
  cases target with
  | rule r => exact h.single_rule
  | group k => cases h with | group _ _ _ rest => cases rest; exact ⟨_, rfl, by simpa using cost.symm⟩
  | iteration k => cases h with | iteration _ _ rest => cases rest; exact ⟨_, rfl, by simpa using cost.symm⟩

/-- The tree of a single part spans what the part covers. -/
theorem Grammar.Parses.span_eq {g : Grammar} {input : List Token} {target : Chart.Target} {i j : Nat} {t : Tree}
    {p : Penalty} (h : g.Parses input [target.part] i j [t] p) : t.span = ⟨i, j⟩ ∧ t.penalty = p := by
  have cost := h.penalty_eq
  cases target with
  | rule r =>
    cases h with
    | rule _ _ _ rest => cases rest; exact ⟨rfl, by simpa using cost.symm⟩
    | bare _ _ rest => cases rest; exact ⟨rfl, by simpa using cost.symm⟩
  | group k => cases h with | group _ _ _ rest => cases rest; exact ⟨rfl, by simpa using cost.symm⟩
  | iteration k => cases h with | iteration _ _ rest => cases rest; exact ⟨rfl, by simpa using cost.symm⟩

namespace Forest

open Chart

namespace Stem

def single (t : Tree) : Stem := ⟨t.penalty, [t]⟩

def join (s x : Stem) : Stem := ⟨s.penalty + x.penalty, x.newestFirst ++ s.newestFirst⟩

@[simp] theorem children_join (s x : Stem) : (s.join x).children = s.children ++ x.children := by
  simp [join, children]

@[simp] theorem children_single (t : Tree) : (single t).children = [t] := rfl

@[simp] theorem children_empty : Stem.empty.children = [] := rfl

@[simp] theorem penalty_join (s x : Stem) : (s.join x).penalty = s.penalty + x.penalty := rfl

@[simp] theorem penalty_single (t : Tree) : (single t).penalty = t.penalty := rfl

theorem single_inj {t u : Tree} (same : single t = single u) : t = u :=
  (List.cons.inj (congrArg newestFirst same)).1

theorem extend_eq (s : Stem) (t : Tree) : s.extend t = s.join (single t) := rfl

@[simp] theorem join_empty (s : Stem) : s.join .empty = s := by
  simp [join, empty]

@[simp] theorem empty_join (s : Stem) : Stem.empty.join s = s := by
  simp [join, empty]

theorem join_assoc (s x y : Stem) : (s.join x).join y = s.join (x.join y) := by
  simp [join, Penalty.add_assoc]

theorem ext_children {s x : Stem} (cost : s.penalty = x.penalty) (same : s.children = x.children) : s = x := by
  obtain ⟨p, ts⟩ := s
  obtain ⟨q, us⟩ := x
  simp only [children, List.reverse_inj] at same
  simp_all

end Stem

def childGoal (state : Nat) : Child → Option Goal
  | .completed ref => some (.trees ref)
  | .null target => some (.nulls state target)
  | _ => none

inductive Step (g : Grammar) (states : Array State) : Goal → List (Goal × Stem) → Stem → Prop where
  | start {ref : ItemRef} {item : Item} (found : itemAt states ref = some item) (opening : item.links = #[]) :
      Step g states (.stems ref) [] .empty
  | pass {ref : ItemRef} {item : Item} {link : Link} {s : Stem} (found : itemAt states ref = some item)
      (member : link ∈ item.links) (child : link.child = .empty) :
      Step g states (.stems ref) [(.stems link.previous, s)] s
  | scan {ref : ItemRef} {item : Item} {link : Link} {s : Stem} {state : State} {t : Token}
      (found : itemAt states ref = some item) (member : link ∈ item.links) (child : link.child = .token)
      (here : states[ref.state]? = some state) (read : state.token = some t) :
      Step g states (.stems ref) [(.stems link.previous, s)] (s.extend (.leaf t (ref.state - 1)))
  | part {ref : ItemRef} {item : Item} {link : Link} {goal : Goal} {s x : Stem}
      (found : itemAt states ref = some item) (member : link ∈ item.links)
      (asks : childGoal ref.state link.child = some goal) :
      Step g states (.stems ref) [(.stems link.previous, s), (goal, x)] (s.join x)
  | tree {ref : ItemRef} {item : Item} {target : Target} {s : Stem} (found : itemAt states ref = some item)
      (done : item.key.op = .complete target) :
      Step g states (.trees ref) [(.stems ref, s)] (.single (nodeOf g item.key ref.state s.penalty s.children))
  | completion {ref : ItemRef} {item : Item} {target : Target} {x : Stem} (found : itemAt states ref = some item)
      (done : item.key.op = .complete target) (narrow : item.key.origin = ref.state) :
      Step g states (.nulls ref.state target) [(.trees ref, x)] x
  | bare {j : Nat} {r : RuleId} {d : RuleDef} (known : g.rule? r = some d) (childless : d.productions = []) :
      Step g states (.nulls j (.rule r)) [] (.single (.node (.rule r none) ⟨j, j⟩ d.penalty []))

def Sound (g : Grammar) (input : List Token) (states : Array State) : Goal → Stem → Prop
  | .stems ref, s => ∃ item, itemAt states ref = some item ∧
      Behind g input item.key ref.state s.children s.penalty ∧
      (nodeOf g item.key ref.state s.penalty s.children).Canonical g
  | .trees ref, x => ∃ (item : Item) (target : Target) (s : Stem), itemAt states ref = some item ∧
      item.key.op = .complete target ∧
      Behind g input item.key ref.state s.children s.penalty ∧
      (nodeOf g item.key ref.state s.penalty s.children).Canonical g ∧
      x = .single (nodeOf g item.key ref.state s.penalty s.children)
  | .nulls j target, x => ∃ t, x = .single t ∧ g.Parses input [target.part] j j [t] t.penalty ∧ t.Canonical g

variable {g : Grammar} {input : List Token} {states : Array State}

/-- Following a link adds at most one tree, of what the link stepped over. -/
theorem Sound.extend {ref : ItemRef} {item : Item} {link : Link} {previous : ItemKey} {part : Part} {s x : Stem}
    (found : itemAt states ref = some item) (linked : LinkValid g states ref.state item.key link previous)
    (steps : previous.op.part? = some part)
    (crossed : g.Parses input [part] link.previous.state ref.state x.children x.penalty) (one : x.children.length ≤ 1)
    (fresh : ∀ t ∈ x.children, t.Canonical g ∧ (t.span.isEmpty = true → link.previous.state = ref.state))
    (h : Sound g input states (.stems link.previous) s) : Sound g input states (.stems ref) (s.join x) := by
  obtain ⟨before, found', behind, canonical⟩ := h
  obtain ⟨before', found'', rfl⟩ := linked.has
  cases found'.symm.trans found''
  refine ⟨item, found, ?_, ?_⟩
  · rw [Stem.children_join]
    exact behind.next linked.valid steps crossed linked.next
  · rw [Stem.children_join]
    exact canonical_next linked.valid behind steps linked.next canonical one fun t inside =>
      ⟨(fresh t inside).1, fun narrow => linked.moved ((fresh t inside).2 narrow)⟩

/-- A sound answer about a completed item is a tree of its target. -/
theorem Sound.trees_parses (valid : PastValid g input states) {ref : ItemRef} {x : Stem}
    (h : Sound g input states (.trees ref) x) :
    ∃ item target t, itemAt states ref = some item ∧ item.key.op = .complete target ∧ x = .single t ∧
      g.Parses input [target.part] item.key.origin ref.state [t] t.penalty ∧ t.Canonical g := by
  obtain ⟨item, target, s, found, done, behind, canonical, rfl⟩ := h
  obtain ⟨same, parsed⟩ := behind.complete (valid.itemAt found).key done
  exact ⟨item, target, _, found, done, rfl, by simpa [nodeOf, Tree.penalty, same] using parsed, canonical⟩

/-- A sound answer to what a link asks for is a tree of what the link stepped over. -/
theorem ChildValid.sound (valid : PastValid g input states) {j m : Nat} {previous : ItemKey} {child : Child}
    {goal : Goal} {x : Stem} (consumed : ChildValid g states j m previous child) (asks : childGoal j child = some goal)
    (h : Sound g input states goal x) :
    ∃ target t, previous.op = .predict target ∧ x = .single t ∧ g.Parses input [target.part] m j [t] t.penalty ∧
      t.Canonical g := by
  cases consumed with
  | token => cases asks
  | empty => cases asks
  | @null target same op nullable =>
    cases asks
    obtain ⟨t, rfl, parsed, canonical⟩ := h
    exact ⟨target, t, op, rfl, same ▸ parsed, canonical⟩
  | @completed ref target key before op has here done origin =>
    cases asks
    obtain ⟨item, target', t, found, done', rfl, parsed, canonical⟩ := h.trees_parses valid
    obtain ⟨item', found', rfl⟩ := has
    cases found.symm.trans found'
    cases done.symm.trans done'
    rw [origin, here] at parsed
    exact ⟨target, t, op, rfl, parsed, canonical⟩

/-- Answers from sound answers are sound. -/
theorem Sound.step (valid : PastValid g input states) {goal : Goal} {premises : List (Goal × Stem)} {y : Stem}
    (read : ∀ {j : Nat} {s : State}, states[j + 1]? = some s → ∃ t, input[j]? = some t ∧ s.token = some t)
    (step : Step g states goal premises y) (each : ∀ x ∈ premises, Sound g input states x.1 x.2) :
    Sound g input states goal y := by
  cases step with
  | @start ref item found opening =>
    have known := valid.itemAt found
    exact ⟨item, found, known.behind_opening opening, Tree.canonical_childless⟩
  | @pass ref item link _ found member child =>
    obtain ⟨previous, linked⟩ := (valid.itemAt found).link member
    have consumed := linked.child
    rw [child] at consumed
    obtain ⟨same, op⟩ : link.previous.state = ref.state ∧ previous.op = .passEmpty := by
      cases consumed with | empty same op => exact ⟨same, op⟩
    rw [← Stem.join_empty y]
    refine Sound.extend found linked (by rw [op]; rfl) ?_ (by simp) (by simp) (each _ (List.mem_cons_self ..))
    rw [same]
    exact .empty .nil
  | @scan ref item link s state t found member child here token =>
    obtain ⟨previous, linked⟩ := (valid.itemAt found).link member
    have consumed := linked.child
    rw [child] at consumed
    cases consumed with
    | @token u t' state' next op here' token' accepted =>
      cases here.symm.trans here'
      cases token.symm.trans token'
      obtain ⟨t', found', token'⟩ := read (next.symm ▸ here)
      cases token.symm.trans token'
      rw [Stem.extend_eq, show ref.state - 1 = link.previous.state by omega]
      refine Sound.extend found linked (by rw [op]; rfl) ?_ (by simp) ?_ (each _ (List.mem_cons_self ..))
      · rw [← next]
        exact .usage found' accepted .nil
      · intro u inside
        rw [Stem.children_single, List.mem_singleton] at inside
        subst inside
        exact ⟨Tree.canonical_childless, by simp [Tree.leaf, Tree.span, Span.isEmpty]⟩
  | @part ref item link goal s x found member asks =>
    obtain ⟨previous, linked⟩ := (valid.itemAt found).link member
    have before := each _ (List.mem_cons_self ..)
    obtain ⟨target, t, op, rfl, crossed, canonical⟩ :=
      ChildValid.sound valid linked.child asks (each (goal, x) (by simp))
    refine Sound.extend found linked (by rw [op]; rfl) crossed (by simp) ?_ before
    intro u inside
    rw [Stem.children_single, List.mem_singleton] at inside
    subst inside
    refine ⟨canonical, fun narrow => ?_⟩
    simpa [crossed.span_eq.1, Span.isEmpty] using narrow
  | @tree ref item target s found done =>
    obtain ⟨item', found', behind, canonical⟩ := each _ (List.mem_cons_self ..)
    cases found.symm.trans found'
    exact ⟨item, target, s, found, done, behind, canonical, rfl⟩
  | @completion ref item target _ found done narrow =>
    obtain ⟨item', target', t, found', done', rfl, parsed, canonical⟩ :=
      Sound.trees_parses valid (each _ (List.mem_cons_self ..))
    cases found.symm.trans found'
    cases done.symm.trans done'
    rw [narrow] at parsed
    exact ⟨t, rfl, parsed, canonical⟩
  | @bare j r d known childless =>
    have parsed : g.Parses input [.symbol (.rule r)] j j [.node (.rule r none) ⟨j, j⟩ d.penalty []] (d.penalty + 0) :=
      .bare known childless .nil
    rw [Penalty.add_zero] at parsed
    exact ⟨_, rfl, parsed, Tree.canonical_childless⟩

end Forest

end Earley
