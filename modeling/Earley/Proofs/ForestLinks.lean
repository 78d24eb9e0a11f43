import Earley.Proofs.ForestGoals

/-!
# Different links, different trees

An item is reached through each of its links by answers that no other link gives: the last child tells where the
link came from and what it stepped over, and the number of children tells the count of a group. Likewise no two
completed items share a tree.
-/

namespace Earley

namespace Chart

variable {g : Grammar} {input : List Token}

/-- An item that is done is known by what it recognizes, where it began and the trees behind it. -/
theorem key_eq_of_complete {i i' j : Nat} {key key' : ItemKey} {target target' : Target} {ts : List Tree}
    {p p' : Penalty} (valid : key.Valid g i) (valid' : key'.Valid g i') (done : key.op = .complete target)
    (done' : key'.op = .complete target') (behind : Behind g input key j ts p) (behind' : Behind g input key' j ts p')
    (owner : key.owner = key'.owner) (origin : key.origin = key'.origin) : key = key' := by
  cases valid with
  | @dotted own dot begin walks place =>
    cases valid' with
    | @dotted own' dot' begin' walks' place' =>
      dsimp only [Grammar.dottedKey] at owner origin
      subst owner origin
      rw [(complete_dotted place done).1, (complete_dotted place' done').1]
    | group _ _ _ member =>
      rcases mem_groupKeys.mp member with ⟨-, rfl⟩ | ⟨-, rfl⟩ <;> dsimp only [Grammar.dottedKey] at owner <;>
        rw [owner] at walks <;> exact walks.elim
  | @group k d begin count key known counted begun member =>
    rcases mem_groupKeys.mp member with ⟨-, rfl⟩ | ⟨-, rfl⟩
    · cases done
    · cases valid' with
      | @dotted own' dot' begin' walks' place' =>
        dsimp only [Grammar.dottedKey] at owner
        rw [← owner] at walks'
        exact walks'.elim
      | @group k' d' begin' count' key' known' counted' begun' member' =>
        rcases mem_groupKeys.mp member' with ⟨-, rfl⟩ | ⟨-, rfl⟩
        · cases done'
        · cases owner
          cases origin
          obtain ⟨e, found, clamped, -⟩ := behind
          obtain ⟨e', found', clamped', -⟩ := behind'
          cases found.symm.trans found'
          dsimp only at clamped clamped'
          rw [clamped, clamped']

/-- A group item that has something to step over predicts a repetition. -/
theorem ItemKey.Valid.group_eq {i : Nat} {key : ItemKey} {part : Part} {k : GroupId} (valid : key.Valid g i)
    (steps : key.op.part? = some part) (owner : key.owner = .group k) :
    ∃ d, g.group? k = some d ∧ key = ⟨.group k, 0, key.origin, key.count, .predict (.iteration k)⟩ := by
  cases valid with
  | dotted walks =>
    dsimp only [Grammar.dottedKey] at owner
    rw [owner] at walks
    exact walks.elim
  | group known _ _ member =>
    rcases mem_groupKeys.mp member with ⟨-, rfl⟩ | ⟨-, rfl⟩
    · cases owner
      exact ⟨_, known, rfl⟩
    · cases steps

theorem previous_dotted {m : Nat} {key previous : ItemKey} (valid : previous.Valid g m)
    (next : key ∈ g.nextKeys previous) (plain : ∀ k, key.owner ≠ .group k) :
    previous = g.dottedKey key.owner (key.dot - 1) key.origin := by
  have owner := next_owner next
  cases valid with
  | dotted walks =>
    rw [nextKeys_dotted walks] at next
    rw [List.mem_singleton.mp next]
    rfl
  | group _ _ _ member =>
    rcases mem_groupKeys.mp member with ⟨-, rfl⟩ | ⟨-, rfl⟩ <;> exact absurd owner (plain _)

/-- The item before another is known by the count it has, if it is a group, and by itself if not. -/
theorem previous_eq {m m' : Nat} {key previous previous' : ItemKey} {part part' : Part}
    (valid : previous.Valid g m) (valid' : previous'.Valid g m') (steps : previous.op.part? = some part)
    (steps' : previous'.op.part? = some part') (next : key ∈ g.nextKeys previous) (next' : key ∈ g.nextKeys previous')
    (counts : ∀ k, key.owner = .group k → previous.count = previous'.count) : previous = previous' := by
  by_cases whole : ∃ k, key.owner = .group k
  · obtain ⟨k, same⟩ := whole
    obtain ⟨-, -, shape⟩ := valid.group_eq steps ((next_owner next).symm.trans same)
    obtain ⟨-, -, shape'⟩ := valid'.group_eq steps' ((next_owner next').symm.trans same)
    rw [shape, shape', ← (next_origin valid next).1, ← (next_origin valid' next').1, counts k same]
  · have plain : ∀ k, key.owner ≠ .group k := fun k same => whole ⟨k, same⟩
    rw [previous_dotted valid next plain, previous_dotted valid' next' plain]

theorem Owner.nodeKind_injective {a b : Owner} (same : a.nodeKind = b.nodeKind) : a = b := by
  cases a <;> cases b <;> simp_all [nodeKind]

/-- A key has one place in a state. -/
theorem HasKey.unique {states : Array State} (valid : PastValid g input states) {a b : ItemRef} {key : ItemKey}
    (ha : HasKey states a key) (hb : HasKey states b key) (same : a.state = b.state) : a = b := by
  obtain ⟨item, found, rfl⟩ := ha
  obtain ⟨item', found', equal⟩ := hb
  obtain ⟨s, state, inside⟩ := Option.bind_eq_some_iff.mp found
  obtain ⟨s', state', inside'⟩ := Option.bind_eq_some_iff.mp found'
  rw [same] at state
  cases state.symm.trans state'
  have index := (valid.coherent state').unique inside inside' equal.symm
  cases a
  cases b
  simp_all

end Chart

namespace Forest

open Chart

variable {g : Grammar} {start : RuleId} {input : List Token} {states : Array State}

/-- No two completed items of a state share a tree. -/
theorem trees_distinct (valid : PastValid g input states) {a b : ItemRef} {x : Stem}
    (ha : Sound g input states (.trees a) x) (hb : Sound g input states (.trees b) x) (same : a.state = b.state) :
    a = b := by
  obtain ⟨item, target, s, found, done, behind, -, tree⟩ := ha
  obtain ⟨item', target', s', found', done', behind', -, tree'⟩ := hb
  have equal : nodeOf g item.key a.state s.penalty s.children = nodeOf g item'.key b.state s'.penalty s'.children :=
    Stem.single_inj (tree.symm.trans tree')
  simp only [nodeOf, Tree.node.injEq, Span.mk.injEq] at equal
  obtain ⟨kind, ⟨origin, -⟩, -, children⟩ := equal
  rw [← same, ← children] at behind'
  have key := key_eq_of_complete (valid.itemAt found).key (valid.itemAt found').key done done' behind behind'
    (Owner.nodeKind_injective kind) origin
  exact HasKey.unique valid ⟨item, found, rfl⟩ ⟨item', found', key.symm⟩ same

inductive Via (states : Array State) (D : Goal → Stem → Prop) (ref : ItemRef) (link : Link) : Stem → Prop where
  | pass {s : Stem} (child : link.child = .empty) (before : D (.stems link.previous) s) : Via states D ref link s
  | scan {s : Stem} {state : State} {t : Token} (child : link.child = .token) (here : states[ref.state]? = some state)
      (read : state.token = some t) (before : D (.stems link.previous) s) :
      Via states D ref link (s.extend (.leaf t (ref.state - 1)))
  | part {s x : Stem} {goal : Goal} (asks : childGoal ref.state link.child = some goal)
      (before : D (.stems link.previous) s) (inner : D goal x) : Via states D ref link (s.join x)

theorem Via.mono {D E : Goal → Stem → Prop} {ref : ItemRef} {link : Link} {x : Stem} (h : Via states D ref link x)
    (imp : ∀ goal s, D goal s → E goal s) : Via states E ref link x := by
  cases h with
  | pass child before => exact .pass child (imp _ _ before)
  | scan child here read before => exact .scan child here read (imp _ _ before)
  | part asks before inner => exact .part asks (imp _ _ before) (imp _ _ inner)

theorem Via.sound (h : Charted g start input states) {ref : ItemRef} {item : Item} {link : Link} {x : Stem}
    (found : itemAt states ref = some item) (member : link ∈ item.links)
    (via : Via states (Sound g input states) ref link x) : Sound g input states (.stems ref) x := by
  cases via with
  | pass child before => exact Sound.step h.valid h.read (.pass found member child) (by simpa using before)
  | scan child here read before =>
    exact Sound.step h.valid h.read (.scan found member child here read) (by simpa using before)
  | part asks before inner => exact Sound.step h.valid h.read (.part found member asks) (by simp [before, inner])

/-- An answer about what lies behind an item is nothing, or comes through a link. -/
theorem Derived.via {avoided : Set Goal} {ref : ItemRef} {item : Item} {y : Stem}
    (found : itemAt states ref = some item) (h : Derived g states avoided (.stems ref) y) :
    (item.links = #[] ∧ y = .empty) ∨
      ∃ link ∈ item.links, Via states (Derived g states (insert (.stems ref) avoided)) ref link y := by
  cases h with
  | step _ step each =>
    cases step with
    | start found' opening =>
      cases found.symm.trans found'
      exact .inl ⟨opening, rfl⟩
    | pass found' member child =>
      cases found.symm.trans found'
      exact .inr ⟨_, member, .pass child (each _ (List.mem_cons_self ..))⟩
    | scan found' member child here read =>
      cases found.symm.trans found'
      exact .inr ⟨_, member, .scan child here read (each _ (List.mem_cons_self ..))⟩
    | @part _ _ _ goal s x found' member asks =>
      cases found.symm.trans found'
      exact .inr ⟨_, member, .part asks (each _ (List.mem_cons_self ..)) (each (goal, x) (by simp))⟩

/-- What a link stepped over tells its kind of child. -/
theorem Via.shape (valid : PastValid g input states) {ref : ItemRef} {key previous : ItemKey} {link : Link} {x : Stem}
    (linked : LinkValid g states ref.state key link previous) (via : Via states (Sound g input states) ref link x) :
    (previous.op = .passEmpty ∧ link.child = .empty ∧ link.previous.state = ref.state) ∨
    (∃ u, previous.op = .scan u ∧ link.child = .token ∧ link.previous.state + 1 = ref.state) ∨
    ∃ target goal s t, previous.op = .predict target ∧ childGoal ref.state link.child = some goal ∧
      Sound g input states (.stems link.previous) s ∧ Sound g input states goal (.single t) ∧ x = s.join (.single t) ∧
      g.Parses input [target.part] link.previous.state ref.state [t] t.penalty := by
  have consumed := linked.child
  cases via with
  | pass child =>
    rw [child] at consumed
    cases consumed with
    | empty same op => exact .inl ⟨op, child, same⟩
  | scan child =>
    rw [child] at consumed
    cases consumed with
    | token next op => exact .inr (.inl ⟨_, op, child, next⟩)
  | part asks before inner =>
    obtain ⟨target, t, op, rfl, parsed, -⟩ := ChildValid.sound valid consumed asks inner
    exact .inr (.inr ⟨target, _, _, t, op, asks, before, inner, rfl, parsed⟩)

/-- The number of trees behind a group item tells its count. -/
theorem Sound.count_eq {ref : ItemRef} {key : ItemKey} {s : Stem} {k : GroupId} {d : GroupDef}
    (h : Sound g input states (.stems ref) s) (has : HasKey states ref key) (owner : key.owner = .group k)
    (known : g.group? k = some d) : key.count = d.clamp s.newestFirst.length := by
  obtain ⟨item, found, behind, -⟩ := h
  obtain ⟨item', found', rfl⟩ := has
  cases found.symm.trans found'
  simp only [Behind, owner] at behind
  obtain ⟨d', known', clamped, -⟩ := behind
  cases known.symm.trans known'
  simpa [Stem.children] using clamped

/-- Children that the same item asked for are the same if they give the same tree. -/
theorem child_eq (valid : PastValid g input states) {j m : Nat} {previous : ItemKey} {c c' : Child} {goal goal' : Goal}
    {x : Stem} (hc : ChildValid g states j m previous c) (hc' : ChildValid g states j m previous c')
    (asks : childGoal j c = some goal) (asks' : childGoal j c' = some goal') (sound : Sound g input states goal x)
    (sound' : Sound g input states goal' x) : c = c' := by
  cases hc with
  | token => cases asks
  | empty => cases asks
  | null same op =>
    cases hc' with
    | token => cases asks'
    | empty => cases asks'
    | null _ op' =>
      cases op.symm.trans op'
      rfl
    | completed before => omega
  | completed before op has here done origin =>
    cases hc' with
    | token => cases asks'
    | empty => cases asks'
    | null same => omega
    | completed _ op' has' here' done' origin' =>
      cases asks
      cases asks'
      rw [trees_distinct valid sound sound' (here.trans here'.symm)]

/-- Different links of an item lead to different children. -/
theorem links_distinct (valid : PastValid g input states) {ref : ItemRef} {item : Item} {a b : Link} {x y : Stem}
    (found : itemAt states ref = some item) (ha : a ∈ item.links) (hb : b ∈ item.links)
    (viaA : Via states (Sound g input states) ref a x) (viaB : Via states (Sound g input states) ref b y)
    (same : x.newestFirst = y.newestFirst) : a = b := by
  obtain ⟨previous, linkedA⟩ := (valid.itemAt found).link ha
  obtain ⟨previous', linkedB⟩ := (valid.itemAt found).link hb
  obtain ⟨part, steps⟩ := linkedA.child.part?
  obtain ⟨part', steps'⟩ := linkedB.child.part?
  have shapeA := viaA.shape valid linkedA
  have shapeB := viaB.shape valid linkedB
  have counts (k : GroupId) (owner : item.key.owner = .group k) : previous.count = previous'.count := by
    have ownerA := (next_owner linkedA.next).symm.trans owner
    have ownerB := (next_owner linkedB.next).symm.trans owner
    obtain ⟨d, known, key⟩ := linkedA.valid.group_eq steps ownerA
    obtain ⟨-, -, key'⟩ := linkedB.valid.group_eq steps' ownerB
    -- Both items predict a repetition, so both answers end with one.
    rw [key] at shapeA
    rw [key'] at shapeB
    obtain ⟨op, -⟩ | ⟨u, op, -⟩ | ⟨-, -, s, t, -, -, before, -, rfl, -⟩ := shapeA
    · cases op
    · cases op
    obtain ⟨op, -⟩ | ⟨u, op, -⟩ | ⟨-, -, s', t', -, -, before', -, rfl, -⟩ := shapeB
    · cases op
    · cases op
    have tails : s.newestFirst = s'.newestFirst := (List.cons.inj same).2
    rw [before.count_eq linkedA.has ownerA known, before'.count_eq linkedB.has ownerB known, tails]
  obtain rfl := previous_eq linkedA.valid linkedB.valid steps steps' linkedA.next linkedB.next counts
  have links_eq (state : a.previous.state = b.previous.state) (child : a.child = b.child) : a = b := by
    have place := HasKey.unique valid linkedA.has linkedB.has state
    cases a
    cases b
    simp_all
  obtain ⟨opA, childA, stateA⟩ | ⟨u, opA, childA, stateA⟩ |
    ⟨target, goal, s, t, opA, asks, -, inner, rfl, parsed⟩ := shapeA
  · obtain ⟨-, childB, stateB⟩ | ⟨u', opB, -⟩ | ⟨_, _, _, _, opB, -⟩ := shapeB
    · exact links_eq (stateA.trans stateB.symm) (childA.trans childB.symm)
    · cases opA.symm.trans opB
    · cases opA.symm.trans opB
  · obtain ⟨opB, -⟩ | ⟨u', -, childB, stateB⟩ | ⟨_, _, _, _, opB, -⟩ := shapeB
    · cases opA.symm.trans opB
    · exact links_eq (by omega) (childA.trans childB.symm)
    · cases opA.symm.trans opB
  · obtain ⟨opB, -⟩ | ⟨u', opB, -⟩ | ⟨target', goal', s', t', opB, asks', -, inner', rfl, parsed'⟩ := shapeB
    · cases opA.symm.trans opB
    · cases opA.symm.trans opB
    · cases opA.symm.trans opB
      obtain rfl : t = t' := (List.cons.inj same).1
      have state : a.previous.state = b.previous.state := by
        have := parsed.span_eq.1.symm.trans parsed'.span_eq.1
        simpa using this
      have consumed := linkedA.child
      rw [state] at consumed
      exact links_eq state (child_eq valid consumed linkedB.child asks asks' inner inner')

end Forest

end Earley
