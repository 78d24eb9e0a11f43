import Earley.Proofs.Enclosure
import Earley.Proofs.ForestGoals

/-!
# Goals that lead back to themselves

On the way from a goal back to itself nothing is read, so all that is left aside derives nothing. And an item inside
its state has come only so far, so the way back leads through a completed item. What that item recognizes
therefore encloses itself, and the way back costs what stands around it. Where every rule encloses itself only at
a high penalty, all ways back are as dear.
-/

namespace Earley

namespace Chart

variable {g : Grammar} {input : List Token}

def Trail (g : Grammar) (key : ItemKey) (parts : List Part) : Prop :=
  match key.owner with
  | .group k => ∃ d n, g.group? k = some d ∧ key.count = d.clamp n ∧ parts = List.replicate n (.iteration k)
  | owner => parts = ((g.symbolsOf owner).take key.dot).map .symbol

theorem trail_dotted {owner : Owner} (walks : owner.Walks g) {dot origin : Nat} {parts : List Part} :
    Trail g (g.dottedKey owner dot origin) parts ↔ parts = ((g.symbolsOf owner).take dot).map .symbol := by
  cases owner with
  | group k => exact walks.elim
  | _ => rfl

theorem Behind.trail {key : ItemKey} {j : Nat} {ts : List Tree} {p : Penalty} (h : Behind g input key j ts p) :
    ∃ parts, Trail g key parts ∧ g.Parses input parts key.origin j ts p := by
  rcases key with ⟨owner | owner | owner, dot, origin, count, op⟩
  · exact ⟨_, rfl, h⟩
  · obtain ⟨d, known, counted, parsed⟩ := h
    exact ⟨_, ⟨d, _, known, counted, rfl⟩, parsed⟩
  · exact ⟨_, rfl, h⟩

theorem Trail.next {i : Nat} {key key' : ItemKey} {part : Part} {parts : List Part} (valid : key.Valid g i)
    (h : Trail g key parts) (steps : key.op.part? = some part) (member : key' ∈ g.nextKeys key) :
    Trail g key' (parts ++ [part]) := by
  cases valid with
  | @dotted owner dot origin walks place begun =>
    rw [nextKeys_dotted walks] at member
    rw [part?_dotted] at steps
    obtain ⟨s, here, rfl⟩ := Option.map_eq_some_iff.mp steps
    rw [trail_dotted walks] at h
    rw [List.mem_singleton.mp member, trail_dotted walks, List.take_add_one, here, List.map_append, h]
    rfl
  | @group k d origin count key known counted begun inside =>
    rcases mem_groupKeys.mp inside with ⟨more, rfl⟩ | ⟨-, rfl⟩
    · cases steps
      obtain ⟨d', n, known', clamped, rfl⟩ := h
      cases known.symm.trans known'
      dsimp only at clamped
      have count' : d.nextCount count = d.clamp (n + 1) := by
        rw [clamped, GroupDef.nextCount_clamp (clamped ▸ more)]
      simp only [Grammar.nextKeys, known] at member
      rcases mem_groupKeys.mp member with ⟨-, rfl⟩ | ⟨-, rfl⟩ <;>
        exact ⟨d, n + 1, known, count', List.replicate_succ'.symm⟩
    · simp [Operation.part?] at steps

/-- A production shows every one of its symbols to be enclosed where all others derive nothing. -/
theorem Owner.Walks.encloses {owner : Owner} (walks : owner.Walks g) {before after : List Symbol} {s : Symbol}
    {p q : Penalty} (split : g.symbolsOf owner = before ++ s :: after) (left : g.Derives before [] p)
    (right : g.Derives after [] q) :
    g.Encloses owner.target.part (.symbol s) (p + q + g.targetPenalty owner.target) := by
  cases owner with
  | group k => exact walks.elim
  | rule r n =>
    obtain ⟨d, known, chosen⟩ := walks.production
    rw [split] at chosen
    simpa [Grammar.targetPenalty, Grammar.rulePenalty, known, Owner.target, Target.part] using
      Grammar.Encloses.rule known (List.mem_of_getElem? chosen) left right
  | iteration k =>
    obtain ⟨d, known⟩ := walks
    rw [symbolsOf_iteration known] at split
    simpa [Grammar.targetPenalty, Owner.target, Target.part] using Grammar.Encloses.iteration known split left right

/-- Behind an item stands one part among others that derive nothing at the given penalty. -/
def Frames (g : Grammar) (key : ItemKey) (a : Part) (c : Penalty) : Prop :=
  ∃ before after p q, Trail g key (before ++ a :: after) ∧ g.Derives (before.flatMap g.partSymbols) [] p ∧
    g.Derives (after.flatMap g.partSymbols) [] q ∧ c = p + q

/-- After a step over the part, all parts before it stand around it. -/
theorem Behind.frames {i j : Nat} {key key' : ItemKey} {part : Part} {ts : List Tree} {p : Penalty}
    (valid : key.Valid g i) (h : Behind g input key j ts p) (narrow : key.origin = j)
    (steps : key.op.part? = some part) (member : key' ∈ g.nextKeys key) : Frames g key' part p := by
  obtain ⟨parts, trail, parsed⟩ := h.trail
  refine ⟨parts, [], p, 0, trail.next valid steps member, ?_, .nil, by simp⟩
  simpa [narrow, Grammar.slice_self] using parsed.derives

/-- After a step over what derives nothing, that stands around the part as well. -/
theorem Frames.next {i : Nat} {key key' : ItemKey} {a part : Part} {c p : Penalty} (valid : key.Valid g i)
    (h : Frames g key a c) (steps : key.op.part? = some part) (member : key' ∈ g.nextKeys key)
    (crossed : g.Derives (g.partSymbols part) [] p) : Frames g key' a (p + c) := by
  obtain ⟨before, after, q, q', trail, left, right, rfl⟩ := h
  have trail' := trail.next valid steps member
  rw [List.append_assoc, List.cons_append] at trail'
  refine ⟨before, after ++ [part], q, q' + p, trail', left, ?_, ?_⟩
  · simpa using right.append crossed
  · rw [Penalty.add_comm, Penalty.add_assoc]

/-- What an item at its end recognizes encloses the part. -/
theorem Frames.complete {i : Nat} {key : ItemKey} {a : Part} {c : Penalty} {target : Target} (valid : key.Valid g i)
    (h : Frames g key a c) (done : key.op = .complete target) :
    g.Encloses target.part a (c + g.targetPenalty target) := by
  obtain ⟨before, after, p, q, trail, left, right, rfl⟩ := h
  cases valid with
  | @dotted owner dot origin walks place begun =>
    obtain ⟨rfl, rfl⟩ := complete_dotted place done
    rw [trail_dotted walks, List.take_length] at trail
    obtain ⟨front, rest, split, rfl, behind⟩ := List.map_eq_append_iff.mp trail.symm
    obtain ⟨s, back, rfl, rfl, rfl⟩ := List.map_eq_cons_iff.mp behind
    rw [Grammar.flatMap_symbols] at left right
    exact walks.encloses split left right
  | @group k d origin count key known counted begun inside =>
    rcases mem_groupKeys.mp inside with ⟨-, rfl⟩ | ⟨enough, rfl⟩
    · cases done
    · cases done
      obtain ⟨d', n, known', clamped, trail⟩ := trail
      cases known.symm.trans known'
      dsimp only at clamped
      obtain ⟨size, equal⟩ := List.eq_replicate_iff.mp trail
      have front : before = List.replicate before.length (.iteration k) :=
        List.eq_replicate_iff.mpr ⟨rfl, fun b inside => equal b (by simp [inside])⟩
      have back : after = List.replicate after.length (.iteration k) :=
        List.eq_replicate_iff.mpr ⟨rfl, fun b inside => equal b (by simp [inside])⟩
      rw [front, Grammar.flatMap_iterations known] at left
      rw [back, Grammar.flatMap_iterations known] at right
      have admitted : d.Admits (before.length + 1 + after.length) := by
        have total : n = before.length + 1 + after.length := by simp at size; omega
        rw [← total]
        exact GroupDef.admits_of_clamp (clamped ▸ counted) (clamped ▸ enough)
      rw [equal a (by simp)]
      simpa [Grammar.targetPenalty, Target.part] using Grammar.Encloses.group known admitted left right

/-- A step inside a state gets further, as a group that has stopped counting takes none. -/
theorem progress_next {i : Nat} {key key' : ItemKey} {part : Part} (valid : key.Valid g i)
    (steps : key.op.part? = some part) (member : key' ∈ g.nextKeys key) (counts : g.isSaturated key = false) :
    key.dot + key.count < key'.dot + key'.count := by
  cases valid with
  | dotted walks =>
    rw [nextKeys_dotted walks] at member
    rw [List.mem_singleton.mp member]
    simp [Grammar.dottedKey]
  | @group k d origin count key known counted begun inside =>
    rcases mem_groupKeys.mp inside with ⟨more, rfl⟩ | ⟨-, rfl⟩
    · simp only [Grammar.isSaturated, known, Option.any_some, beq_eq_false_iff_ne, ne_eq] at counts
      have further : count < d.nextCount count := by
        have least := d.min.toNat_lt
        have most := d.max.toNat_lt
        unfold GroupDef.nextCount at counts ⊢
        unfold GroupDef.countBound at counted
        dsimp only at counts ⊢
        split at counted <;> simp_all <;> omega
      simp only [Grammar.nextKeys, known] at member
      rcases mem_groupKeys.mp member with ⟨-, rfl⟩ | ⟨-, rfl⟩ <;> simpa using further
    · simp [Operation.part?] at steps

theorem ChildValid.le {states : Array State} {j m : Nat} {previous : ItemKey} {child : Child}
    (h : ChildValid g states j m previous child) : m ≤ j := by
  cases h with
  | token next => omega
  | empty same => omega
  | null same => omega
  | completed before => omega

/-- The item that a link leads to began where the other did and stands between. -/
theorem linked_previous {states : Array State} (h : PastValid g input states) {ref : ItemRef} {item : Item}
    {link : Link} (found : itemAt states ref = some item) (member : link ∈ item.links) :
    ∃ before, itemAt states link.previous = some before ∧ LinkValid g states ref.state item.key link before.key ∧
      before.key.origin = item.key.origin ∧ item.key.origin ≤ link.previous.state ∧
      link.previous.state ≤ ref.state := by
  obtain ⟨previous, linked⟩ := (h.itemAt found).link member
  obtain ⟨before, found', rfl⟩ := linked.has
  have same := (next_origin linked.valid linked.next).1.symm
  exact ⟨before, found', linked, same, same ▸ linked.valid.origin_le, linked.child.le⟩

end Chart

namespace Forest

open Chart

variable {g : Grammar} {start : RuleId} {input : List Token} {states : Array State}

def width (states : Array State) : Goal → Nat
  | .stems ref => ref.state - ((itemAt states ref).elim 0 fun item => item.key.origin)
  | .trees ref => ref.state - ((itemAt states ref).elim 0 fun item => item.key.origin)
  | .nulls _ _ => 0

theorem width_stems {ref : ItemRef} {item : Item} (found : itemAt states ref = some item) :
    width states (.stems ref) = ref.state - item.key.origin := by
  simp [width, found]

theorem width_trees {ref : ItemRef} {item : Item} (found : itemAt states ref = some item) :
    width states (.trees ref) = ref.state - item.key.origin := by
  simp [width, found]

theorem width_childGoal {j m : Nat} {previous : ItemKey} {child : Child} {goal : Goal}
    (consumed : ChildValid g states j m previous child) (asks : childGoal j child = some goal) :
    width states goal = j - m := by
  cases consumed with
  | token => cases asks
  | empty => cases asks
  | null same =>
    cases asks
    simp [width, same]
  | completed before op has here done origin =>
    cases asks
    obtain ⟨item, found, rfl⟩ := has
    rw [width_trees found, here, origin]

/-- No goal leads to a wider one. -/
theorem Edge.width_le (valid : PastValid g input states) {goal next : Goal} {p : Penalty}
    (edge : Edge g input states goal next p) : width states next ≤ width states goal := by
  cases edge with
  | pass found member | scan found member | before found member =>
    obtain ⟨before, found', -, origin, begun, le⟩ := linked_previous valid found member
    rw [width_stems found, width_stems found', origin]
    omega
  | child found member asks =>
    obtain ⟨before, found', linked, origin, begun, le⟩ := linked_previous valid found member
    rw [width_stems found, width_childGoal linked.child asks]
    omega
  | tree found done => rw [width_stems found, width_trees found]
  | completion found done narrow => simp [width, found, narrow]

theorem Path.width_le (valid : PastValid g input states) {goal last : Goal} {p : Penalty}
    (path : Path g input states goal last p) : width states last ≤ width states goal := by
  induction path with
  | here => exact Nat.le_refl _
  | step edge _ ih => exact Nat.le_trans ih (edge.width_le valid)

/-- What a goal is about contains a part, in a context that derives nothing at the given penalty. -/
def Reaches (g : Grammar) (states : Array State) (b : Part) : Goal → Penalty → Prop
  | .stems ref, c => ∃ item a p q, itemAt states ref = some item ∧ Frames g item.key a p ∧ g.Contains a b q ∧ c = p + q
  | .trees ref, c => ∃ item target, itemAt states ref = some item ∧ item.key.op = .complete target ∧
      g.Contains target.part b c
  | .nulls _ target, c => g.Contains target.part b c

theorem reaches_childGoal {j m : Nat} {previous : ItemKey} {child : Child} {goal : Goal} {b : Part} {c : Penalty}
    (consumed : ChildValid g states j m previous child) (asks : childGoal j child = some goal)
    (h : Reaches g states b goal c) : ∃ part, previous.op.part? = some part ∧ g.Contains part b c := by
  cases consumed with
  | token => cases asks
  | empty => cases asks
  | @null target same op =>
    cases asks
    exact ⟨target.part, by rw [op]; rfl, h⟩
  | @completed ref target key before op has here done =>
    cases asks
    obtain ⟨item, target', found, done', inside⟩ := h
    obtain ⟨item', found', rfl⟩ := has
    cases found.symm.trans found'
    cases done.symm.trans done'
    exact ⟨target.part, by rw [op]; rfl, inside⟩

/-- What an item at its end recognizes encloses all that its stems reach. -/
theorem Reaches.encloses (valid : PastValid g input states) {ref : ItemRef} {item : Item} {target : Target} {b : Part}
    {c : Penalty} (found : itemAt states ref = some item) (done : item.key.op = .complete target)
    (h : Reaches g states b (.stems ref) c) :
    g.Encloses target.part b (g.targetPenalty item.key.owner.target + c) := by
  obtain ⟨item', a, p, q, found', frames, inside, rfl⟩ := h
  cases found.symm.trans found'
  have known := valid.itemAt found
  obtain ⟨ts, behind⟩ := known.real
  rw [(behind.complete known.key done).1, ← Penalty.add_assoc, Penalty.add_comm (g.targetPenalty target)]
  exact (frames.complete known.key done).trans_contains inside

/-- An edge between goals of the same width adds its penalty to the context. -/
theorem Edge.reaches (valid : PastValid g input states) {goal next : Goal} {b : Part} {p q : Penalty}
    (edge : Edge g input states goal next p) (flat : width states next = width states goal)
    (h : Reaches g states b next q) : Reaches g states b goal (p + q) := by
  cases edge with
  | @pass ref item link found member child =>
    obtain ⟨before, found', linked, -⟩ := linked_previous valid found member
    obtain ⟨before', a, p, q, found'', frames, inside, rfl⟩ := h
    cases found'.symm.trans found''
    have consumed := linked.child
    rw [child] at consumed
    cases consumed with
    | empty same op =>
      refine ⟨item, a, 0 + p, q, found, ?_, inside, (Penalty.add_assoc ..).symm⟩
      exact frames.next linked.valid (by rw [op]; rfl) linked.next (.empty .nil)
  | @scan ref item link found member child =>
    obtain ⟨before, found', linked, origin, begun, -⟩ := linked_previous valid found member
    have consumed := linked.child
    rw [child] at consumed
    rw [width_stems found, width_stems found', origin] at flat
    cases consumed with
    | token next => omega
  | @before ref item link goal x found member asks sound =>
    obtain ⟨before, found', linked, origin, begun, le⟩ := linked_previous valid found member
    obtain ⟨before', a, p, q, found'', frames, inside, rfl⟩ := h
    cases found'.symm.trans found''
    rw [width_stems found, width_stems found', origin] at flat
    have narrow : link.previous.state = ref.state := by omega
    obtain ⟨target, t, op, rfl, parsed, -⟩ := ChildValid.sound valid linked.child asks sound
    refine ⟨item, a, t.penalty + p, q, found, ?_, inside, (Penalty.add_assoc ..).symm⟩
    apply frames.next linked.valid (by rw [op]; rfl) linked.next
    rw [narrow] at parsed
    simpa [Grammar.slice_self] using parsed.derives
  | @child ref item link goal s found member asks sound =>
    obtain ⟨before, found', linked, origin, begun, le⟩ := linked_previous valid found member
    obtain ⟨before', found'', behind, -⟩ := sound
    cases found'.symm.trans found''
    rw [width_stems found, width_childGoal linked.child asks] at flat
    have narrow : before.key.origin = link.previous.state := by omega
    obtain ⟨part, steps, inside⟩ := reaches_childGoal linked.child asks h
    exact ⟨item, part, s.penalty, q, found, behind.frames linked.valid narrow steps linked.next, inside, rfl⟩
  | @tree ref item target found done => exact ⟨item, target, found, done, (h.encloses valid found done).contains⟩
  | @completion ref item target found done narrow =>
    obtain ⟨item', target', found', done', inside⟩ := h
    cases found.symm.trans found'
    cases done.symm.trans done'
    rw [Penalty.zero_add]
    exact inside

theorem Path.reaches (valid : PastValid g input states) {goal last : Goal} {b : Part} {p : Penalty}
    (path : Path g input states goal last p) (flat : width states last = width states goal)
    (h : Reaches g states b last 0) : Reaches g states b goal p := by
  induction path with
  | here => exact h
  | step edge rest ih =>
    have first := edge.width_le valid
    have others := rest.width_le valid
    exact edge.reaches valid (by omega) (ih (by omega) h)

/-- How far an item has come, as long as no completed item comes in between. -/
def progress (states : Array State) : Goal → Nat
  | .stems ref => (itemAt states ref).elim 0 fun item => item.key.dot + item.key.count + 1
  | _ => 0

theorem progress_stems {ref : ItemRef} {item : Item} (found : itemAt states ref = some item) :
    progress states (.stems ref) = item.key.dot + item.key.count + 1 := by
  simp [progress, found]

/-- Between goals of the same width, neither of them about a completed item, progress gets less. -/
theorem Edge.progress_lt (valid : PastValid g input states) {goal next : Goal} {p : Penalty}
    (edge : Edge g input states goal next p) (flat : width states next = width states goal)
    (here : ∀ ref, goal ≠ .trees ref) (there : ∀ ref, next ≠ .trees ref) :
    progress states next < progress states goal := by
  cases edge with
  | @pass ref item link found member | @scan ref item link found member | @before ref item link _ _ found member =>
    obtain ⟨before, found', linked, origin, begun, le⟩ := linked_previous valid found member
    rw [width_stems found, width_stems found', origin] at flat
    have narrow : link.previous.state = ref.state := by omega
    obtain ⟨part, steps⟩ := linked.child.part?
    rw [progress_stems found, progress_stems found']
    exact Nat.succ_lt_succ (progress_next linked.valid steps linked.next (linked.moved narrow))
  | @child ref item link next s found member asks =>
    cases next with
    | stems ref' =>
      unfold childGoal at asks
      split at asks <;> cases asks
    | trees ref' => exact absurd rfl (there ref')
    | nulls j target => simp [progress, found]
  | tree => exact absurd rfl (here _)
  | completion => exact absurd rfl (there _)

/-- A way between goals of the same width passes a completed item, or it loses progress. -/
theorem Path.visits (valid : PastValid g input states) {goal last : Goal} {c : Penalty}
    (path : Path g input states goal last c) (flat : width states last = width states goal) :
    (∃ ref p q, Path g input states goal (.trees ref) p ∧ Path g input states (.trees ref) last q ∧ c = p + q) ∨
      (∀ ref, goal ≠ .trees ref) ∧ (∀ ref, last ≠ .trees ref) ∧ progress states last ≤ progress states goal := by
  induction path with
  | @here goal =>
    by_cases done : ∃ ref, goal = .trees ref
    · obtain ⟨ref, rfl⟩ := done
      exact .inl ⟨ref, 0, 0, .here, .here, by simp⟩
    · have here : ∀ ref, goal ≠ .trees ref := fun ref same => done ⟨ref, same⟩
      exact .inr ⟨here, here, Nat.le_refl _⟩
  | @step goal next last p q edge rest ih =>
    have first := edge.width_le valid
    have others := rest.width_le valid
    rcases ih (by omega) with ⟨ref, p', q', before, after, rfl⟩ | ⟨there, ended, less⟩
    · exact .inl ⟨ref, p + p', q', .step edge before, after, (Penalty.add_assoc ..).symm⟩
    · by_cases done : ∃ ref, goal = .trees ref
      · obtain ⟨ref, rfl⟩ := done
        exact .inl ⟨ref, 0, p + q, .here, .step edge rest, by simp⟩
      · have here : ∀ ref, goal ≠ .trees ref := fun ref same => done ⟨ref, same⟩
        have further := edge.progress_lt valid (by omega) here there
        exact .inr ⟨here, ended, by omega⟩

/-- A way back may start from any goal on it. -/
theorem Path.rotate {goal next mid : Goal} {p q q' : Penalty} (before : Path g input states mid goal q')
    (edge : Edge g input states goal next p) (after : Path g input states next mid q) :
    ∃ next' c c', Edge g input states mid next' c ∧ Path g input states next' mid c' ∧ c + c' = p + (q + q') := by
  cases before with
  | here => exact ⟨next, p, q, edge, after, by simp⟩
  | @step _ next' _ c c' edge' rest =>
    refine ⟨next', c, c' + (p + q), edge', rest.append (.step edge after), ?_⟩
    rw [← Penalty.add_assoc, Penalty.add_comm (c + c'), Penalty.add_assoc]

/-- Every way back passes a completed item. -/
theorem exists_trees_cycle (valid : PastValid g input states) {goal next : Goal} {p q : Penalty}
    (edge : Edge g input states goal next p) (back : Path g input states next goal q) :
    ∃ ref next' c c', Edge g input states (.trees ref) next' c ∧ Path g input states next' (.trees ref) c' ∧
      c + c' = p + q := by
  have first := edge.width_le valid
  have others := back.width_le valid
  rcases back.visits valid (by omega) with ⟨ref, p', q', before, after, rfl⟩ | ⟨there, here, less⟩
  · obtain ⟨next', c, c', edge', rest, cost⟩ := Path.rotate after edge before
    exact ⟨ref, next', c, c', edge', rest, cost⟩
  · have further := edge.progress_lt valid (by omega) here there
    omega

/-- The target of a completed item on a way back encloses itself. -/
theorem encloses_of_trees_cycle (valid : PastValid g input states) {ref : ItemRef} {next : Goal} {p q : Penalty}
    (edge : Edge g input states (.trees ref) next p) (back : Path g input states next (.trees ref) q) :
    ∃ part, g.Encloses part part (p + q) := by
  have first := edge.width_le valid
  have others := back.width_le valid
  cases edge with
  | @tree _ item target found done =>
    have reached : Reaches g states target.part (.trees ref) 0 := ⟨item, target, found, done, .refl _⟩
    exact ⟨target.part, (back.reaches valid (by omega) reached).encloses valid found done⟩

/-- Where every rule encloses itself only at a penalty above the given one, so does every goal lead back to itself. -/
theorem cyclesAbove_of_encloses (inScope : g.Scoped) (valid : PastValid g input states) {most : Penalty}
    (dear : ∀ r c, g.Encloses (.symbol (.rule r)) (.symbol (.rule r)) c → most < c) :
    CyclesAbove g input states most := by
  intro goal next p q edge back
  obtain ⟨ref, next', c, c', edge', back', cost⟩ := exists_trees_cycle valid edge back
  obtain ⟨part, cycle⟩ := encloses_of_trees_cycle valid edge' back'
  obtain ⟨r, cycle⟩ := cycle.rule_of_cycle inScope
  rw [← cost]
  exact dear r _ cycle

end Forest

end Earley
