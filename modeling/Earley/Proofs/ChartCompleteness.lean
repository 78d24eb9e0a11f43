import Earley.Proofs.ChartRun
import Earley.Proofs.ForestSteps

/-!
# Every tree is in the chart

Canonical trees of what an item has yet to step over lead from the item to one further on, and the links in
between spell out just these trees. So every canonical tree of an input can be read off its chart.
-/

namespace Earley

namespace Chart

/-- An item that accepts the next token has moved on with it. -/
theorem Charted.scan_next {g : Grammar} {start : RuleId} {input : List Token} {states : Array State}
    {failed : Option Nat} (h : Charted g start input states) (ends : Ends g input states failed) {i j : Nat} {s : State}
    {item : Item} {u : Usage} {t : Token} (state : states[j]? = some s) (found : s.items[i]? = some item)
    (op : item.key.op = .scan u) (read : input[j]? = some t) (accepted : g.accepts u t = true) :
    ∃ s', states[j + 1]? = some s' ∧ s'.token = some t ∧
      ∀ k ∈ g.nextKeys item.key, s'.HoldsLink k ⟨⟨j, i⟩, .token⟩ := by
  have inside := (List.getElem?_eq_some_iff.mp read).1
  have here := (Array.getElem?_eq_some_iff.mp state).1
  have bound : j + 1 < states.size := by
    cases failed with
    | none =>
      have size : states.size = input.length + 1 := ends
      omega
    | some last =>
      obtain ⟨size, t', s', read', state', refused⟩ := ends
      by_cases same : j = last
      · subst same
        cases read.symm.trans read'
        cases state.symm.trans state'
        rw [refused found op] at accepted
        cases accepted
      · omega
  have state' := Array.getElem?_eq_getElem bound
  obtain ⟨t', read', token⟩ := h.read state'
  cases read.symm.trans read'
  exact ⟨_, state', token, fun k member => h.scanned state state' read found op accepted member⟩

theorem Operation.eq_passEmpty {op : Operation} (h : op.part? = some (.symbol .empty)) : op = .passEmpty := by
  cases op with
  | predict target => cases target <;> simp [part?, Target.part] at h
  | _ => simp_all [part?]

theorem Operation.eq_scan {op : Operation} {u : Usage} (h : op.part? = some (.symbol (.usage u))) : op = .scan u := by
  cases op with
  | predict target => cases target <;> simp [part?, Target.part] at h
  | _ => simp_all [part?]

theorem Operation.eq_predict {op : Operation} {target : Target} (h : op.part? = some target.part) :
    op = .predict target := by
  cases op with
  | predict other => cases other <;> cases target <;> simp_all [part?, Target.part]
  | _ => cases target <;> simp [part?, Target.part] at h

end Chart

namespace Forest

open Chart

inductive Derivable (g : Grammar) (states : Array State) : Goal → Stem → Prop where
  | step {goal : Goal} {premises : List (Goal × Stem)} {y : Stem} (step : Step g states goal premises y)
      (each : ∀ x ∈ premises, Derivable g states x.1 x.2) : Derivable g states goal y

/-- State number `j` has an item of each key, with `s` behind it. -/
def Reached (g : Grammar) (states : Array State) (keys : List ItemKey) (j : Nat) (s : Stem) : Prop :=
  ∀ key ∈ keys, ∃ ref, ref.state = j ∧ HasKey states ref key ∧ Derivable g states (.stems ref) s

/-- A target that began in state number `i` has been met in state number `m`, by the given tree. -/
def Fulfilled (g : Grammar) (states : Array State) (target : Target) (i m : Nat) (t : Tree) : Prop :=
  (i < m ∧ ∃ ref key, ref.state = m ∧ HasKey states ref key ∧ key.op = .complete target ∧ key.origin = i ∧
    Derivable g states (.trees ref) (.single t)) ∨
  (i = m ∧ (g.targetNullCost target).isSome = true ∧ Derivable g states (.nulls i target) (.single t))

inductive Crossed (g : Grammar) (input : List Token) (states : Array State) : Part → (i m : Nat) → Stem → Prop where
  | empty {i : Nat} : Crossed g input states (.symbol .empty) i i .empty
  | usage {i : Nat} {u : Usage} {t : Token} (found : input[i]? = some t) (accepted : g.accepts u t = true) :
      Crossed g input states (.symbol (.usage u)) i (i + 1) (.single (.leaf t i))
  | target {target : Target} {i m : Nat} {t : Tree}
      (met : Reached g states (g.openingKeys target i) i .empty → Fulfilled g states target i m t) :
      Crossed g input states target.part i m (.single t)

variable {g : Grammar} {start : RuleId} {input : List Token} {states : Array State} {failed : Option Nat}

theorem HasKey.state {ref : ItemRef} {key : ItemKey} (has : HasKey states ref key) :
    ∃ s item, states[ref.state]? = some s ∧ s.items[ref.index]? = some item ∧ item.key = key := by
  obtain ⟨item, found, same⟩ := has
  obtain ⟨s, state, inside⟩ := Option.bind_eq_some_iff.mp found
  exact ⟨s, item, state, inside, same⟩

theorem itemAt_of_state {j i : Nat} {s : State} {item : Item} (state : states[j]? = some s)
    (found : s.items[i]? = some item) : itemAt states ⟨j, i⟩ = some item :=
  Option.bind_eq_some_iff.mpr ⟨s, state, found⟩

/-- What a prediction starts from is there, with nothing behind it. -/
theorem reached_opening (h : Charted g start input states) {target : Target} {j : Nat} {s : State}
    (state : states[j]? = some s) (holds : ∀ k ∈ g.openingKeys target j, s.Holds k) :
    Reached g states (g.openingKeys target j) j .empty := by
  intro key member
  obtain ⟨i, item, found, rfl⟩ := holds key member
  obtain ⟨-, dot, count⟩ := origin_opening member
  have opening := (h.valid.items state found).opening.mpr ⟨dot, count⟩
  have place := itemAt_of_state state found
  exact ⟨⟨j, i⟩, rfl, ⟨item, place, rfl⟩, .step (.start place opening) (by simp)⟩

/-- A step over something leads to all items one step further. -/
theorem Crossed.reached (h : Charted g start input states) (ends : Ends g input states failed) {ref : ItemRef}
    {key : ItemKey} {part : Part} {m : Nat} {s x : Stem} (has : HasKey states ref key)
    (steps : key.op.part? = some part) (before : Derivable g states (.stems ref) s)
    (crossed : Crossed g input states part ref.state m x)
    (free : ref.state = m → g.isSaturated key = false) : Reached g states (g.nextKeys key) m (s.join x) := by
  obtain ⟨here, item, state, found, rfl⟩ := HasKey.state has
  have served := h.served state found
  cases crossed with
  | empty =>
    intro k member
    obtain ⟨i, next, found', same, link⟩ := served.passed (Operation.eq_passEmpty steps) member
    have place := itemAt_of_state state found'
    rw [Stem.join_empty]
    exact ⟨⟨ref.state, i⟩, rfl, ⟨next, place, same⟩, .step (.pass place link rfl) (by simpa using before)⟩
  | @usage _ u t read accepted =>
    obtain ⟨later, state', token, linked⟩ := h.scan_next ends state found (Operation.eq_scan steps) read accepted
    intro k member
    obtain ⟨i, next, found', same, link⟩ := linked k member
    have place := itemAt_of_state state' found'
    exact ⟨⟨ref.state + 1, i⟩, rfl, ⟨next, place, same⟩,
      .step (.scan place link rfl state' token) (by simpa using before)⟩
  | @target target _ _ t met =>
    have op := Operation.eq_predict steps
    have opened := reached_opening h state fun k member => served.opened op member
    rcases met opened with ⟨less, done, key, rfl, has', op', origin, tree⟩ | ⟨rfl, nullable, tree⟩
    · obtain ⟨later, item', state', found', rfl⟩ := HasKey.state has'
      intro k member
      obtain ⟨i, next, found'', same, link⟩ := (h.served state' found').resumed op' (origin ▸ less)
        (origin.symm ▸ state) found op member
      have place := itemAt_of_state state' found''
      rw [origin] at link
      exact ⟨⟨done.state, i⟩, rfl, ⟨next, place, same⟩,
        .step (.part place link rfl) (by simp [before, tree])⟩
    · intro k member
      obtain ⟨i, next, found', same, link⟩ := served.skipped op nullable (free rfl) member
      have place := itemAt_of_state state found'
      exact ⟨⟨ref.state, i⟩, rfl, ⟨next, place, same⟩, .step (.part place link rfl) (by simp [before, tree])⟩

/-- An item that is done has met its target. -/
theorem fulfilled_of_complete (analyzed : g.Analyzed) {key : ItemKey} {target : Target} {m : Nat} {s : Stem}
    {t : Tree} {p : Penalty} (done : key.op = .complete target) (reached : Reached g states [key] m s)
    (parsed : g.Parses input [target.part] key.origin m [t] p)
    (same : t = nodeOf g key m s.penalty s.children) : Fulfilled g states target key.origin m t := by
  obtain ⟨ref, rfl, has, before⟩ := reached key (List.mem_cons_self ..)
  obtain ⟨item, found, rfl⟩ := id has
  have tree : Derivable g states (.trees ref) (.single t) := by
    rw [same]
    exact .step (.tree found done) (by simpa using before)
  rcases Nat.lt_or_eq_of_le parsed.start_le_finish with less | equal
  · exact .inl ⟨less, ref, item.key, rfl, has, done, rfl, tree⟩
  · rw [equal] at parsed ⊢
    exact .inr ⟨rfl, analyzed.isSome_targetNullCost parsed, .step (.completion found done equal) (by simpa using tree)⟩

def stemOf (ts : List Tree) (p : Penalty) : Stem := ⟨p, ts.reverse⟩

@[simp] theorem children_stemOf (ts : List Tree) (p : Penalty) : (stemOf ts p).children = ts := by
  simp [stemOf, Stem.children]

theorem join_stemOf (t : Tree) (ts : List Tree) (p : Penalty) :
    (Stem.single t).join (stemOf ts p) = stemOf (t :: ts) (t.penalty + p) :=
  Stem.ext_children rfl (by simp)

/-- Items move on over some parts: along a production to its end, and along repetitions of a group, where no
repetition of nothing may come once the group has stopped counting. -/
structure Carried (g : Grammar) (states : Array State) (ps : List Part) (i j : Nat) (z : Stem) : Prop where
  symbols : ∀ {owner dot origin s}, owner.Walks g → dot ≤ (g.symbolsOf owner).length →
    ps = ((g.symbolsOf owner).drop dot).map .symbol → Reached g states [g.dottedKey owner dot origin] i s →
    Reached g states [g.dottedKey owner (g.symbolsOf owner).length origin] j (s.join z)
  iterations : ∀ {k d count n origin s}, g.group? k = some d → ps = List.replicate n (.iteration k) →
    (d.isUnbounded = true → ∀ (idx : Nat) (t : Tree), z.children[idx]? = some t → t.span.isEmpty = true →
      count + idx < max d.min.toNat 1) →
    (d.isUnbounded = true ∨ count + n ≤ d.max.toNat) →
    Reached g states (Grammar.groupKeys k d origin (d.clamp count)) i s →
    Reached g states (Grammar.groupKeys k d origin (d.clamp (count + n))) j (s.join z)

theorem carried_nil (g : Grammar) (states : Array State) (i : Nat) : Carried g states [] i i .empty where
  symbols {owner dot origin s} _ place same reached := by
    have short := congrArg List.length same
    simp only [List.length_nil, List.length_map, List.length_drop] at short
    rw [Stem.join_empty, show (g.symbolsOf owner).length = dot by omega]
    exact reached
  iterations {k d count n origin s} _ same _ _ reached := by
    obtain rfl : 0 = n := by simpa using congrArg List.length same
    rw [Stem.join_empty, Nat.add_zero]
    exact reached

theorem Carried.symbol (h : Charted g start input states) (ends : Ends g input states failed) {x : Symbol}
    {ps : List Part} {i m j : Nat} {y z : Stem} (crossed : Crossed g input states (.symbol x) i m y)
    (rest : Carried g states ps m j z) : Carried g states (.symbol x :: ps) i j (y.join z) where
  symbols {owner dot origin s} walks place same reached := by
    obtain ⟨x', others, suffix, here, after⟩ := List.map_eq_cons_iff.mp same.symm
    cases here
    have next : (g.symbolsOf owner)[dot]? = some x := by
      have first : ((g.symbolsOf owner).drop dot)[0]? = some x := by rw [suffix]; rfl
      rwa [List.getElem?_drop, Nat.add_zero] at first
    have further : (g.symbolsOf owner).drop (dot + 1) = others := by
      rw [← List.drop_drop, suffix, List.drop_one, List.tail_cons]
    obtain ⟨ref, rfl, has, before⟩ := reached _ (List.mem_cons_self ..)
    have moved := crossed.reached h ends has (by rw [part?_dotted, next]; rfl) before
      fun _ => isSaturated_dotted walks dot origin
    rw [nextKeys_dotted walks] at moved
    rw [← Stem.join_assoc]
    exact rest.symbols walks (List.getElem?_eq_some_iff.mp next).1 (further ▸ after.symm) moved
  iterations {k d count n origin s} _ same := by
    cases n with
    | zero => cases same
    | succ n => cases same

theorem Carried.iteration (h : Charted g start input states) (ends : Ends g input states failed) {k : GroupId}
    {ps : List Part} {i m j : Nat} {t : Tree} {z : Stem}
    (crossed : Crossed g input states (.iteration k) i m (.single t)) (span : t.span = ⟨i, m⟩)
    (rest : Carried g states ps m j z) : Carried g states (.iteration k :: ps) i j ((Stem.single t).join z) where
  symbols {owner dot origin s} _ _ same := by
    obtain ⟨x, others, -, wrong, -⟩ := List.map_eq_cons_iff.mp same.symm
    cases wrong
  iterations {k' d count n origin s} known same narrow bounded reached := by
    cases n with
    | zero => cases same
    | succ n =>
      rw [List.replicate_succ] at same
      cases same
      simp only [Stem.children_join, Stem.children_single, List.cons_append, List.nil_append] at narrow
      have more : d.canRepeat (d.clamp count) = true := by
        unfold GroupDef.canRepeat GroupDef.clamp
        rcases bounded with unbounded | most
        · simp [unbounded]
        · split
          · simp [*]
          · simp only [Bool.or_eq_true, decide_eq_true_eq]
            omega
      obtain ⟨ref, rfl, has, before⟩ := reached _ (mem_groupKeys.mpr (.inl ⟨more, rfl⟩))
      have moved := crossed.reached h ends has rfl before fun equal => by
        simp only [Grammar.isSaturated, known, Option.any_some, beq_eq_false_iff_ne, ne_eq,
          GroupDef.nextCount_clamp_eq_iff more]
        rintro ⟨unbounded, full⟩
        have := narrow unbounded 0 t rfl (by simpa [span, Span.isEmpty] using equal)
        omega
      simp only [Grammar.nextKeys, known, GroupDef.nextCount_clamp more] at moved
      rw [← Stem.join_assoc, show count + (n + 1) = count + 1 + n by omega]
      refine rest.iterations known rfl (fun unbounded idx child place empty => ?_) ?_ moved
      · have := narrow unbounded (idx + 1) child (by simpa using place) empty
        omega
      · rcases bounded with unbounded | most
        · exact .inl unbounded
        · exact .inr (by omega)

theorem op_dotted_end (g : Grammar) (owner : Owner) (origin : Nat) :
    (g.dottedKey owner (g.symbolsOf owner).length origin).op = .complete owner.target := by
  simp [Grammar.dottedKey, Operation.before]

theorem Reached.production {r : RuleId} {n i : Nat} {s : Stem} (walks : (Owner.rule r n).Walks g)
    (opened : Reached g states (g.openingKeys (.rule r) i) i s) :
    Reached g states [g.dottedKey (.rule r n) 0 i] i s := by
  intro key member
  rw [List.mem_singleton.mp member]
  apply opened
  exact List.mem_map.mpr ⟨n, List.mem_range.mpr walks, rfl⟩

/-- Items are carried from the beginning of a production to its end. -/
theorem Carried.walked {owner : Owner} {i m : Nat} {z : Stem}
    (h : Carried g states ((g.symbolsOf owner).map .symbol) i m z) (walks : owner.Walks g)
    (begun : Reached g states [g.dottedKey owner 0 i] i .empty) :
    Reached g states [g.dottedKey owner (g.symbolsOf owner).length i] m z := by
  have ended := h.symbols walks (Nat.zero_le _) (by simp) begun
  rwa [Stem.empty_join] at ended

section Meeting

variable {i m : Nat} {cs : List Tree} {c : Penalty}

theorem Carried.fulfills_rule (analyzed : g.Analyzed) {n : Nat} {r : RuleId} {d : RuleDef} {production : Production}
    (known : g.rule? r = some d) (chosen : d.productions[n]? = some production)
    (inner : g.Parses input (production.map .symbol) i m cs c)
    (h : Carried g states (production.map .symbol) i m (stemOf cs c))
    (opened : Reached g states (g.openingKeys (.rule r) i) i .empty) :
    Fulfilled g states (.rule r) i m (.node (.rule r (some n)) ⟨i, m⟩ (c + d.penalty) cs) := by
  obtain ⟨walks, rfl⟩ := walks_of_chosen known chosen
  apply fulfilled_of_complete analyzed (op_dotted_end g (.rule r n) i) (h.walked walks (opened.production walks))
    (Grammar.Parses.rule known chosen inner .nil)
  simp [nodeOf, Grammar.dottedKey, Owner.nodeKind, Owner.target, Grammar.targetPenalty, Grammar.rulePenalty, known,
    stemOf, Stem.children]

theorem Carried.fulfills_iteration (analyzed : g.Analyzed) {k : GroupId} {d : GroupDef} (known : g.group? k = some d)
    (inner : g.Parses input (d.production.map .symbol) i m cs c)
    (h : Carried g states (d.production.map .symbol) i m (stemOf cs c))
    (opened : Reached g states (g.openingKeys (.iteration k) i) i .empty) :
    Fulfilled g states (.iteration k) i m (.node (.iteration k) ⟨i, m⟩ c cs) := by
  rw [← symbolsOf_iteration known] at h
  apply fulfilled_of_complete analyzed (op_dotted_end g (.iteration k) i) (h.walked ⟨d, known⟩ opened)
    (Grammar.Parses.iteration known inner .nil)
  simp [nodeOf, Grammar.dottedKey, Owner.nodeKind, Owner.target, Grammar.targetPenalty, stemOf, Stem.children]

theorem Carried.fulfills_group (analyzed : g.Analyzed) {count : Nat} {k : GroupId} {d : GroupDef}
    (known : g.group? k = some d) (admitted : d.Admits count)
    (inner : g.Parses input (List.replicate count (.iteration k)) i m cs c)
    (frugal : (Tree.node (.group k) ⟨i, m⟩ c cs).IsFrugal g)
    (h : Carried g states (List.replicate count (.iteration k)) i m (stemOf cs c))
    (opened : Reached g states (g.openingKeys (.group k) i) i .empty) :
    Fulfilled g states (.group k) i m (.node (.group k) ⟨i, m⟩ c cs) := by
  have begun : Reached g states (Grammar.groupKeys k d i (d.clamp 0)) i .empty := by
    simpa [Grammar.openingKeys, known] using opened
  have narrow (unbounded : d.isUnbounded = true) (idx : Nat) (t : Tree) (place : (stemOf cs c).children[idx]? = some t)
      (narrow : t.span.isEmpty = true) : 0 + idx < max d.min.toNat 1 := by
    rw [Nat.zero_add]
    rw [children_stemOf] at place
    exact frugal k d rfl known unbounded idx t place narrow
  have ended := h.iterations known rfl narrow (by simpa using admitted.2) begun
  rw [Stem.empty_join, Nat.zero_add] at ended
  have finished : Reached g states [⟨.group k, 0, i, d.clamp count, .complete (.group k)⟩] m (stemOf cs c) := by
    intro key member
    rw [List.mem_singleton.mp member]
    apply ended
    exact mem_groupKeys.mpr (.inr ⟨GroupDef.isSatisfied_clamp.mpr admitted.1, rfl⟩)
  apply fulfilled_of_complete analyzed rfl finished (Grammar.Parses.group known admitted inner .nil)
  simp [nodeOf, Owner.nodeKind, Owner.target, Grammar.targetPenalty, stemOf, Stem.children]

end Meeting

/-- Canonical trees carry items over what they are trees of. -/
theorem carried_of_parses (analyzed : g.Analyzed) (h : Charted g start input states)
    (ends : Ends g input states failed) {ps : List Part} {i j : Nat} {ts : List Tree} {p : Penalty}
    (parsed : g.Parses input ps i j ts p) (canonical : ∀ t ∈ ts, t.Canonical g) :
    Carried g states ps i j (stemOf ts p) := by
  induction parsed with
  | @nil i => exact carried_nil g states i
  | empty _ ih =>
    rw [← Stem.empty_join (stemOf _ _)]
    exact .symbol h ends .empty (ih canonical)
  | usage found accepted _ ih =>
    have := Carried.symbol h ends (.usage found accepted) (ih (List.forall_mem_cons.mp canonical).2)
    simpa [join_stemOf, Tree.leaf, Tree.penalty] using this
  | @rule i m j n r d production cs c ps ts p known chosen inner rest ihInner ihRest =>
    obtain ⟨node, others⟩ := List.forall_mem_cons.mp canonical
    have carried := ihInner (Tree.canonical_iff.mp node).2
    have met : Crossed g input states (.symbol (.rule r)) i m (.single _) :=
      .target (carried.fulfills_rule analyzed known chosen inner)
    have := Carried.symbol h ends met (ihRest others)
    rwa [join_stemOf] at this
  | @bare i j r d ps ts p known childless rest ih =>
    have parsed : g.Parses input [.symbol (.rule r)] i i [.node (.rule r none) ⟨i, i⟩ d.penalty []] (d.penalty + 0) :=
      .bare known childless .nil
    have met (_ : Reached g states (g.openingKeys (.rule r) i) i .empty) :
        Fulfilled g states (.rule r) i i (.node (.rule r none) ⟨i, i⟩ d.penalty []) :=
      .inr ⟨rfl, analyzed.isSome_targetNullCost parsed, .step (.bare known childless) (by simp)⟩
    have := Carried.symbol h ends (.target met) (ih (List.forall_mem_cons.mp canonical).2)
    rwa [join_stemOf] at this
  | @group i m j count k d cs c ps ts p known admitted inner rest ihInner ihRest =>
    obtain ⟨node, others⟩ := List.forall_mem_cons.mp canonical
    obtain ⟨frugal, below⟩ := Tree.canonical_iff.mp node
    have met : Crossed g input states (.symbol (.group k)) i m (.single _) :=
      .target ((ihInner below).fulfills_group analyzed known admitted inner frugal)
    have := Carried.symbol h ends met (ihRest others)
    rwa [join_stemOf] at this
  | @iteration i m j k d cs c ps ts p known inner rest ihInner ihRest =>
    obtain ⟨node, others⟩ := List.forall_mem_cons.mp canonical
    have carried := ihInner (Tree.canonical_iff.mp node).2
    have met : Crossed g input states (.iteration k) i m (.single _) :=
      .target (carried.fulfills_iteration analyzed known inner)
    have := Carried.iteration h ends met rfl (ihRest others)
    rwa [join_stemOf] at this

/-- Where a target has been predicted, every canonical tree of it has been met. -/
theorem fulfilled_of_parses (analyzed : g.Analyzed) (h : Charted g start input states)
    (ends : Ends g input states failed) {target : Target} {i m : Nat} {t : Tree} {p : Penalty}
    (parsed : g.Parses input [target.part] i m [t] p) (canonical : t.Canonical g)
    (opened : Reached g states (g.openingKeys target i) i .empty) : Fulfilled g states target i m t := by
  obtain ⟨frugal, below⟩ := Tree.canonical_iff.mp canonical
  cases target with
  | rule r =>
    cases parsed with
    | rule known chosen inner rest =>
      cases rest
      exact (carried_of_parses analyzed h ends inner below).fulfills_rule analyzed known chosen inner opened
    | @bare _ _ _ d _ _ _ known childless rest =>
      cases rest
      have bare : g.Parses input [.symbol (.rule r)] i i [.node (.rule r none) ⟨i, i⟩ d.penalty []] (d.penalty + 0) :=
        .bare known childless .nil
      exact .inr ⟨rfl, analyzed.isSome_targetNullCost bare, .step (.bare known childless) (by simp)⟩
  | group k =>
    cases parsed with
    | group known admitted inner rest =>
      cases rest
      exact (carried_of_parses analyzed h ends inner below).fulfills_group analyzed known admitted inner frugal opened
  | iteration k =>
    cases parsed with
    | iteration known inner rest =>
      cases rest
      exact (carried_of_parses analyzed h ends inner below).fulfills_iteration analyzed known inner opened

end Forest

end Earley
