import Earley.Grammar.Prospects
import Earley.Proofs.ViablePrefix

/-!
# What items wait to scan

A state has an item that waits for a usage just when the start rule can come to the usage after the tokens read before
(`waits_iff_awaits`). That such an item has a reason follows from what lies behind the items that predicted it; that it
is there, from a walk along the symbols before the usage, which the chart has taken. So a run stops at the first token
that the start rule cannot take (`grow_stopsAt`).
-/

namespace Earley

/-- Where a group stopped counting, it may go on. -/
theorem GroupDef.canRepeat_clamp (d : GroupDef) (n : Nat) : d.canRepeat (d.clamp n) = d.canRepeat n := by
  by_cases unbounded : d.isUnbounded = true <;> simp [canRepeat, clamp, unbounded]

namespace Chart

variable {g : Grammar} {start : RuleId} {input : List Token} {u : Usage}

/-- Whatever the target can come to, the start rule can come to after the first `i` tokens. -/
def Foreseen (g : Grammar) (start : RuleId) (input : List Token) (i : Nat) (target : Target) : Prop :=
  ∀ (ts : List Token) (u : Usage), g.Awaits (g.partSymbols target.part) ts u →
    g.Awaits [.rule start] (input.take i ++ ts) u

/-- What an owner walks along can come to what its target can. -/
theorem Owner.Walks.awaits_target {owner : Owner} (walks : owner.Walks g) {ts : List Token}
    (awaits : g.Awaits (g.symbolsOf owner) ts u) : g.Awaits (g.partSymbols owner.target.part) ts u := by
  cases owner with
  | group k => exact walks.elim
  | rule r n =>
    obtain ⟨d, known, chosen⟩ := walks.production
    exact .rule known (List.mem_of_getElem? chosen) awaits
  | iteration k =>
    obtain ⟨d, known⟩ := walks
    rw [symbolsOf_iteration known] at awaits
    simpa [Owner.target, Target.part, Grammar.partSymbols, known] using awaits

/-- An item comes to what it steps over next after what lies behind it. -/
theorem Behind.awaits_target {j : Nat} {key : ItemKey} {part : Part} {trees : List Tree} {p : Penalty}
    (valid : key.Valid g j) (behind : Behind g input key j trees p) (steps : key.op.part? = some part) {ts : List Token}
    (awaits : g.Awaits (g.partSymbols part) ts u) :
    g.Awaits (g.partSymbols key.owner.target.part) (Grammar.slice input key.origin j ++ ts) u := by
  cases valid with
  | @dotted owner dot origin walks place begun =>
    rw [part?_dotted] at steps
    obtain ⟨s, here, rfl⟩ := Option.map_eq_some_iff.mp steps
    have before := ((behind_dotted walks).mp behind).derives
    rw [Grammar.flatMap_symbols] at before
    have split : g.symbolsOf owner = (g.symbolsOf owner).take dot ++ ([s] ++ (g.symbolsOf owner).drop (dot + 1)) := by
      obtain ⟨bound, rfl⟩ := List.getElem?_eq_some_iff.mp here
      rw [List.singleton_append, ← List.drop_eq_getElem_cons bound, List.take_append_drop]
    have awaits : g.Awaits [s] ts u := awaits
    have whole := Grammar.Awaits.after before (awaits.append ((g.symbolsOf owner).drop (dot + 1)))
    rw [← split] at whole
    exact walks.awaits_target whole
  | @group k d origin count key known counted begun inside =>
    rcases mem_groupKeys.mp inside with ⟨more, rfl⟩ | ⟨-, rfl⟩
    · cases steps
      obtain ⟨d', known', clamped, parsed⟩ := behind
      cases known.symm.trans known'
      dsimp only at clamped parsed
      have before := parsed.derives
      rw [Grammar.flatMap_iterations known] at before
      rw [clamped, GroupDef.canRepeat_clamp] at more
      exact .group known more before (by simpa [Target.part, Grammar.partSymbols, known] using awaits)
    · simp [Operation.part?] at steps

/-- What an item steps over next can be come to from the start rule, once all before the item is read. -/
theorem Foreseen.awaits {j : Nat} {key : ItemKey} {part : Part} {trees : List Tree} {p : Penalty}
    (foreseen : Foreseen g start input key.origin key.owner.target) (valid : key.Valid g j)
    (behind : Behind g input key j trees p) (steps : key.op.part? = some part) {ts : List Token}
    (awaits : g.Awaits (g.partSymbols part) ts u) : g.Awaits [.rule start] (input.take j ++ ts) u := by
  have whole := foreseen _ _ (behind.awaits_target valid steps awaits)
  have read : input.take key.origin ++ Grammar.slice input key.origin j = input.take j :=
    Grammar.slice_append input (Nat.zero_le _) valid.origin_le
  rwa [← List.append_assoc, read] at whole

theorem foreseen_inherited (g : Grammar) (start : RuleId) (input : List Token) :
    Inherited (fun key => Foreseen g start input key.origin key.owner.target) g input where
  next foreseen key' member := by
    rw [origin_next member, next_owner member]
    exact foreseen
  opening foreseen valid behind op key' member := by
    rw [(origin_opening member).1, target_opening member]
    intro ts u awaits
    exact foreseen.awaits valid behind (by rw [op]; rfl) awaits

theorem foreseen_first (key : ItemKey) (member : key ∈ g.openingKeys (.rule start) 0) :
    Foreseen g start input key.origin key.owner.target := by
  rw [(origin_opening member).1, target_opening member]
  exact fun ts u awaits => awaits

/-- There is no state after the last token. -/
theorem Charted.le_length {states : Array State} (h : Charted g start input states) {j : Nat} {s : State}
    (state : states[j]? = some s) : j ≤ input.length := by
  cases j with
  | zero => exact Nat.zero_le _
  | succ j =>
    obtain ⟨t, read, -⟩ := h.read state
    exact (List.getElem?_eq_some_iff.mp read).1

def Waits (states : Array State) (j : Nat) (u : Usage) : Prop :=
  ∃ (s : State) (i : Nat) (item : Item), states[j]? = some s ∧ s.items[i]? = some item ∧ item.key.op = .scan u

theorem awaits_of_waits (analyzed : g.Analyzed) {j : Nat}
    (waits : Waits (grow g #[] (close g #[] (firstState g start)) input).1 j u) :
    g.Awaits [.rule start] (input.take j) u := by
  obtain ⟨s, i, item, state, found, op⟩ := waits
  have reason := (grow_charted analyzed start input).1.valid.items state found
  obtain ⟨trees, behind⟩ := reason.real
  have foreseen := (grown_keyed analyzed (foreseen_inherited g start input) foreseen_first state).all found
  have scans : item.key.op.part? = some (.symbol (.usage u)) := by
    rw [op]
    rfl
  have here := foreseen.awaits reason.key behind scans .here
  rwa [List.append_nil] at here

end Chart

namespace Forest

open Chart

variable {g : Grammar} {start : RuleId} {input : List Token} {states : Array State} {failed : Option Nat}

/-- A canonical tree of one symbol leads over the symbol. -/
theorem crossed_of_parses (analyzed : g.Analyzed) (h : Charted g start input states)
    (ends : Ends g input states failed) {x : Symbol} {i m : Nat} {ts : List Tree} {p : Penalty}
    (parsed : g.Parses input [.symbol x] i m ts p) (canonical : ∀ t ∈ ts, t.Canonical g) :
    ∃ y, Crossed g input states (.symbol x) i m y := by
  cases x with
  | empty =>
    cases parsed with
    | empty rest =>
      cases rest
      exact ⟨_, .empty⟩
  | usage u =>
    cases parsed with
    | usage found accepted rest =>
      cases rest
      exact ⟨_, .usage found accepted⟩
  | rule r =>
    obtain ⟨t, rfl, -⟩ := parsed.single_rule
    have met : Crossed g input states (Target.rule r).part i m (.single t) :=
      .target (fulfilled_of_parses analyzed h ends parsed (canonical t (List.mem_cons_self ..)))
    exact ⟨_, met⟩
  | group k =>
    have parsed : g.Parses input [(Target.group k).part] i m ts p := parsed
    obtain ⟨t, rfl, -⟩ := parsed.single_target
    have met : Crossed g input states (Target.group k).part i m (.single t) :=
      .target (fulfilled_of_parses analyzed h ends parsed (canonical t (List.mem_cons_self ..)))
    exact ⟨_, met⟩

theorem crossed_of_derives (analyzed : g.Analyzed) (h : Charted g start input states)
    (ends : Ends g input states failed) {x : Symbol} {i : Nat} {ts : List Token} {p : Penalty}
    (derives : g.Derives [x] ts p) (placed : Grammar.Placed ts input i) :
    ∃ y, Crossed g input states (.symbol x) i (i + ts.length) y := by
  obtain ⟨trees, parsed⟩ := derives.parses input i placed
  obtain ⟨trees', p', -, parsed', canonical⟩ := parsed.canonical
  exact crossed_of_parses analyzed h ends parsed' canonical

/-- An item that predicts has what its target starts with beside it. -/
theorem Reached.opened (h : Charted g start input states) {key : ItemKey} {keys : List ItemKey} {target : Target}
    {i : Nat} {s : Stem} (reached : Reached g states keys i s) (member : key ∈ keys) (op : key.op = .predict target) :
    Reached g states (g.openingKeys target i) i .empty := by
  obtain ⟨ref, rfl, has, -⟩ := reached key member
  obtain ⟨here, item, state, found, rfl⟩ := HasKey.state has
  exact reached_opening h state fun k opening => (h.served state found).opened op opening

/-- Where another repetition may follow, the group is waiting for it after any number of them that could be read. -/
theorem Reached.repeated (analyzed : g.Analyzed) (h : Charted g start input states) (ends : Ends g input states failed)
    {k : GroupId} {d : GroupDef} {count i : Nat} {ts : List Token} {p : Penalty} (known : g.group? k = some d)
    (more : d.canRepeat count = true) (before : g.Derives (List.replicate count d.production).flatten ts p)
    (placed : Grammar.Placed ts input i) (opened : Reached g states (g.openingKeys (.group k) i) i .empty) :
    ∃ n s, Reached g states [⟨.group k, 0, i, n, .predict (.iteration k)⟩] (i + ts.length) s := by
  obtain ⟨trees, parsed⟩ := before.parses input i placed
  obtain ⟨trees, parsed⟩ := parsed.repeated known
  obtain ⟨trees, p', -, parsed, canonical⟩ := parsed.canonical
  have begun : Reached g states (Grammar.groupKeys k d i (d.clamp 0)) i .empty := by
    simpa [Grammar.openingKeys, known] using opened
  -- A group without an upper bound needs no repetition that reads nothing.
  obtain ⟨count', trees', p'', parsed', canonical', narrow, more'⟩ : ∃ count' trees' p'',
      g.Parses input (List.replicate count' (.iteration k)) i (i + ts.length) trees' p'' ∧
      (∀ t ∈ trees', t.Canonical g) ∧ (d.isUnbounded = true → ∀ (n : Nat) (t : Tree), trees'[n]? = some t →
        t.span.isEmpty = true → n < max d.min.toNat 1) ∧ d.canRepeat count' = true := by
    by_cases unbounded : d.isUnbounded = true
    · obtain ⟨count', trees', p'', -, -, parsed', inside, narrow⟩ := parsed.trim (max d.min.toNat 1)
      exact ⟨count', trees', p'', parsed', fun t member => canonical t (inside t member), fun _ => narrow,
        by simp [GroupDef.canRepeat, unbounded]⟩
    · exact ⟨count, trees, p', parsed, canonical, fun yes => absurd yes unbounded, more⟩
  have room : d.isUnbounded = true ∨ 0 + count' ≤ d.max.toNat := by
    simp only [GroupDef.canRepeat, Bool.or_eq_true, decide_eq_true_eq] at more'
    exact more'.imp_right fun less => by omega
  have ended := (carried_of_parses analyzed h ends parsed' canonical').iterations known rfl
    (fun unbounded n t place empty => by
      rw [Nat.zero_add]
      exact narrow unbounded n t (by rwa [children_stemOf] at place) empty) room begun
  rw [Nat.zero_add] at ended
  refine ⟨d.clamp count', _, fun key member => ended key ?_⟩
  rw [List.mem_singleton.mp member]
  exact mem_groupKeys.mpr (.inl ⟨(d.canRepeat_clamp count').trans more', rfl⟩)

/-- An item that stands before symbols that can come to a usage leads to one that waits for the usage. -/
theorem Reached.waits (analyzed : g.Analyzed) (h : Charted g start input states) (ends : Ends g input states failed)
    {ss : List Symbol} {ts : List Token} {u : Usage} (awaits : g.Awaits ss ts u) {owner : Owner} {dot origin i : Nat}
    {s : Stem} (walks : owner.Walks g) (left : (g.symbolsOf owner).drop dot = ss)
    (placed : Grammar.Placed ts input i) (reached : Reached g states [g.dottedKey owner dot origin] i s) :
    Waits states (i + ts.length) u := by
  have first {x : Symbol} {ss : List Symbol} {owner : Owner} {dot origin : Nat}
      (left : (g.symbolsOf owner).drop dot = x :: ss) :
      (g.dottedKey owner dot origin).op.part? = some (.symbol x) := by
    have here : ((g.symbolsOf owner).drop dot)[0]? = some x := by rw [left]; rfl
    rw [List.getElem?_drop, Nat.add_zero] at here
    rw [part?_dotted, here, Option.map_some]
  induction awaits generalizing owner dot origin i s with
  | here =>
    obtain ⟨ref, rfl, has, -⟩ := reached _ (List.mem_cons_self ..)
    obtain ⟨state, item, there, found, same⟩ := HasKey.state has
    exact ⟨state, ref.index, item, there, found, by rw [same]; exact Operation.eq_scan (first left)⟩
  | @past x ss ts ts' u cost before rest ih =>
    obtain ⟨y, crossed⟩ := crossed_of_derives analyzed h ends before placed.left
    obtain ⟨ref, rfl, has, behind⟩ := reached _ (List.mem_cons_self ..)
    have moved := crossed.reached h ends has (first left) behind fun _ => isSaturated_dotted walks dot origin
    rw [nextKeys_dotted walks] at moved
    have further : (g.symbolsOf owner).drop (dot + 1) = ss := by
      rw [← List.drop_drop, left, List.drop_one, List.tail_cons]
    rw [List.length_append, ← Nat.add_assoc]
    exact ih walks further placed.right moved
  | @rule r d production ss ts u known chosen inner ih =>
    obtain ⟨n, place⟩ := List.mem_iff_getElem?.mp chosen
    obtain ⟨walks', rfl⟩ := walks_of_chosen known place
    have steps : (g.dottedKey owner dot origin).op.part? = some (Target.rule r).part := first left
    have opened := reached.opened h (List.mem_cons_self ..) (Operation.eq_predict steps)
    exact ih walks' rfl placed (opened.production walks')
  | @group k d count ss ts ts' u cost known more before inner ih =>
    have steps : (g.dottedKey owner dot origin).op.part? = some (Target.group k).part := first left
    have opened := reached.opened h (List.mem_cons_self ..) (Operation.eq_predict steps)
    obtain ⟨n, s, waiting⟩ := Reached.repeated analyzed h ends known more before placed.left opened
    have begun := waiting.opened h (List.mem_cons_self ..) rfl
    rw [List.length_append, ← Nat.add_assoc]
    have walks' : (Owner.iteration k).Walks g := ⟨d, known⟩
    have whole : (g.symbolsOf (.iteration k)).drop 0 = d.production := symbolsOf_iteration known
    exact ih walks' whole placed.right begun

theorem waits_of_awaits (analyzed : g.Analyzed) (h : Charted g start input states) (ends : Ends g input states failed)
    {j : Nat} {u : Usage} (inside : j ≤ input.length) (awaits : g.Awaits [.rule start] (input.take j) u) :
    Waits states j u := by
  obtain ⟨first, state, begun⟩ := h.begun
  obtain ⟨production, chosen, inner⟩ := awaits.of_rule
  obtain ⟨n, place⟩ := List.mem_iff_getElem?.mp chosen
  cases known : g.rule? start with
  | none => simp [Grammar.productions, known] at chosen
  | some d =>
    obtain ⟨walks, rfl⟩ := walks_of_chosen known (by simpa [Grammar.productions, known] using place)
    have opened := reached_opening h state begun
    have placed : Grammar.Placed (input.take j) input 0 := by
      intro n t here
      rw [Nat.zero_add]
      rw [List.getElem?_take] at here
      split at here
      · exact here
      · cases here
    have waits := Reached.waits analyzed h ends inner walks rfl placed (opened.production walks)
    rwa [List.length_take, Nat.min_eq_left inside, Nat.zero_add] at waits

end Forest

/-- Where something stops that goes on from each of some positions or does not. -/
structure StopsAt (goes : Nat → Prop) (n : Nat) (failed : Option Nat) : Prop where
  stop : ∀ {k}, failed = some k → k < n ∧ (∀ j < k, goes j) ∧ ¬ goes k
  whole : failed = none → ∀ j < n, goes j

/-- There is only one place where it stops. -/
theorem StopsAt.eq {goes goes' : Nat → Prop} {n : Nat} {failed failed' : Option Nat} (h : StopsAt goes n failed)
    (h' : StopsAt goes' n failed') (same : ∀ j < n, goes j ↔ goes' j) : failed' = failed := by
  cases failed with
  | none =>
    cases failed' with
    | none => rfl
    | some k =>
      obtain ⟨inside, -, stops⟩ := h'.stop rfl
      exact absurd ((same k inside).mp (h.whole rfl k inside)) stops
  | some k =>
    obtain ⟨inside, before, stops⟩ := h.stop rfl
    cases failed' with
    | none => exact absurd ((same k inside).mpr (h'.whole rfl k inside)) stops
    | some k' =>
      obtain ⟨inside', before', stops'⟩ := h'.stop rfl
      rcases Nat.lt_trichotomy k k' with less | rfl | more
      · exact absurd ((same k inside).mpr (before' k less)) stops
      · rfl
      · exact absurd ((same k' inside').mp (before k' more)) stops'

namespace Chart

variable {g : Grammar} {start : RuleId} {input : List Token} {j : Nat} {u : Usage}

/-- The items of a chart wait for what the start rule can come to. -/
theorem waits_iff_awaits (analyzed : g.Analyzed) (inside : j ≤ input.length) :
    Waits (grow g #[] (close g #[] (firstState g start)) input).1 j u ↔ g.Awaits [.rule start] (input.take j) u := by
  obtain ⟨charted, ends⟩ := grow_charted analyzed start input
  exact ⟨awaits_of_waits analyzed, Forest.waits_of_awaits analyzed charted ends inside⟩

def GoesOnAt (g : Grammar) (start : RuleId) (input : List Token) (j : Nat) : Prop :=
  ∃ t, input[j]? = some t ∧ g.GoesOn [.rule start] (input.take j) t

/-- States are made as long as the start rule can take the next token. -/
theorem grow_stopsAt (analyzed : g.Analyzed) (start : RuleId) (input : List Token) :
    StopsAt (GoesOnAt g start input) input.length (grow g #[] (close g #[] (firstState g start)) input).2 := by
  obtain ⟨charted, ends⟩ := grow_charted analyzed start input
  have goes {j : Nat} (more : j + 1 < (grow g #[] (close g #[] (firstState g start)) input).1.size) :
      GoesOnAt g start input j := by
    obtain ⟨s, t, state, read, accepting⟩ := grow_accepting (Nat.zero_le j) (Array.getElem?_eq_getElem more)
    obtain ⟨⟨i, item⟩, member⟩ := List.exists_mem_of_ne_nil _ accepting
    obtain ⟨found, u, op, accepted⟩ := (mem_accepting (charted.valid.coherent state)).mp member
    exact ⟨t, read, u, awaits_of_waits analyzed ⟨s, i, item, state, found, op⟩, accepted⟩
  constructor
  · intro k failed
    rw [failed] at ends
    obtain ⟨size, t, s, read, state, refused⟩ := ends
    have inside := (List.getElem?_eq_some_iff.mp read).1
    refine ⟨inside, fun j less => goes (by omega), ?_⟩
    rintro ⟨t', read', u, awaits, accepted⟩
    cases read.symm.trans read'
    obtain ⟨s', i, item, state', found, op⟩ := (waits_iff_awaits analyzed (Nat.le_of_lt inside)).mpr awaits
    cases state.symm.trans state'
    rw [refused found op] at accepted
    cases accepted
  · intro whole j less
    rw [whole] at ends
    have size : _ = input.length + 1 := ends
    exact goes (by omega)

/-- How many states there are follows from where the run stopped. -/
theorem Ends.size {states : Array State} {failed : Option Nat} (ends : Ends g input states failed) :
    states.size = failed.getD input.length + 1 := by
  cases failed with
  | none => exact ends
  | some k => exact ends.1

end Chart

end Earley
