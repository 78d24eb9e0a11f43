import Earley.Proofs.RankOrder
import Earley.Proofs.RepairReading
import Earley.Proofs.ScanProspects

/-!
# What a state expects

Where every rule spells something, what the start rule can come to after some tokens are the usages that follow, in the
strings that it spells, usages which accept the tokens (`awaits_iff_spells`). Items of the skip rule are the only ones
whose usages a parser does not tell. Where nothing leads to them, it tells of every state exactly these usages
(`expected_exact`).
-/

namespace Earley

namespace Grammar

variable {g : Grammar} {ss ss' : List Symbol} {ts : List Token} {us : List Usage} {u : Usage}

def Spellable (g : Grammar) : Prop := ∀ {r d}, g.rule? r = some d → ∃ us, g.Spells [.rule r] us

/-- No production but those of the skip rule names the skip rule. -/
structure SkipUnnamed (g : Grammar) : Prop where
  rule : ∀ {r d p}, g.rule? r = some d → r ≠ skipRule → p ∈ d.productions → .rule skipRule ∉ p
  group : ∀ {k d}, g.group? k = some d → .rule skipRule ∉ d.production

/-- Tokens that symbols derive are accepted one by one by usages that the symbols spell. -/
theorem Derives.spells {p : Penalty} (h : g.Derives ss ts p) :
    ∃ us, g.Spells ss us ∧ List.Forall₂ (fun t v => g.accepts v t = true) ts us := by
  induction h with
  | nil => exact ⟨[], .nil, .nil⟩
  | empty _ ih =>
    obtain ⟨us, spells, accepted⟩ := ih
    exact ⟨us, .empty spells, accepted⟩
  | usage here _ ih =>
    obtain ⟨us, spells, accepted⟩ := ih
    exact ⟨_, .usage spells, .cons here accepted⟩
  | rule known chosen _ _ inner rest =>
    obtain ⟨vs, spells, accepted⟩ := inner
    obtain ⟨us, spells', accepted'⟩ := rest
    exact ⟨_, .rule known chosen spells spells', List.rel_append accepted accepted'⟩
  | bare known childless _ ih =>
    obtain ⟨us, spells, accepted⟩ := ih
    exact ⟨us, .bare known childless spells, accepted⟩
  | group known admitted _ _ inner rest =>
    obtain ⟨vs, spells, accepted⟩ := inner
    obtain ⟨us, spells', accepted'⟩ := rest
    exact ⟨_, .group known admitted spells spells', List.rel_append accepted accepted'⟩

theorem exists_spells_append (h : ∃ us, g.Spells ss us) (h' : ∃ us, g.Spells ss' us) :
    ∃ us, g.Spells (ss ++ ss') us := by
  obtain ⟨us, left⟩ := h
  obtain ⟨vs, right⟩ := h'
  exact ⟨_, left.append right⟩

theorem exists_spells_copies {p : Production} (one : ∃ us, g.Spells p us) (n : Nat) :
    ∃ us, g.Spells (List.replicate n p).flatten us := by
  induction n with
  | zero => exact ⟨[], .nil⟩
  | succ n ih =>
    rw [List.replicate_succ, List.flatten_cons]
    exact exists_spells_append one ih

/-- Symbols spell something if the groups among them do. -/
theorem Spellable.symbols (h : g.Spellable) {groups : Nat} (scope : ∀ s ∈ ss, s.InScope g.rules.size groups g.sets.size)
    (inner : ∀ k, .group k ∈ ss → ∃ us, g.Spells [.group k] us) : ∃ us, g.Spells ss us := by
  induction ss with
  | nil => exact ⟨[], .nil⟩
  | cons s ss ih =>
    obtain ⟨here, others⟩ := List.forall_mem_cons.mp scope
    have rest := ih others fun k member => inner k (List.mem_cons_of_mem _ member)
    suffices first : ∃ us, g.Spells [s] us from exists_spells_append first rest
    cases s with
    | empty => exact ⟨[], .empty .nil⟩
    | rule r =>
      obtain ⟨d, known⟩ := rule?_of_lt here
      exact h known
    | usage u => exact ⟨[u], .usage .nil⟩
    | group k => exact inner k (List.mem_cons_self ..)

/-- Groups mention none but older groups, so all of them spell something. -/
theorem Spellable.group (h : g.Spellable) (inScope : g.Scoped) {k : GroupId} {d : GroupDef}
    (known : g.group? k = some d) : (∃ us, g.Spells d.production us) ∧ ∃ us, g.Spells [.group k] us := by
  induction age : k.index using Nat.strongRecOn generalizing k d with
  | ind n ih =>
    have one : ∃ us, g.Spells d.production us := by
      refine h.symbols (fun s => inScope.group known) fun k' member => ?_
      have older : k'.index < k.index := inScope.group known member
      have bound := (Array.getElem?_eq_some_iff.mp known).1
      exact (ih k'.index (age ▸ older) (Array.getElem?_eq_getElem (Nat.lt_trans older bound)) rfl).2
    obtain ⟨us, spells⟩ := exists_spells_copies one d.min.toNat
    exact ⟨one, _, .group known (inScope.feasible known) spells .nil⟩

/-- All symbols that are in scope spell something. -/
theorem Spellable.inScope (h : g.Spellable) (inScope : g.Scoped)
    (scope : ∀ s ∈ ss, s.InScope g.rules.size g.groups.size g.sets.size) : ∃ us, g.Spells ss us :=
  h.symbols scope fun _ member => (h.group inScope (Array.getElem?_eq_getElem (scope _ member))).2

/-- What symbols can come to stands in a string that they spell, after usages that accept the tokens. -/
theorem Awaits.spells (h : g.Awaits ss ts u) (spellable : g.Spellable) (inScope : g.Scoped)
    (scope : ∀ s ∈ ss, s.InScope g.rules.size g.groups.size g.sets.size) :
    ∃ us vs, g.Spells ss (us ++ u :: vs) ∧ List.Forall₂ (fun t v => g.accepts v t = true) ts us := by
  induction h with
  | here =>
    obtain ⟨vs, rest⟩ := spellable.inScope inScope (List.forall_mem_cons.mp scope).2
    exact ⟨[], vs, .usage rest, .nil⟩
  | past before _ ih =>
    obtain ⟨us, spells, accepted⟩ := before.spells
    obtain ⟨us', vs, spells', accepted'⟩ := ih (List.forall_mem_cons.mp scope).2
    have whole := spells.append spells'
    rw [← List.append_assoc] at whole
    exact ⟨_, vs, whole, List.rel_append accepted accepted'⟩
  | rule known chosen _ ih =>
    obtain ⟨us, vs, spells, accepted⟩ := ih fun s => inScope.rule known chosen
    obtain ⟨ws, rest⟩ := spellable.inScope inScope (List.forall_mem_cons.mp scope).2
    have whole := Spells.rule known chosen spells rest
    rw [List.append_assoc, List.cons_append] at whole
    exact ⟨us, _, whole, accepted⟩
  | @group k d count ss ts ts' u cost known more before _ ih =>
    have older : ∀ s ∈ d.production, s.InScope g.rules.size g.groups.size g.sets.size := fun s member =>
      (inScope.group known member).mono (Nat.le_refl _) (Nat.le_of_lt (Array.getElem?_eq_some_iff.mp known).1)
        (Nat.le_refl _)
    obtain ⟨us, spells, accepted⟩ := before.spells
    obtain ⟨us', vs, spells', accepted'⟩ := ih older
    -- Enough repetitions follow to reach the least number of them.
    obtain ⟨xs, further⟩ := exists_spells_copies (spellable.group inScope known).1
      (max (count + 1) d.min.toNat - (count + 1))
    obtain ⟨ws, rest⟩ := spellable.inScope inScope (List.forall_mem_cons.mp scope).2
    have copies : (List.replicate (max (count + 1) d.min.toNat) d.production).flatten =
        (List.replicate count d.production).flatten ++ (d.production ++
          (List.replicate (max (count + 1) d.min.toNat - (count + 1)) d.production).flatten) := by
      rw [← List.flatten_cons, ← List.replicate_succ, ← List.flatten_append, List.replicate_append_replicate]
      congr 2
      omega
    have admitted := GroupDef.admits_of_canRepeat (inScope.feasible known) ((d.canRepeat_clamp count).trans more)
    have whole := Spells.group known admitted (copies ▸ spells.append (spells'.append further)) rest
    refine ⟨us ++ us', vs ++ xs ++ ws, ?_, List.rel_append accepted accepted'⟩
    simpa using whole

/-- Where usages accept the tokens, symbols that spell the usages come to the usage after them. -/
theorem Spells.awaits {all vs : List Usage} (h : g.Spells ss all) (split : all = us ++ u :: vs)
    (accepted : List.Forall₂ (fun t v => g.accepts v t = true) ts us) : g.Awaits ss ts u := by
  -- A string of two halves has the usage in the first, or all of that half is among the usages before.
  have halves {xs ys us vs : List Usage} {ts : List Token} (split : xs ++ ys = us ++ u :: vs)
      (accepted : List.Forall₂ (fun t v => g.accepts v t = true) ts us) : (∃ zs, xs = us ++ u :: zs) ∨
      ∃ zs ts₁ ts₂, ts = ts₁ ++ ts₂ ∧ ys = zs ++ u :: vs ∧ List.Forall₂ (fun t v => g.accepts v t = true) ts₁ xs ∧
        List.Forall₂ (fun t v => g.accepts v t = true) ts₂ zs := by
    rcases List.append_eq_append_iff.mp split with ⟨zs, rfl, same⟩ | ⟨zs, rfl, same⟩
    · exact .inr ⟨zs, ts.take xs.length, ts.drop xs.length, (List.take_append_drop ..).symm, same,
        List.forall₂_take_append _ _ _ accepted, List.forall₂_drop_append _ _ _ accepted⟩
    · cases zs with
      | nil =>
        refine .inr ⟨[], ts, [], (List.append_nil ts).symm, same.symm, by simpa using accepted, .nil⟩
      | cons z zs =>
        cases same
        exact .inl ⟨zs, rfl⟩
  induction h generalizing us vs ts with
  | nil => simp at split
  | empty _ ih => simpa using Awaits.past (.empty .nil) (ih split accepted)
  | @usage v ss all _ ih =>
    cases accepted with
    | nil =>
      cases split
      exact .here
    | cons here others =>
      obtain ⟨rfl, rest⟩ := List.cons.inj split
      simpa using Awaits.past (.usage here .nil) (ih rest others)
  | @rule r d production xs ss ys known chosen inner _ ihInner ihRest =>
    rcases halves split accepted with ⟨zs, same⟩ | ⟨zs, ts₁, ts₂, rfl, same, first, others⟩
    · exact .rule known chosen (ihInner same accepted)
    · obtain ⟨cost, derives⟩ := inner.derives first
      have one := Derives.rule known chosen derives .nil
      rw [List.append_nil] at one
      exact .past one (ihRest same others)
  | bare known childless _ ih => simpa using Awaits.past (.bare known childless .nil) (ih split accepted)
  | @group k d count xs ss ys known admitted inner _ ihInner ihRest =>
    rcases halves split accepted with ⟨zs, same⟩ | ⟨zs, ts₁, ts₂, rfl, same, first, others⟩
    · obtain ⟨n, less, ts₁, ts₂, cost, rfl, before, inside⟩ := (ihInner same accepted).of_copies
      refine .group known ?_ before inside
      simp only [GroupDef.canRepeat, Bool.or_eq_true, decide_eq_true_eq]
      exact admitted.2.imp_right (Nat.lt_of_lt_of_le less)
    · obtain ⟨cost, derives⟩ := inner.derives first
      have one := Derives.group known admitted derives .nil
      rw [List.append_nil] at one
      exact .past one (ihRest same others)

/-- What the start rule can come to are the usages that follow usages which accept the tokens. -/
theorem awaits_iff_spells (spellable : g.Spellable) (inScope : g.Scoped) {r : RuleId} (known : r.index < g.rules.size) :
    g.Awaits [.rule r] ts u ↔ ∃ us vs, g.Spells [.rule r] (us ++ u :: vs) ∧
      List.Forall₂ (fun t v => g.accepts v t = true) ts us := by
  constructor
  · exact fun awaits => awaits.spells spellable inScope (List.forall_mem_singleton.mpr known)
  · rintro ⟨us, vs, spells, accepted⟩
    exact spells.awaits rfl accepted

end Grammar

namespace Chart

open Grammar

variable {g : Grammar} {start : RuleId} {input : List Token}

/-- Where nothing names the skip rule, nothing predicts it. -/
theorem target_ne_skipRule {j : Nat} {key : ItemKey} {target : Target} (unnamed : g.SkipUnnamed)
    (other : key.owner.target ≠ .rule skipRule) (valid : key.Valid g j) (op : key.op = .predict target) :
    target ≠ .rule skipRule := by
  rintro rfl
  have steps : key.op.part? = some (.symbol (.rule skipRule)) := by rw [op]; rfl
  cases valid with
  | @dotted owner dot origin walks =>
    rw [part?_dotted] at steps
    obtain ⟨s, here, same⟩ := Option.map_eq_some_iff.mp steps
    cases same
    have member := List.mem_of_getElem? here
    cases owner with
    | group k => exact walks.elim
    | rule r n =>
      obtain ⟨d, known, chosen⟩ := walks.production
      exact unnamed.rule known (fun same => other (congrArg Target.rule same)) (List.mem_of_getElem? chosen) member
    | iteration k =>
      obtain ⟨d, known⟩ := walks
      rw [symbolsOf_iteration known] at member
      exact unnamed.group known member
  | group _ _ _ inside => rcases mem_groupKeys.mp inside with ⟨-, rfl⟩ | ⟨-, rfl⟩ <;> cases op

theorem unskipped_inherited (unnamed : g.SkipUnnamed) (input : List Token) :
    Inherited (fun key => key.owner.target ≠ .rule skipRule) g input where
  next other key' member := by
    rw [next_owner member]
    exact other
  opening other valid _ op key' member := by
    rw [target_opening member]
    exact target_ne_skipRule unnamed other valid op

theorem isSome_scan?_iff {s : State} (coherent : s.Coherent) {j : Nat} {t : Token} :
    (scan? g j s t).isSome = true ↔ ∃ (i : Nat) (item : Item) (u : Usage),
      s.items[i]? = some item ∧ item.key.op = .scan u ∧ g.accepts u t = true := by
  have accepting : (scan? g j s t).isSome = true ↔ ∃ x, x ∈ s.accepting g t := by
    rw [scan?]
    cases s.accepting g t <;> simp
  rw [accepting]
  constructor
  · rintro ⟨⟨i, item⟩, member⟩
    obtain ⟨found, u, op, accepted⟩ := (mem_accepting coherent).mp member
    exact ⟨i, item, u, found, op, accepted⟩
  · rintro ⟨i, item, u, found, op, accepted⟩
    exact ⟨(i, item), (mem_accepting coherent).mpr ⟨found, u, op, accepted⟩⟩

end Chart

namespace Parser

open Chart Grammar

/-- An item of another rule than the skip rule tells what it waits for. -/
theorem expectedBy_eq_some_iff {item : Item} (other : item.key.owner.target ≠ .rule skipRule) {u : Usage} :
    expectedBy item = some u ↔ item.key.op = .scan u := by
  obtain ⟨⟨owner, dot, origin, count, op⟩, _⟩ := item
  cases owner with
  | rule r n =>
    have differ : r ≠ skipRule := fun same => other (congrArg Target.rule same)
    cases op <;> simp [expectedBy, differ]
  | group k => cases op <;> simp [expectedBy]
  | iteration k => cases op <;> simp [expectedBy]

/-- A parser expects, in order and without repetition, what the items of a state wait for. -/
theorem expected_lists {p : Parser} {k : Nat} {s : State} (state : p.states[k]? = some s) (coherent : s.Coherent)
    (unskipped : s.All fun item => item.key.owner.target ≠ .rule skipRule) :
    ∃ us, p.expected k = .ok us ∧ Ascending Usage.rank us ∧
      ∀ u, u ∈ us ↔ ∃ (i : Nat) (item : Item), s.items[i]? = some item ∧ item.key.op = .scan u := by
  refine ⟨_, by simp only [expected, Parser.state, state]; rfl, ascending_sortByRank _ _, fun u => ?_⟩
  rw [mem_sortByRank Usage.rank_injective, List.mem_filterMap]
  constructor
  · rintro ⟨i, -, told⟩
    obtain ⟨item, found, told⟩ := Option.bind_eq_some_iff.mp told
    exact ⟨i, item, found, (expectedBy_eq_some_iff (unskipped found)).mp told⟩
  · rintro ⟨i, item, found, op⟩
    refine ⟨i, coherent.mem_scanners.mpr ⟨item, u, found, op⟩, ?_⟩
    rw [found, Option.bind_some, expectedBy_eq_some_iff (unskipped found)]
    exact op

/-- Where every rule spells something and nothing leads to the skip rule, a parser expects of each state, in order and
without repetition, just the usages that follow, in strings that the start rule spells, usages which accept the tokens
read before. A token leads on from a state just when one of these accepts it. -/
theorem expected_exact (p : Parser) (start : RuleId) (tokens : List Token) (reachable : Reachable p.grammar)
    (fresh : p.states = #[]) (starts : p.grammar.start = some start) (spellable : p.grammar.Spellable)
    (unnamed : p.grammar.SkipUnnamed) (other : start ≠ skipRule) :
    ∃ outcome p', (run tokens).run p = .ok outcome p' ∧ ∀ k s, p'.states[k]? = some s →
      ∃ us, p'.expected k = .ok us ∧ Ascending Usage.rank us ∧
        (∀ u, u ∈ us ↔ ∃ before after, p.grammar.Spells [.rule start] (before ++ u :: after) ∧
          List.Forall₂ (fun t v => p.grammar.accepts v t = true) ((tokens.takeWhile (!·.isFinish)).take k) before) ∧
        ∀ t, (scan? p.grammar k s t).isSome = true ↔ ∃ u ∈ us, p.grammar.accepts u t = true := by
  refine ⟨_, _, run_eq p tokens fresh starts, fun k s state => ?_⟩
  dsimp only at state
  have charted := (build_charted reachable.analyzed start tokens).1
  have coherent := charted.valid.coherent state
  have keyed := grown_keyed reachable.analyzed (unskipped_inherited unnamed _)
    (fun key member => by rw [target_opening member]; exact fun same => other (Target.rule.inj same)) state
  obtain ⟨us, told, ascending, listed⟩ := expected_lists (p := { p with states := (build p.grammar start tokens).1 })
    state coherent keyed.all
  refine ⟨us, told, ascending, fun u => ?_, fun t => ?_⟩
  · rw [← awaits_iff_spells spellable reachable.inScope (reachable.inScope.start starts),
      ← waits_iff_awaits reachable.analyzed (charted.le_length state), listed]
    constructor
    · rintro ⟨i, item, found, op⟩
      exact ⟨s, i, item, state, found, op⟩
    · rintro ⟨s', i, item, state', found, op⟩
      cases state.symm.trans state'
      exact ⟨i, item, found, op⟩
  · rw [isSome_scan?_iff coherent]
    constructor
    · rintro ⟨i, item, u, found, op, accepted⟩
      exact ⟨u, (listed u).mpr ⟨i, item, found, op⟩, accepted⟩
    · rintro ⟨u, member, accepted⟩
      obtain ⟨i, item, found, op⟩ := (listed u).mp member
      exact ⟨i, item, u, found, op, accepted⟩

theorem loopGrammar_spellable : loopGrammar.Spellable := by
  intro r d known
  obtain ⟨ts, cost, derives⟩ := loopGrammar_fertile.rule known
  obtain ⟨us, spells, -⟩ := derives.spells
  exact ⟨us, spells⟩

theorem loopGrammar_skipUnnamed : loopGrammar.SkipUnnamed := by
  have rules : ∀ i < loopGrammar.rules.size, i ≠ 0 → ∀ p ∈ loopGrammar.productions ⟨i⟩, .rule skipRule ∉ p := by
    decide +kernel
  have groups : loopGrammar.groups = #[] := by decide +kernel
  refine ⟨fun {r d p} known other chosen => ?_, fun {k d} known => ?_⟩
  · refine rules r.index (lt_size_of_rule? known) (fun zero => other (congrArg RuleId.mk zero)) p ?_
    simpa [productions, known] using chosen
  · simp [group?, groups] at known

theorem run_loopGrammar_expected :
    ∃ outcome q, (run [.ofChar 'a']).run (.new loopGrammar {}) = .ok outcome q ∧ 1 < q.states.size ∧
      (q.expected 0).toOption = some [.terminal (.ofChar 'a')] ∧ (q.expected 1).toOption = some [] := by
  refine ⟨_, _, run_eq (.new loopGrammar {}) [.ofChar 'a'] rfl loopGrammar_start, ?_, ?_, ?_⟩ <;> decide +kernel

/-- A letter is expected at first, and nothing after it. -/
theorem expected_loopGrammar_exact :
    ∃ outcome q, (run [.ofChar 'a']).run (.new loopGrammar {}) = .ok outcome q ∧
      q.expected 0 = .ok [.terminal (.ofChar 'a')] ∧ q.expected 1 = .ok [] ∧
      (∃ before after, loopGrammar.Spells [.rule ⟨2⟩] (before ++ .terminal (.ofChar 'a') :: after) ∧
        List.Forall₂ (fun t v => loopGrammar.accepts v t = true) [] before) ∧
      ∀ u, ¬ ∃ before after, loopGrammar.Spells [.rule ⟨2⟩] (before ++ u :: after) ∧
        List.Forall₂ (fun t v => loopGrammar.accepts v t = true) [.ofChar 'a'] before := by
  obtain ⟨outcome, q, ran, two, letter, nothing⟩ := run_loopGrammar_expected
  obtain ⟨_, _, ran', exact⟩ := expected_exact (.new loopGrammar {}) ⟨2⟩ [.ofChar 'a'] loopGrammar_reachable rfl
    loopGrammar_start loopGrammar_spellable loopGrammar_skipUnnamed (by decide)
  obtain ⟨-, rfl⟩ := EStateM.Result.ok.inj (ran.symm.trans ran')
  obtain ⟨us, first, -, listed, -⟩ := exact 0 _ (Array.getElem?_eq_getElem (Nat.zero_lt_of_lt two))
  obtain ⟨vs, second, -, listed', -⟩ := exact 1 _ (Array.getElem?_eq_getElem two)
  rw [first] at letter
  rw [second] at nothing
  cases letter
  cases nothing
  exact ⟨outcome, _, ran, first, second, (listed _).mp (List.mem_singleton_self _), fun u found =>
    List.not_mem_nil ((listed' u).mpr found)⟩

def skipGrammar : Grammar := (Call.setStart skipRule).after (.empty false)

/-- The skip rule as the start rule is the one case that is left out: it spells that anything follows, but its items are
never told. -/
theorem expected_skipGrammar_lacks :
    Reachable skipGrammar ∧ skipGrammar.tolerant = false ∧ skipGrammar.start = some skipRule ∧
      skipGrammar.Spellable ∧ skipGrammar.SkipUnnamed ∧
      (∃ outcome q, (run [.ofChar 'a']).run (.new skipGrammar {}) = .ok outcome q ∧ q.expected 0 = .ok []) ∧
      skipGrammar.Spells [.rule skipRule] [.any] := by
  have rules : ∀ i < skipGrammar.rules.size, i ≠ 0 → skipGrammar.productions ⟨i⟩ = [[.empty]] := by decide +kernel
  have skip : [.usage .any] ∈ skipGrammar.productions skipRule := by decide +kernel
  have groups : skipGrammar.groups = #[] := by decide +kernel
  have starts : skipGrammar.start = some skipRule := by decide +kernel
  have anything : skipGrammar.Spells [.rule skipRule] [.any] := by
    cases known : skipGrammar.rule? skipRule with
    | none => simp [productions, known] at skip
    | some d => exact .rule known (by simpa [productions, known] using skip) (.usage .nil) .nil
  have others {r : RuleId} {d : RuleDef} (known : skipGrammar.rule? r = some d) (other : r ≠ skipRule) :
      d.productions = [[.empty]] := by
    have only := rules r.index (lt_size_of_rule? known) fun zero => other (congrArg RuleId.mk zero)
    simpa [productions, known] using only
  refine ⟨.step _ (.empty false), by decide +kernel, starts, fun {r d} known => ?_,
    ⟨fun {r d p} known other chosen => ?_, fun {k d} known => ?_⟩,
    ⟨_, _, run_eq (.new skipGrammar {}) _ rfl starts, ?_⟩, anything⟩
  · by_cases other : r = skipRule
    · exact other ▸ ⟨_, anything⟩
    · exact ⟨_, .rule known (others known other ▸ List.mem_singleton_self _) (.empty .nil) .nil⟩
  · rw [others known other, List.mem_singleton] at chosen
    simp [chosen]
  · simp [group?, groups] at known
  · cbv

end Parser

end Earley
