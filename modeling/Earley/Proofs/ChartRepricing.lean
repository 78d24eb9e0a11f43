import Earley.Proofs.Recognition
import Earley.Proofs.Repricing

/-!
# Charts at other prices

Penalties flow into a chart, along every step, and nothing flows back: without its penalties the chart of a grammar is
the chart of the grammar without penalties. So two grammars that were built at different prices have charts that differ
in penalties alone.
-/

namespace Earley

namespace Grammar

variable (g : Grammar)

theorem rule?_unpriced (r : RuleId) : g.unpriced.rule? r = (g.rule? r).map RuleDef.unpriced := Array.getElem?_map

theorem group?_unpriced (k : GroupId) : g.unpriced.group? k = (g.group? k).map GroupDef.unpriced := Array.getElem?_map

@[simp] theorem accepts_unpriced (u : Usage) (t : Token) : g.unpriced.accepts u t = g.accepts u t :=
  accepts_congr rfl u t

@[simp] theorem productions_unpriced (r : RuleId) : g.unpriced.productions r = g.productions r := by
  rw [productions, rule?_unpriced, productions]
  cases g.rule? r <;> rfl

@[simp] theorem symbolsOf_unpriced : g.unpriced.symbolsOf = g.symbolsOf := by
  funext owner
  cases owner with
  | rule r p => simp [symbolsOf]
  | group k => rfl
  | iteration k =>
    rw [symbolsOf, group?_unpriced, symbolsOf]
    cases g.group? k <;> rfl

@[simp] theorem openingKeys_unpriced (target : Chart.Target) (origin : Nat) :
    g.unpriced.openingKeys target origin = g.openingKeys target origin := by
  cases target with
  | rule r => simp [openingKeys, dottedKey]
  | group k =>
    rw [openingKeys, group?_unpriced, openingKeys]
    cases g.group? k <;> rfl
  | iteration k => simp [openingKeys, dottedKey]

@[simp] theorem nextKeys_unpriced (key : Chart.ItemKey) : g.unpriced.nextKeys key = g.nextKeys key := by
  obtain ⟨owner, dot, origin, count, op⟩ := key
  cases owner with
  | group k =>
    simp only [nextKeys, group?_unpriced]
    cases g.group? k <;> rfl
  | _ => simp [nextKeys, dottedKey]

@[simp] theorem isSaturated_unpriced (key : Chart.ItemKey) : g.unpriced.isSaturated key = g.isSaturated key := by
  obtain ⟨owner, dot, origin, count, op⟩ := key
  cases owner with
  | group k =>
    simp only [isSaturated, group?_unpriced]
    cases g.group? k <;> rfl
  | _ => rfl

@[simp] theorem targetPenalty_unpriced (target : Chart.Target) : g.unpriced.targetPenalty target = 0 := by
  cases target with
  | rule r =>
    rw [targetPenalty, rulePenalty, rule?_unpriced]
    cases g.rule? r <;> rfl
  | _ => rfl

theorem nullCost_symbol_unpriced (s : Symbol) :
    g.unpriced.toTables.nullCost.symbol s = unpricedCost (g.toTables.nullCost.symbol s) := by
  cases s with
  | rule r =>
    change (g.unpriced.rule? r).bind RuleDef.nullPenalty = unpricedCost ((g.rule? r).bind RuleDef.nullPenalty)
    rw [rule?_unpriced]
    cases g.rule? r <;> rfl
  | group k =>
    change (g.unpriced.group? k).bind GroupDef.nullPenalty = unpricedCost ((g.group? k).bind GroupDef.nullPenalty)
    rw [group?_unpriced]
    cases g.group? k <;> rfl
  | _ => rfl

theorem nullCost_production_unpriced (p : Production) :
    g.unpriced.toTables.nullCost.production p = unpricedCost (g.toTables.nullCost.production p) := by
  induction p with
  | nil => rfl
  | cons s ss ih =>
    rw [NullCost.production_cons, NullCost.production_cons, nullCost_symbol_unpriced, ih]
    cases g.toTables.nullCost.symbol s <;> cases g.toTables.nullCost.production ss <;> rfl

@[simp] theorem targetNullCost_unpriced (target : Chart.Target) :
    g.unpriced.targetNullCost target = unpricedCost (g.targetNullCost target) := by
  cases target with
  | rule r => exact nullCost_symbol_unpriced g (.rule r)
  | group k => exact nullCost_symbol_unpriced g (.group k)
  | iteration k =>
    simp only [targetNullCost, group?_unpriced]
    cases g.group? k with
    | none => rfl
    | some d => exact nullCost_production_unpriced g d.production

@[simp] theorem keyBound_unpriced (j : Nat) : g.unpriced.keyBound j = g.keyBound j := by
  simp only [keyBound, unpriced, Array.toList_map, total_map]
  rfl

end Grammar

namespace Chart

def Item.unpriced (item : Item) : Item := { item with penalty := 0 }

def State.unpriced (s : State) : State := { s with items := s.items.map Item.unpriced }

def Cause.unpriced : Cause → Cause
  | .advanced link _ start => .advanced link 0 start
  | cause => cause

theorem Item.unpriced_arrive (key : ItemKey) (here : ItemRef) (cause : Cause) :
    (Item.arrive key here cause).unpriced = .arrive key here cause.unpriced := by
  cases cause <;> rfl

theorem Item.unpriced_rearrive (item : Item) (cause : Cause) :
    (item.rearrive cause).unpriced = item.unpriced.rearrive cause.unpriced := by
  cases cause with
  | advanced link penalty start =>
    have links : item.unpriced.links = item.links := rfl
    simp only [rearrive, Cause.unpriced, links]
    split <;> rfl
  | _ => rfl

namespace State

theorem getElem?_unpriced (s : State) (i : Nat) : s.unpriced.items[i]? = s.items[i]?.map Item.unpriced :=
  Array.getElem?_map

theorem unpriced_mapItem (s : State) (i : Nat) (f f' : Item → Item)
    (alike : ∀ item, (f item).unpriced = f' item.unpriced) : (s.mapItem i f).unpriced = s.unpriced.mapItem i f' := by
  simp only [unpriced, mapItem, map_modify alike]

theorem unpriced_push (s : State) (item : Item) : (s.push item).unpriced = s.unpriced.push item.unpriced := by
  have key : item.unpriced.key = item.key := rfl
  simp only [push, key]
  split <;> simp [unpriced]

theorem unpriced_add (s : State) (j : Nat) (cause : Cause) (key : ItemKey) :
    s.unpriced.add j cause.unpriced key = ((s.add j cause key).1.unpriced, (s.add j cause key).2) := by
  have size : s.unpriced.items.size = s.items.size := Array.size_map
  simp only [add, show s.unpriced.index = s.index from rfl, size]
  cases s.index.find? key with
  | some i => rw [unpriced_mapItem s i _ (·.rearrive cause.unpriced) fun item => item.unpriced_rearrive cause]
  | none => rw [unpriced_push, Item.unpriced_arrive]

theorem unpriced_addAll (s : State) (j : Nat) (cause : Cause) (keys : List ItemKey) :
    s.unpriced.addAll j cause.unpriced keys = ((s.addAll j cause keys).1.unpriced, (s.addAll j cause keys).2) := by
  induction keys generalizing s with
  | nil => rfl
  | cons key keys ih => simp only [addAll, unpriced_add, ih]

end State

section Steps

variable (g : Grammar)

/-- Moving an item on adds the same items whatever the step costs. -/
theorem unpriced_advance (j : Nat) (s : State) (ref : ItemRef) (item : Item) (child : Child) (cost : Penalty) :
    advance g.unpriced j s.unpriced ref item.unpriced child 0 =
      ((advance g j s ref item child cost).1.unpriced, (advance g j s ref item child cost).2) := by
  have moved := s.unpriced_addAll j (.advanced ⟨ref, child⟩ (item.penalty + cost) item.start) (g.nextKeys item.key)
  simp only [advance, show item.unpriced.key = item.key from rfl, g.isSaturated_unpriced, g.nextKeys_unpriced]
  split
  · rfl
  · exact moved

theorem unpriced_predict (j : Nat) (s : State) (ref : ItemRef) (item : Item) (target : Target) :
    predict g.unpriced j s.unpriced ref item.unpriced target = (predict g j s ref item target).unpriced := by
  have opened := s.unpriced_addAll j (.predicted ref) (g.openingKeys target j)
  simp only [predict, g.openingKeys_unpriced, g.targetNullCost_unpriced]
  rw [show (Cause.predicted ref).unpriced = .predicted ref from rfl] at opened
  rw [opened]
  have noted := State.unpriced_mapItem (s.addAll j (.predicted ref) (g.openingKeys target j)).1 ref.index
    (·.notePredicted (s.addAll j (.predicted ref) (g.openingKeys target j)).2)
    (·.notePredicted (s.addAll j (.predicted ref) (g.openingKeys target j)).2) fun _ => rfl
  cases g.targetNullCost target with
  | none => exact noted.symm
  | some cost =>
    simp only [unpricedCost, Option.map_some, ← noted]
    rw [unpriced_advance g j _ ref item (.null target) cost]

theorem unpriced_resume (j : Nat) (ref : ItemRef) (cost : Penalty) (origin : Nat) (opened s : State) (i : Nat) :
    resume g.unpriced j ref 0 origin opened.unpriced s.unpriced i =
      (resume g j ref cost origin opened s i).unpriced := by
  simp only [resume, State.getElem?_unpriced]
  cases opened.items[i]? with
  | none => rfl
  | some waiter =>
    simp only [Option.map_some, unpriced_advance g j s ⟨origin, i⟩ waiter (.completed ref) cost]
    exact (State.unpriced_mapItem _ ref.index (·.noteCompleted _) (·.noteCompleted _) fun _ => rfl).symm

theorem unpriced_complete (past : Array State) (s : State) (ref : ItemRef) (item : Item) (target : Target) :
    complete g.unpriced (past.map State.unpriced) s.unpriced ref item.unpriced target =
      (complete g past s ref item target).unpriced := by
  simp only [complete, Array.getElem?_map, show item.unpriced.key = item.key from rfl, Array.size_map,
    g.targetPenalty_unpriced, show item.unpriced.penalty = 0 from rfl, Penalty.zero_add]
  cases past[item.key.origin]? with
  | none => rfl
  | some opened =>
    exact List.foldl_hom State.unpriced fun s i => unpriced_resume g past.size ref _ item.key.origin opened s i

theorem unpriced_serve (past : Array State) (s : State) (i : Nat) :
    serve g.unpriced (past.map State.unpriced) s.unpriced i = (serve g past s i).unpriced := by
  simp only [serve, State.getElem?_unpriced, Array.size_map]
  cases s.items[i]? with
  | none => rfl
  | some item =>
    simp only [Option.map_some, show item.unpriced.key = item.key from rfl]
    cases item.key.op with
    | predict target => exact unpriced_predict g past.size s _ item target
    | passEmpty => exact congrArg Prod.fst (unpriced_advance g past.size s _ item .empty 0)
    | scan u => rfl
    | complete target => exact unpriced_complete g past s _ item target

theorem unpriced_serveFrom (past : Array State) (fuel : Nat) (s : State) (i : Nat) :
    serveFrom g.unpriced (past.map State.unpriced) fuel s.unpriced i = (serveFrom g past fuel s i).unpriced := by
  induction fuel generalizing s i with
  | zero => rfl
  | succ fuel ih =>
    have size : s.unpriced.items.size = s.items.size := Array.size_map
    simp only [serveFrom, size]
    split
    · rw [unpriced_serve, ih]
    · rfl

/-- Closing a state commutes with the loss of prices. -/
theorem unpriced_close (past : Array State) (s : State) :
    close g.unpriced (past.map State.unpriced) s.unpriced = (close g past s).unpriced := by
  rw [close, close, Array.size_map, g.keyBound_unpriced, unpriced_serveFrom]

theorem State.unpriced_entered (token : Option Token) : (entered token).unpriced = entered token := by
  simp [entered, unpriced]

theorem unpriced_firstState (start : RuleId) : firstState g.unpriced start = (firstState g start).unpriced := by
  have opened := (State.entered none).unpriced_addAll 0 .initial (g.openingKeys (.rule start) 0)
  rw [State.unpriced_entered, show Cause.initial.unpriced = .initial from rfl] at opened
  rw [firstState, g.openingKeys_unpriced]
  exact congrArg Prod.fst opened

theorem unpriced_accepting (s : State) (t : Token) :
    s.unpriced.accepting g.unpriced t = (s.accepting g t).map fun x => (x.1, x.2.unpriced) := by
  have accepts (item : Item) : acceptsNext g.unpriced item.unpriced t = acceptsNext g item t := by
    simp only [acceptsNext, show item.unpriced.key = item.key from rfl, g.accepts_unpriced]
  simp only [State.accepting, List.map_filterMap, State.getElem?_unpriced]
  refine List.filterMap_congr fun i _ => ?_
  cases s.items[i]? with
  | none => rfl
  | some item =>
    simp only [Option.map_some, Option.bind_some, accepts]
    split <;> rfl

theorem unpriced_scan? (j : Nat) (s : State) (t : Token) :
    scan? g.unpriced j s.unpriced t = (scan? g j s t).map State.unpriced := by
  have scanned (accepting : List (Nat × Item)) (next : State) :
      (accepting.map fun x => (x.1, x.2.unpriced)).foldl
          (fun next x => (advance g.unpriced (j + 1) next ⟨j, x.1⟩ x.2 .token 0).1) next.unpriced =
        (accepting.foldl (fun next x => (advance g (j + 1) next ⟨j, x.1⟩ x.2 .token 0).1) next).unpriced := by
    rw [List.foldl_map]
    refine List.foldl_hom State.unpriced fun next x => ?_
    rw [unpriced_advance g (j + 1) next ⟨j, x.1⟩ x.2 .token 0]
  simp only [scan?, unpriced_accepting]
  cases s.accepting g t with
  | nil => rfl
  | cons first others =>
    have entered := scanned (first :: others) (.entered (some t))
    rw [State.unpriced_entered] at entered
    exact congrArg some entered

theorem unpriced_grow (past : Array State) (last : State) (tokens : List Token) :
    grow g.unpriced (past.map State.unpriced) last.unpriced tokens =
      ((grow g past last tokens).1.map State.unpriced, (grow g past last tokens).2) := by
  induction tokens generalizing past last with
  | nil => simp [grow]
  | cons t rest ih =>
    simp only [grow, Array.size_map, unpriced_scan?]
    cases scan? g past.size last t with
    | none => simp
    | some next =>
      simp only [Option.map_some]
      rw [← Array.map_push, unpriced_close, ih]

/-- The states of a grammar without prices are those of the grammar, without prices. -/
theorem unpriced_build (start : RuleId) (tokens : List Token) :
    build g.unpriced start tokens = ((build g start tokens).1.map State.unpriced, (build g start tokens).2) := by
  have first := unpriced_close g #[] (firstState g start)
  have later := unpriced_grow g #[] (close g #[] (firstState g start)) (tokens.takeWhile (!·.isFinish))
  rw [Array.map_empty] at first later
  rw [build, unpriced_firstState, first, later]
  rfl

end Steps

end Chart

/-- The outcome of a run is read off what prices do not touch. -/
theorem Recognition.ofStates_unpriced (g : Grammar) (start : RuleId) (states : Array Chart.State)
    (failedAt : Option Nat) :
    ofStates g.unpriced start (states.map Chart.State.unpriced) failedAt = ofStates g start states failedAt := by
  have accepting : Chart.acceptingRefs (states.map Chart.State.unpriced) start = Chart.acceptingRefs states start := by
    simp only [Chart.acceptingRefs, Array.back?_map, Array.size_map]
    cases states.back? with
    | none => rfl
    | some last =>
      simp only [Option.map_some, Chart.State.unpriced, Array.toList_map, List.zipIdx_map, List.filterMap_map]
      rfl
  simp only [ofStates, accepting, Chart.startsEmpty, Array.size_map, g.productions_unpriced]

namespace Parser

open Chart

/-- Whatever penalties were set, runs on the same tokens come to the same outcome and build the same states, up to the
penalties of the items. -/
theorem run_repriced (p q : Parser) (tokens : List Token) (same : Repriced p.grammar q.grammar)
    (fresh : p.states = #[]) (fresh' : q.states = #[]) :
    ((run tokens).run p = .error .noStartRule p ∧ (run tokens).run q = .error .noStartRule q) ∨
      ∃ outcome p' q', (run tokens).run p = .ok outcome p' ∧ (run tokens).run q = .ok outcome q' ∧
        p'.states.map State.unpriced = q'.states.map State.unpriced := by
  have equal := same.unpriced_eq
  have starts : p.grammar.unpriced.start = q.grammar.unpriced.start := congrArg Grammar.start equal
  cases start : p.grammar.start with
  | none =>
    have start' : q.grammar.start = none := starts.symm.trans start
    exact .inl ⟨run_eq_noStartRule p tokens fresh start, run_eq_noStartRule q tokens fresh' start'⟩
  | some r =>
    have built := unpriced_build p.grammar r tokens
    rw [equal, unpriced_build q.grammar r tokens] at built
    obtain ⟨states, failed⟩ := Prod.mk.inj built
    have outcomes : Recognition.ofStates q.grammar r (build q.grammar r tokens).1 (build q.grammar r tokens).2 =
        Recognition.ofStates p.grammar r (build p.grammar r tokens).1 (build p.grammar r tokens).2 := by
      rw [← Recognition.ofStates_unpriced q.grammar, ← Recognition.ofStates_unpriced p.grammar, equal, states, failed]
    have ran := run_eq q tokens fresh' (starts.symm.trans start)
    rw [outcomes] at ran
    exact .inr ⟨_, _, _, run_eq p tokens fresh start, ran, states.symm⟩

/-- Lists of letters whose every node costs the given penalty; a list may be empty. -/
def pricedGrammar (penalty : Penalty) : Grammar :=
  let calls : List Call := [.rule "list", .addProduction ⟨2⟩ [.rule ⟨2⟩, .rule ⟨2⟩], .addProduction ⟨2⟩ [.empty],
    .addProduction ⟨2⟩ [.usage (.terminal (.ofChar 'a'))], .setRulePenalty ⟨2⟩ penalty, .setStart ⟨2⟩]
  calls.foldl (fun g c => c.after g) (.empty false)

theorem pricedGrammar_repriced (p q : Penalty) : Repriced (pricedGrammar p) (pricedGrammar q) := by
  simp only [pricedGrammar, List.foldl_cons, List.foldl_nil]
  exact .step (.step (.step (.step (.step (.step (.empty false) (by rfl)) (by rfl)) (by rfl)) (by rfl)) (by rfl)) (by rfl)

/-- One price adds up; the other is the greatest there is, and stays the same however often it is added. -/
theorem run_pricedGrammar_repriced :
    ∃ outcome p' q', (run [.ofChar 'a']).run (.new (pricedGrammar 1) {}) = .ok outcome p' ∧
      (run [.ofChar 'a']).run (.new (pricedGrammar 4294967295) {}) = .ok outcome q' ∧ outcome.accepted = true ∧
      p'.states.map State.unpriced = q'.states.map State.unpriced ∧
      p'.states.toList.map (fun s => s.items.toList.map (·.penalty)) ≠
        q'.states.toList.map (fun s => s.items.toList.map (·.penalty)) := by
  have start : (pricedGrammar 1).start = some ⟨2⟩ := by decide +kernel
  have start' : (pricedGrammar 4294967295).start = some ⟨2⟩ := by decide +kernel
  have ran := run_eq (.new (pricedGrammar 1) {}) [.ofChar 'a'] rfl start
  have ran' := run_eq (.new (pricedGrammar 4294967295) {}) [.ofChar 'a'] rfl start'
  obtain ⟨refused, -⟩ | ⟨outcome, p', q', left, right, same⟩ := run_repriced (.new (pricedGrammar 1) {})
    (.new (pricedGrammar 4294967295) {}) [.ofChar 'a'] (pricedGrammar_repriced 1 4294967295) rfl rfl
  · cases refused.symm.trans ran
  · refine ⟨outcome, p', q', left, right, ?_, same, ?_⟩
    · cases left.symm.trans ran
      decide +kernel
    · obtain ⟨-, rfl⟩ := EStateM.Result.ok.inj (left.symm.trans ran)
      obtain ⟨-, rfl⟩ := EStateM.Result.ok.inj (right.symm.trans ran')
      decide +kernel

end Parser

end Earley
