import Earley.Proofs.KeyProperties
import Earley.Proofs.Recognition

/-!
# Viable prefixes

Where every rule derives something and every usage accepts some token, a run stops just at the first token that no
derivation from the start rule allows (`run_stops_at_viable_end`). Every item of a chart has a left context: whatever
its target derives can be completed to a derivation from the start rule that begins with the tokens read before.
-/

namespace Earley

/-- Where another repetition may follow, enough of them may. -/
theorem GroupDef.admits_of_canRepeat {d : GroupDef} {n : Nat} (feasible : d.Admits d.min.toNat)
    (more : d.canRepeat (d.clamp n) = true) : d.Admits (Max.max (n + 1) d.min.toNat) := by
  obtain ⟨-, most⟩ := feasible
  refine ⟨Nat.le_max_right .., ?_⟩
  by_cases unbounded : d.isUnbounded = true
  · exact .inl unbounded
  · have room : n < d.max.toNat := by simpa [canRepeat, clamp, unbounded] using more
    exact .inr (Nat.max_le.mpr ⟨room, most.resolve_left unbounded⟩)

namespace Grammar

/-- Some derivation from the rule begins with the tokens. -/
def Viable (g : Grammar) (start : RuleId) (ts : List Token) : Prop :=
  ∃ rest cost, g.Derives [.rule start] (ts ++ rest) cost

def Uses (g : Grammar) (u : Usage) : Prop :=
  (∃ r d p, g.rule? r = some d ∧ p ∈ d.productions ∧ Symbol.usage u ∈ p) ∨
    ∃ k d, g.group? k = some d ∧ Symbol.usage u ∈ d.production

/-- Every rule derives something, and every usage accepts some token besides the end of the input. -/
structure Fertile (g : Grammar) : Prop where
  rule : ∀ {r d}, g.rule? r = some d → ∃ ts cost, g.Derives [.rule r] ts cost
  usage : ∀ {u}, g.Uses u → ∃ t, t.isFinish = false ∧ g.accepts u t = true

variable {g : Grammar} {start : RuleId}

theorem Viable.of_append {ts us : List Token} (h : g.Viable start (ts ++ us)) : g.Viable start ts := by
  obtain ⟨rest, cost, derives⟩ := h
  exact ⟨us ++ rest, cost, by rwa [← List.append_assoc]⟩

theorem Viable.take_of_le {ts : List Token} {m n : Nat} (h : g.Viable start (ts.take n)) (le : m ≤ n) :
    g.Viable start (ts.take m) := by
  rw [← List.take_append_drop m (ts.take n), List.take_take, Nat.min_eq_left le] at h
  exact h.of_append

theorem exists_derives_append {ss ss' : List Symbol} (h : ∃ ts cost, g.Derives ss ts cost)
    (h' : ∃ ts cost, g.Derives ss' ts cost) : ∃ ts cost, g.Derives (ss ++ ss') ts cost := by
  obtain ⟨ts, cost, left⟩ := h
  obtain ⟨ts', cost', right⟩ := h'
  exact ⟨_, _, left.append right⟩

theorem exists_derives_rule {r : RuleId} {production : Production} (chosen : production ∈ g.productions r)
    (inner : ∃ ts cost, g.Derives production ts cost) : ∃ ts cost, g.Derives [.rule r] ts cost := by
  obtain ⟨ts, cost, derives⟩ := inner
  cases known : g.rule? r with
  | none => simp [productions, known] at chosen
  | some d => exact ⟨_, _, .rule known (by simpa [productions, known] using chosen) derives .nil⟩

theorem productions_eq (g : Grammar) (r : RuleId) :
    g.productions r = (g.rules.toList.map (·.productions)).getD r.index [] := by
  cases known : g.rule? r with
  | none => simp_all [productions, rule?]
  | some d => simp_all [productions, rule?]

theorem exists_derives_all {ss : List Symbol} (each : ∀ s ∈ ss, ∃ ts cost, g.Derives [s] ts cost) :
    ∃ ts cost, g.Derives ss ts cost := by
  induction ss with
  | nil => exact ⟨[], 0, .nil⟩
  | cons s ss ih =>
    obtain ⟨here, others⟩ := List.forall_mem_cons.mp each
    exact exists_derives_append here (ih others)

theorem exists_derives_copies {p : Production} (one : ∃ ts cost, g.Derives p ts cost) (n : Nat) :
    ∃ ts cost, g.Derives (List.replicate n p).flatten ts cost := by
  induction n with
  | zero => exact ⟨[], 0, .nil⟩
  | succ n ih =>
    rw [List.replicate_succ, List.flatten_cons]
    exact exists_derives_append one ih

/-- A production derives something if its groups do. -/
theorem Fertile.production (h : g.Fertile) {ss : List Symbol} {groups : Nat}
    (scope : ∀ s ∈ ss, s.InScope g.rules.size groups g.sets.size) (used : ∀ u, .usage u ∈ ss → g.Uses u)
    (inner : ∀ k, .group k ∈ ss → ∃ ts cost, g.Derives [.group k] ts cost) : ∃ ts cost, g.Derives ss ts cost := by
  refine exists_derives_all fun s member => ?_
  cases s with
  | empty => exact ⟨[], 0, .empty .nil⟩
  | rule r =>
    obtain ⟨d, known⟩ := rule?_of_lt (scope _ member)
    exact h.rule known
  | usage u =>
    obtain ⟨t, -, accepted⟩ := h.usage (used u member)
    exact ⟨[t], 0, .usage accepted .nil⟩
  | group k => exact inner k member

/-- Groups mention none but older groups, so all of them derive something. -/
theorem Fertile.group (h : g.Fertile) (inScope : g.Scoped) {k : GroupId} {d : GroupDef} (known : g.group? k = some d) :
    (∃ ts cost, g.Derives d.production ts cost) ∧ ∃ ts cost, g.Derives [.group k] ts cost := by
  induction age : k.index using Nat.strongRecOn generalizing k d with
  | ind n ih =>
    have one : ∃ ts cost, g.Derives d.production ts cost := by
      refine h.production (fun s => inScope.group known) (fun u member => .inr ⟨k, d, known, member⟩) ?_
      intro k' member
      have older : k'.index < k.index := inScope.group known member
      have bound := (Array.getElem?_eq_some_iff.mp known).1
      exact (ih k'.index (age ▸ older) (Array.getElem?_eq_getElem (Nat.lt_trans older bound)) rfl).2
    obtain ⟨ts, cost, derives⟩ := exists_derives_copies one d.min.toNat
    exact ⟨one, _, _, .group known (inScope.feasible known) derives .nil⟩

end Grammar

namespace Chart

variable {g : Grammar} {start : RuleId} {input : List Token}

/-- Whatever the target derives continues the first `i` tokens in some derivation from the start rule. -/
def Rooted (g : Grammar) (start : RuleId) (input : List Token) (i : Nat) (target : Target) : Prop :=
  ∀ (us : List Token) (cost : Penalty), g.Derives (g.partSymbols target.part) us cost →
    g.Viable start (input.take i ++ us)

theorem Owner.Walks.fertile (fertile : g.Fertile) (inScope : g.Scoped) {owner : Owner} (walks : owner.Walks g)
    {ss : List Symbol} (part : ∀ s ∈ ss, s ∈ g.symbolsOf owner) : ∃ ts cost, g.Derives ss ts cost := by
  have groups (k : GroupId) (known : k.index < g.groups.size) : ∃ ts cost, g.Derives [.group k] ts cost :=
    (fertile.group inScope (Array.getElem?_eq_getElem known)).2
  cases owner with
  | group k => exact walks.elim
  | rule r n =>
    obtain ⟨d, known, chosen⟩ := walks.production
    have member := List.mem_of_getElem? chosen
    have scope (s : Symbol) (inside : s ∈ ss) := inScope.rule known member (part s inside)
    exact fertile.production scope (fun u inside => .inl ⟨r, d, _, known, member, part _ inside⟩)
      fun k inside => groups k (scope _ inside)
  | iteration k =>
    obtain ⟨d, known⟩ := walks
    rw [symbolsOf_iteration known] at part
    have bound := (Array.getElem?_eq_some_iff.mp known).1
    have scope (s : Symbol) (inside : s ∈ ss) := inScope.group known (part s inside)
    exact fertile.production scope (fun u inside => .inr ⟨k, d, known, part _ inside⟩)
      fun k' inside => groups k' (Nat.lt_trans (scope _ inside) bound)

/-- What an owner walks along derives what its target does. -/
theorem Owner.Walks.derives_target {owner : Owner} (walks : owner.Walks g) {us : List Token} {cost : Penalty}
    (derives : g.Derives (g.symbolsOf owner) us cost) :
    ∃ cost', g.Derives (g.partSymbols owner.target.part) us cost' := by
  cases owner with
  | group k => exact walks.elim
  | rule r n =>
    obtain ⟨d, known, chosen⟩ := walks.production
    have whole := Grammar.Derives.rule known (List.mem_of_getElem? chosen) derives .nil
    rw [List.append_nil] at whole
    exact ⟨_, whole⟩
  | iteration k =>
    obtain ⟨d, known⟩ := walks
    rw [symbolsOf_iteration known] at derives
    exact ⟨cost, by simpa [Owner.target, Target.part, Grammar.partSymbols, known] using derives⟩

/-- What an item steps over next, and all that is left after it, completes what lies behind the item. -/
theorem Behind.derives_target (fertile : g.Fertile) (inScope : g.Scoped) {j : Nat} {key : ItemKey} {part : Part}
    {ts : List Tree} {p : Penalty} (valid : key.Valid g j) (behind : Behind g input key j ts p)
    (steps : key.op.part? = some part) {us : List Token} {cost : Penalty}
    (derives : g.Derives (g.partSymbols part) us cost) : ∃ vs cost',
    g.Derives (g.partSymbols key.owner.target.part) (Grammar.slice input key.origin j ++ (us ++ vs)) cost' := by
  cases valid with
  | @dotted owner dot origin walks place begun =>
    rw [part?_dotted] at steps
    obtain ⟨s, here, rfl⟩ := Option.map_eq_some_iff.mp steps
    have before := ((behind_dotted walks).mp behind).derives
    rw [Grammar.flatMap_symbols] at before
    obtain ⟨vs, q, after⟩ := walks.fertile fertile inScope fun s (member : s ∈ (g.symbolsOf owner).drop (dot + 1)) =>
      List.mem_of_mem_drop member
    have split : g.symbolsOf owner = (g.symbolsOf owner).take dot ++ ([s] ++ (g.symbolsOf owner).drop (dot + 1)) := by
      obtain ⟨bound, rfl⟩ := List.getElem?_eq_some_iff.mp here
      rw [List.singleton_append, ← List.drop_eq_getElem_cons bound, List.take_append_drop]
    have whole : g.Derives (_ ++ ([s] ++ _)) _ _ := before.append (Grammar.Derives.append derives after)
    rw [← split] at whole
    exact ⟨vs, walks.derives_target whole⟩
  | @group k d origin count key known counted begun inside =>
    rcases mem_groupKeys.mp inside with ⟨more, rfl⟩ | ⟨-, rfl⟩
    · cases steps
      obtain ⟨d', known', clamped, parsed⟩ := behind
      cases known.symm.trans known'
      dsimp only at clamped parsed
      have before := parsed.derives
      rw [Grammar.flatMap_iterations known] at before
      have one : g.Derives d.production us cost := by simpa [Target.part, Grammar.partSymbols, known] using derives
      -- Enough repetitions follow to reach the least number of them.
      obtain ⟨vs, q, after⟩ := Grammar.exists_derives_copies (fertile.group inScope known).1
        (max (ts.length + 1) d.min.toNat - (ts.length + 1))
      have copies : List.replicate (max (ts.length + 1) d.min.toNat) d.production =
          List.replicate ts.length d.production ++ ([d.production] ++
            List.replicate (max (ts.length + 1) d.min.toNat - (ts.length + 1)) d.production) := by
        rw [← List.replicate_one, List.replicate_append_replicate, List.replicate_append_replicate]
        congr 1
        omega
      have whole := before.append (one.append after)
      have admitted := GroupDef.admits_of_canRepeat (inScope.feasible known) (clamped ▸ more)
      have group : g.Derives [.group k] (Grammar.slice input origin j ++ (us ++ vs) ++ []) (p + (cost + q) + 0) := by
        apply Grammar.Derives.group known admitted _ .nil
        simpa [copies] using whole
      rw [List.append_nil] at group
      exact ⟨vs, _, group⟩
    · simp [Operation.part?] at steps

/-- A step keeps where an item began. -/
theorem origin_next {key key' : ItemKey} (member : key' ∈ g.nextKeys key) : key'.origin = key.origin := by
  rw [Grammar.nextKeys] at member
  split at member
  case h_1 =>
    split at member
    · rcases mem_groupKeys.mp member with ⟨-, rfl⟩ | ⟨-, rfl⟩ <;> rfl
    · simp at member
  case h_2 =>
    rw [List.mem_singleton.mp member]
    rfl

/-- What a prediction starts from recognizes its target. -/
theorem target_opening {target : Target} {j : Nat} {key : ItemKey} (member : key ∈ g.openingKeys target j) :
    key.owner.target = target := by
  cases target with
  | rule r =>
    obtain ⟨p, -, rfl⟩ := List.mem_map.mp member
    rfl
  | group k =>
    rw [Grammar.openingKeys] at member
    split at member
    case h_1 => rcases mem_groupKeys.mp member with ⟨-, rfl⟩ | ⟨-, rfl⟩ <;> rfl
    case h_2 => simp at member
  | iteration k =>
    rw [List.mem_singleton.mp member]
    rfl

/-- Where an item has a left context, what it steps over next continues the tokens read. -/
theorem Rooted.viable (fertile : g.Fertile) (inScope : g.Scoped) {j : Nat} {key : ItemKey} {part : Part}
    {ts : List Tree} {p : Penalty} (rooted : Rooted g start input key.origin key.owner.target) (valid : key.Valid g j)
    (behind : Behind g input key j ts p) (steps : key.op.part? = some part) {us : List Token} {cost : Penalty}
    (derives : g.Derives (g.partSymbols part) us cost) : g.Viable start (input.take j ++ us) := by
  obtain ⟨vs, cost', whole⟩ := behind.derives_target fertile inScope valid steps derives
  have viable := rooted _ _ whole
  have read : input.take key.origin ++ Grammar.slice input key.origin j = input.take j :=
    Grammar.slice_append input (Nat.zero_le _) valid.origin_le
  rw [← List.append_assoc, ← List.append_assoc, read] at viable
  exact viable.of_append

/-- A left context is handed on by predictions and kept by steps. -/
theorem rooted_inherited (fertile : g.Fertile) (inScope : g.Scoped) (start : RuleId) (input : List Token) :
    Inherited (fun key => Rooted g start input key.origin key.owner.target) g input where
  next rooted key' member := by
    rw [origin_next member, next_owner member]
    exact rooted
  opening rooted valid behind op key' member := by
    rw [(origin_opening member).1, target_opening member]
    intro us cost derives
    exact rooted.viable fertile inScope valid behind (by rw [op]; rfl) derives

theorem rooted_first (key : ItemKey) (member : key ∈ g.openingKeys (.rule start) 0) :
    Rooted g start input key.origin key.owner.target := by
  rw [(origin_opening member).1, target_opening member]
  intro us cost derives
  exact ⟨[], cost, by rw [List.append_nil]; exact derives⟩

/-- Reading on leaves the states as they are. -/
theorem getElem?_grow (g : Grammar) (past : Array State) (last : State) (rest : List Token) {j : Nat}
    (before : j ≤ past.size) : (grow g past last rest).1[j]? = (past.push last)[j]? := by
  induction rest generalizing past last with
  | nil => rfl
  | cons t rest ih =>
    rw [grow]
    split
    case h_1 next _ =>
      rw [ih (past.push last) _ (by simp; omega)]
      exact getElem?_push_lt _ (by simp; omega)
    case h_2 => rfl

/-- A state follows another because some item of that accepts the token in between. -/
theorem grow_accepting {past : Array State} {last s' : State} {rest : List Token} {j : Nat} (later : past.size ≤ j)
    (state : (grow g past last rest).1[j + 1]? = some s') :
    ∃ s t, (grow g past last rest).1[j]? = some s ∧ rest[j - past.size]? = some t ∧ s.accepting g t ≠ [] := by
  have short (past : Array State) (last : State) (later : past.size ≤ j) :
      (past.push last)[j + 1]? ≠ some s' := by
    intro state
    have := (Array.getElem?_eq_some_iff.mp state).1
    rw [Array.size_push] at this
    omega
  induction rest generalizing past last with
  | nil => exact absurd state (short past last later)
  | cons t rest ih =>
    have here := getElem?_grow g past last (t :: rest) (Nat.le_refl past.size)
    rw [getElem?_push_size] at here
    cases scanned : scan? g past.size last t with
    | none =>
      rw [grow, scanned] at state
      exact absurd state (short past last later)
    | some next =>
      rcases Nat.lt_or_eq_of_le later with more | rfl
      · rw [grow, scanned] at state ⊢
        obtain ⟨s, t', found, read, accepting⟩ := ih (by simpa using more) state
        refine ⟨s, t', found, ?_, accepting⟩
        rw [Array.size_push] at read
        rw [show j - past.size = j - (past.size + 1) + 1 by omega]
        exact read
      · refine ⟨last, t, here, by simp, fun none => ?_⟩
        rw [scan?, none] at scanned
        cases scanned

theorem le_of_grow_fails {past : Array State} {last : State} {ts : List Token} {k : Nat}
    (failed : (grow g past last ts).2 = some k) : past.size ≤ k := by
  induction ts generalizing past last with
  | nil => cases failed
  | cons t ts ih =>
    rw [grow] at failed
    split at failed
    · have := ih failed
      rw [Array.size_push] at this
      omega
    · cases failed
      exact Nat.le_refl _

/-- Whether a token is refused does not depend on what follows it. -/
theorem grow_fails_iff {past : Array State} {last : State} {ts : List Token} (us : List Token) {k : Nat}
    (inside : k < past.size + ts.length) :
    (grow g past last (ts ++ us)).2 = some k ↔ (grow g past last ts).2 = some k := by
  induction ts generalizing past last with
  | nil =>
    rw [List.length_nil] at inside
    constructor <;> intro failed
    · exact absurd (le_of_grow_fails failed) (by omega)
    · cases failed
  | cons t ts ih =>
    rw [List.cons_append, grow, grow]
    split
    · apply ih
      rw [Array.size_push]
      rw [List.length_cons] at inside
      omega
    · rfl

/-- The tokens that states have been made for are viable. -/
theorem viable_of_grow (fertile : g.Fertile) (inScope : g.Scoped) (analyzed : g.Analyzed)
    (known : ∃ d, g.rule? start = some d) {j : Nat} {s : State}
    (state : (grow g #[] (close g #[] (firstState g start)) input).1[j]? = some s) : g.Viable start (input.take j) := by
  cases j with
  | zero =>
    obtain ⟨d, known⟩ := known
    obtain ⟨ts, cost, derives⟩ := fertile.rule known
    exact ⟨ts, cost, derives⟩
  | succ j =>
    obtain ⟨before, t, state', read, accepting⟩ := grow_accepting (Nat.zero_le j) state
    obtain ⟨⟨i, item⟩, member⟩ := List.exists_mem_of_ne_nil _ accepting
    have valid := (grow_charted analyzed start input).1.valid
    obtain ⟨found, u, op, accepted⟩ := (mem_accepting (valid.coherent state')).mp member
    have reason := valid.items state' found
    obtain ⟨ts, behind⟩ := reason.real
    have rooted := (grown_keyed analyzed (rooted_inherited fertile inScope start input) rooted_first state').all found
    have scans : item.key.op.part? = some (.symbol (.usage u)) := by
      rw [op]
      rfl
    have next := rooted.viable fertile inScope reason.key behind scans (.usage accepted .nil)
    rw [List.take_add_one, show input[j]? = some t by simpa using read]
    exact next

/-- Tokens with a derivation that begins with them are all read. -/
theorem not_fails_of_viable (analyzed : g.Analyzed) {ts : List Token} (viable : g.Viable start ts) {k : Nat}
    (inside : k < ts.length) : (grow g #[] (close g #[] (firstState g start)) ts).2 ≠ some k := by
  obtain ⟨rest, cost, derives⟩ := viable
  obtain ⟨t, tree, -⟩ := Grammar.derives_iff_isTree.mp derives
  obtain ⟨t', tree', canonical, -⟩ := tree.canonical
  obtain ⟨charted, ends⟩ := grow_charted analyzed start (ts ++ rest)
  obtain ⟨whole, -⟩ := Forest.derivable_of_isTree analyzed charted ends tree' canonical
  intro failed
  rw [← grow_fails_iff rest (by simpa using inside)] at failed
  rw [whole] at failed
  cases failed

end Chart

namespace Grammar

variable {g : Grammar} {start : RuleId} {ts : List Token} {failed : Option Nat}

/-- Where the tokens stop being viable: at a position, or nowhere. -/
structure ViableUpTo (g : Grammar) (start : RuleId) (ts : List Token) (failed : Option Nat) : Prop where
  stop : ∀ {k}, failed = some k → g.Viable start (ts.take k) ∧ ¬ g.Viable start (ts.take (k + 1))
  whole : failed = none → g.Viable start ts

/-- There is only one place where tokens stop being viable. -/
theorem ViableUpTo.eq_some_iff (h : ViableUpTo g start ts failed) (k : Nat) :
    failed = some k ↔ g.Viable start (ts.take k) ∧ ¬ g.Viable start (ts.take (k + 1)) := by
  refine ⟨h.stop, ?_⟩
  rintro ⟨here, after⟩
  cases failed with
  | none =>
    have whole := h.whole rfl
    rw [← List.take_append_drop (k + 1) ts] at whole
    exact absurd whole.of_append after
  | some k' =>
    obtain ⟨here', after'⟩ := h.stop rfl
    have le : ¬ k + 1 ≤ k' := fun less => after (here'.take_of_le less)
    have ge : ¬ k' + 1 ≤ k := fun less => after' (here.take_of_le less)
    rw [show k' = k by omega]

theorem ViableUpTo.eq_none_iff (h : ViableUpTo g start ts failed) : failed = none ↔ g.Viable start ts := by
  refine ⟨h.whole, fun whole => ?_⟩
  cases failed with
  | none => rfl
  | some k =>
    obtain ⟨-, after⟩ := h.stop rfl
    rw [← List.take_append_drop (k + 1) ts] at whole
    exact absurd whole.of_append after

end Grammar

namespace Chart

variable {g : Grammar} {start : RuleId}

/-- States are made just as long as the tokens are viable. -/
theorem grow_viableUpTo (fertile : g.Fertile) (inScope : g.Scoped) (analyzed : g.Analyzed)
    (known : ∃ d, g.rule? start = some d) (ts : List Token) :
    g.ViableUpTo start ts (grow g #[] (close g #[] (firstState g start)) ts).2 := by
  obtain ⟨charted, ends⟩ := grow_charted analyzed start ts
  have viable {j : Nat} {s : State} (state : (grow g #[] (close g #[] (firstState g start)) ts).1[j]? = some s) :=
    viable_of_grow fertile inScope analyzed known state
  constructor
  · intro k failed
    rw [failed] at ends
    obtain ⟨size, t, s, read, state, -⟩ := ends
    refine ⟨viable state, fun further => ?_⟩
    have inside := (List.getElem?_eq_some_iff.mp read).1
    have early : k < (ts.take (k + 1)).length := by
      rw [List.length_take]
      omega
    apply not_fails_of_viable analyzed further early
    rw [← grow_fails_iff (ts.drop (k + 1)) (by simpa using early), List.take_append_drop]
    exact failed
  · intro whole
    rw [whole] at ends
    have size : _ = ts.length + 1 := ends
    have last : ts.length < (grow g #[] (close g #[] (firstState g start)) ts).1.size := by omega
    have := viable (Array.getElem?_eq_getElem last)
    rwa [List.take_length] at this

end Chart

namespace Parser

open Chart

/-- Where every rule derives something and every usage accepts some token, a run on tokens that do not include the end
of the input stops at the first token that makes them a prefix of no derivation from the start rule. It counts the
tokens before it, and makes one state more than these and none for the token it stops at. -/
theorem run_stops_at_viable_end (p : Parser) (start : RuleId) (tokens : List Token) (reachable : Reachable p.grammar)
    (fresh : p.states = #[]) (starts : p.grammar.start = some start) (fertile : p.grammar.Fertile)
    (complete : ∀ t ∈ tokens, t.isFinish = false) :
    ∃ outcome p', (run tokens).run p = .ok outcome p' ∧
      (∀ k, outcome.failedAt = some k ↔
        p.grammar.Viable start (tokens.take k) ∧ ¬ p.grammar.Viable start (tokens.take (k + 1))) ∧
      (outcome.failedAt = none ↔ p.grammar.Viable start tokens) ∧
      outcome.tokens = outcome.failedAt.getD tokens.length ∧ outcome.states = outcome.tokens + 1 ∧
      p'.states.size = outcome.states := by
  have known := Grammar.rule?_of_lt (reachable.inScope.start starts)
  have viable := grow_viableUpTo fertile reachable.inScope reachable.analyzed known tokens
  obtain ⟨charted, ends⟩ := build_charted reachable.analyzed start tokens
  rw [takeWhile_eq_self complete] at charted ends
  have same : grow p.grammar #[] (close p.grammar #[] (firstState p.grammar start)) tokens =
      build p.grammar start tokens := by
    rw [build, takeWhile_eq_self complete]
  rw [same] at viable
  have size : (build p.grammar start tokens).1.size = (build p.grammar start tokens).2.getD tokens.length + 1 := by
    generalize (build p.grammar start tokens).2 = failed at *
    cases failed with
    | none => exact ends
    | some k => exact ends.1
  refine ⟨_, _, run_eq p tokens fresh starts, viable.eq_some_iff, viable.eq_none_iff, ?_, ?_, rfl⟩
  · simp [Recognition.ofStates, size]
  · simp [Recognition.ofStates, size]

theorem loopGrammar_productions : loopGrammar.rules.toList.map (·.productions) =
    [[[.usage .any], [.rule ⟨0⟩, .usage .any]], [[.empty]],
      [[.rule ⟨3⟩], [.usage (.terminal (.ofChar 'a'))]], [[.rule ⟨2⟩]]] := by decide +kernel

theorem loopGrammar_fertile : loopGrammar.Fertile := by
  have letter : loopGrammar.accepts (.terminal (.ofChar 'a')) (.ofChar 'a') = true := by decide +kernel
  have any : loopGrammar.accepts .any (.ofChar 'a') = true := by decide +kernel
  have none : loopGrammar.groups = #[] := by decide +kernel
  have rules := loopGrammar_productions
  -- From here on only these facts matter.
  generalize loopGrammar = g at *
  have size : g.rules.size = 4 := by simpa using congrArg List.length rules
  have skip : g.productions ⟨0⟩ = [[.usage .any], [.rule ⟨0⟩, .usage .any]] := by
    rw [Grammar.productions_eq, rules]; rfl
  have assume : g.productions ⟨1⟩ = [[.empty]] := by rw [Grammar.productions_eq, rules]; rfl
  have loop : g.productions ⟨2⟩ = [[.rule ⟨3⟩], [.usage (.terminal (.ofChar 'a'))]] := by
    rw [Grammar.productions_eq, rules]; rfl
  have detour : g.productions ⟨3⟩ = [[.rule ⟨2⟩]] := by rw [Grammar.productions_eq, rules]; rfl
  have first : ∃ ts cost, g.Derives [.rule ⟨2⟩] ts cost := by
    apply Grammar.exists_derives_rule (loop ▸ List.mem_cons_of_mem _ (List.mem_singleton_self _))
    exact ⟨_, _, .usage letter .nil⟩
  constructor
  · intro r d known
    have bound := Grammar.lt_size_of_rule? known
    rw [size] at bound
    obtain ⟨i⟩ := r
    interval_cases i
    · exact Grammar.exists_derives_rule (skip ▸ List.mem_cons_self) ⟨_, _, .usage any .nil⟩
    · exact Grammar.exists_derives_rule (assume ▸ List.mem_cons_self) ⟨_, _, .empty .nil⟩
    · exact first
    · exact Grammar.exists_derives_rule (detour ▸ List.mem_cons_self) first
  · rintro u (⟨r, d, p, known, chosen, member⟩ | ⟨k, d, known, -⟩)
    · have bound := Grammar.lt_size_of_rule? known
      rw [size] at bound
      have chosen : p ∈ g.productions r := by simpa [Grammar.productions, known] using chosen
      refine ⟨.ofChar 'a', by decide, ?_⟩
      obtain ⟨i⟩ := r
      interval_cases i
      · rw [skip] at chosen
        simp only [List.mem_cons, List.not_mem_nil, or_false] at chosen
        rcases chosen with rfl | rfl <;> simp at member <;> rw [member, any]
      · rw [assume] at chosen
        simp only [List.mem_singleton] at chosen
        simp [chosen] at member
      · rw [loop] at chosen
        simp only [List.mem_cons, List.not_mem_nil, or_false] at chosen
        rcases chosen with rfl | rfl <;> simp at member
        rw [member, letter]
      · rw [detour] at chosen
        simp only [List.mem_singleton] at chosen
        simp [chosen] at member
    · simp [Grammar.group?, none] at known

theorem run_loopGrammar_stops :
    ∃ outcome p', (run [.ofChar 'a', .ofChar 'b']).run (.new loopGrammar {}) = .ok outcome p' ∧
      outcome.failedAt = some 1 ∧ loopGrammar.Viable ⟨2⟩ [.ofChar 'a'] ∧
      ¬ loopGrammar.Viable ⟨2⟩ [.ofChar 'a', .ofChar 'b'] ∧ outcome.tokens = 1 ∧ p'.states.size = 2 := by
  obtain ⟨outcome, p', ran, stops, -, tokens, states, size⟩ := run_stops_at_viable_end (.new loopGrammar {}) ⟨2⟩
    [.ofChar 'a', .ofChar 'b'] loopGrammar_reachable rfl loopGrammar_start loopGrammar_fertile (by decide)
  have failed : outcome.failedAt = some 1 := by
    rw [run_eq (.new loopGrammar {}) [.ofChar 'a', .ofChar 'b'] rfl loopGrammar_start] at ran
    cases ran
    decide +kernel
  obtain ⟨viable, ends⟩ := (stops 1).mp failed
  rw [failed] at tokens
  exact ⟨outcome, p', ran, failed, viable, ends, tokens, by rw [size, states, tokens]; rfl⟩

end Parser

end Earley
