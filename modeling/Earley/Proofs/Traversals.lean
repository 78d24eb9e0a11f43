import Earley.Parser.Source
import Earley.Proofs.Collapse
import Earley.Proofs.RepairSoundness
import Earley.Tree.Traversal

/-!
# Reading the input off a tree

The leaves of a derivation tree are the tokens of its input in order, each with its number (`Grammar.Parses.reads`). So
no two leaves have the same number, and the flag that is carried down to a leaf says whether a node of the skip rule
stands above it. Visiting nodes from a stack comes to the same as walking down the tree. Where the tokens come from does
not matter (`returned_reproduce_input`).
-/

namespace Earley

/-- What occurs in the lists of two entries of a list without repetition occurs in those of one entry. -/
theorem eq_of_mem_of_nodup_flatMap {α β : Type} {f : α → List β} {as : List α} (distinct : (as.flatMap f).Nodup)
    {a a' : α} (first : a ∈ as) (second : a' ∈ as) {b : β} (here : b ∈ f a) (there : b ∈ f a') : a = a' := by
  have apart := (List.nodup_flatMap.mp distinct).2
  have symmetric : Std.Symm (Function.onFun List.Disjoint f) := ⟨fun _ _ h => h.symm⟩
  by_contra differ
  exact apart.forall first second differ here there

namespace Tree

theorem leaves_eq (t : Tree) : t.leaves = (if t.token?.isSome then [t] else []) ++ t.children.flatMap leaves := by
  rw [leaves, nodes_eq, List.filter_cons, List.filter_flatMap]
  split <;> rfl

theorem leaves_of_token?_eq_none {t : Tree} (inner : t.token? = none) : t.leaves = t.children.flatMap leaves := by
  rw [leaves_eq, inner]
  rfl

def places (t : Tree) : List Nat := t.leaves.map (·.span.start)

theorem places_eq (t : Tree) :
    t.places = (if t.token?.isSome then [t.span.start] else []) ++ t.children.flatMap places := by
  rw [places, leaves_eq, List.map_append, List.map_flatMap]
  split <;> rfl

theorem mem_places_of_child {t c : Tree} (child : c ∈ t.children) {i : Nat} (here : i ∈ c.places) : i ∈ t.places := by
  rw [places_eq]
  exact List.mem_append_right _ (List.mem_flatMap.mpr ⟨c, child, here⟩)

section Skipped

variable {t : Tree} {i : Nat}

theorem skipsToken_eq (t : Tree) (i : Nat) : t.skipsToken i =
    ((t.rule? == some Grammar.skipRule && decide (i ∈ t.places)) || t.children.any (·.skipsToken i)) := by
  have here : t.leaves.any (·.span.start == i) = decide (i ∈ t.places) := by
    rw [Bool.eq_iff_iff]
    simp [places]
  rw [skipsToken, nodes_eq, List.any_cons, here, List.any_flatMap]
  rfl

/-- Only tokens of the tree are skipped in it. -/
theorem mem_places_of_skipsToken (skips : t.skipsToken i = true) : i ∈ t.places := by
  induction t using induct with
  | step t ih =>
    rw [skipsToken_eq, Bool.or_eq_true, Bool.and_eq_true, decide_eq_true_eq, List.any_eq_true] at skips
    rcases skips with ⟨-, here⟩ | ⟨c, child, below⟩
    · exact here
    · exact mem_places_of_child child (ih c child below)

/-- No node stands above a leaf, so a leaf is not skipped in itself. -/
theorem skipsToken_start (distinct : t.places.Nodup) {x : Token} (token : t.token? = some x) :
    t.skipsToken t.span.start = false := by
  have plain : t.rule? = none := by
    obtain ⟨kind, span, penalty, children⟩ := t
    cases kind <;> simp_all [token?, Tree.rule?, Tree.kind]
  rw [places_eq, token] at distinct
  have apart := (List.nodup_cons.mp distinct).1
  rw [skipsToken_eq, plain, Bool.or_eq_false_iff]
  refine ⟨rfl, List.any_eq_false.mpr fun c child skips => apart ?_⟩
  exact List.mem_flatMap.mpr ⟨c, child, mem_places_of_skipsToken skips⟩

/-- A token below a child is skipped by the node or in the child. -/
theorem skipsToken_of_child (distinct : t.places.Nodup) {c : Tree} (child : c ∈ t.children) (here : i ∈ c.places) :
    t.skipsToken i = (t.rule? == some Grammar.skipRule || c.skipsToken i) := by
  rw [places_eq] at distinct
  have apart := (List.nodup_append.mp distinct).2.1
  have others : t.children.any (·.skipsToken i) = c.skipsToken i := by
    rw [Bool.eq_iff_iff, List.any_eq_true]
    constructor
    · rintro ⟨c', child', skips⟩
      obtain rfl := eq_of_mem_of_nodup_flatMap apart child child' here (mem_places_of_skipsToken skips)
      exact skips
    · exact fun skips => ⟨c, child, skips⟩
  rw [skipsToken_eq, others, decide_eq_true (mem_places_of_child child here), Bool.and_true]

end Skipped

/-- Where no two leaves have the same number, the flag that reaches a leaf tells whether a node of the skip rule stands
above it. -/
theorem leavesFrom_of_distinct {t : Tree} (distinct : t.places.Nodup) (skipped : Bool) :
    t.leavesFrom skipped = t.leaves.filterMap fun n =>
      n.token?.map fun x => ⟨x, n.span.start, skipped || t.skipsToken n.span.start⟩ := by
  induction t using induct generalizing skipped with
  | step t ih =>
    rw [leavesFrom_eq, leaves_eq, List.filterMap_append, List.filterMap_flatMap]
    congr 1
    · cases token : t.token? with
      | none => rfl
      | some x => simp [token, skipsToken_start distinct token]
    · refine List.flatMap_congr fun c child => ?_
      have below := (places_eq t ▸ distinct)
      rw [List.nodup_append] at below
      rw [ih c child ((List.nodup_flatMap.mp below.2.1).1 c child)]
      refine List.filterMap_congr fun n member => ?_
      rw [skipsToken_of_child distinct child (List.mem_map_of_mem member), Bool.or_assoc]

section Stacks

/-- What a traversal finds on a stack, if it deals with each of the topmost entries before it turns to the rest. -/
theorem onStack_append {α β : Type} {find : List α → List β} {f : α → List β} {entries : List α}
    (first : ∀ a ∈ entries, ∀ stack, find (a :: stack) = f a ++ find stack) (stack : List α) :
    find (entries ++ stack) = entries.flatMap f ++ find stack := by
  induction entries with
  | nil => rfl
  | cons a entries ih =>
    obtain ⟨here, others⟩ := List.forall_mem_cons.mp first
    rw [List.cons_append, here, ih others, List.flatMap_cons, List.append_assoc]

theorem leavesOnStack_cons (t : Tree) (stack : List Tree) :
    leavesOnStack (t :: stack) = t.leaves ++ leavesOnStack stack := by
  induction t using induct generalizing stack with
  | step t ih =>
    rw [leavesOnStack, pushAll_eq, onStack_append ih, leaves_eq]
    split <;> simp

/-- A traversal for tokens passes over what is below a token, so nothing must be there. -/
theorem tokensOnStack_cons {t : Tree} (bare : ∀ n ∈ t.nodes, n.token?.isSome = true → n.children = []) (skipped : Bool)
    (stack : List (Tree × Bool)) :
    tokensOnStack ((t, skipped) :: stack) = t.leavesFrom skipped ++ tokensOnStack stack := by
  induction t using induct generalizing skipped stack with
  | step t ih =>
    obtain ⟨here, below⟩ := forall_mem_nodes.mp bare
    rw [tokensOnStack, leavesFrom_eq]
    cases token : t.token? with
    | some x => simp [here (by simp [token])]
    | none =>
      have first : ∀ entry ∈ t.children.map fun child => (child, skipped || t.rule? == some Grammar.skipRule),
          ∀ stack, tokensOnStack (entry :: stack) = entry.1.leavesFrom entry.2 ++ tokensOnStack stack := by
        refine List.forall_mem_map.mpr fun c child stack => ?_
        exact ih c child (below c child) _ stack
      dsimp only
      rw [pushAll_eq, onStack_append first, List.flatMap_map]
      rfl

end Stacks

end Tree

namespace Grammar

variable {g : Grammar} {input : List Token}

/-- The leaves of some trees are the tokens from position `i` up to position `j`. -/
structure Covered (input : List Token) (i j : Nat) (ts : List Tree) : Prop where
  leaves : ts.flatMap Tree.leaves = ((slice input i j).zipIdx i).map fun (x, n) => .leaf x n
  width : i + (slice input i j).length = j

theorem covered_nil (input : List Token) (i : Nat) : Covered input i i [] := by
  constructor <;> simp [slice_self]

theorem covered_leaf {i : Nat} {x : Token} (found : input[i]? = some x) : Covered input i (i + 1) [.leaf x i] := by
  constructor
  · rw [slice_succ found]
    rfl
  · rw [slice_succ found]
    rfl

theorem Covered.append {i m j : Nat} {us ts : List Tree} (h : Covered input i m us) (k : Covered input m j ts) :
    Covered input i j (us ++ ts) := by
  have joined : slice input i m ++ slice input m j = slice input i j := by
    have first := h.width
    have second := k.width
    exact slice_append input (by omega) (by omega)
  constructor
  · rw [List.flatMap_append, h.leaves, k.leaves, ← joined, List.zipIdx_append, h.width, List.map_append]
  · rw [← joined, List.length_append, ← Nat.add_assoc, h.width, k.width]

/-- A node over some trees covers what they cover. -/
theorem Covered.node {i j : Nat} {n : Tree} (h : Covered input i j n.children) (inner : n.token? = none) :
    Covered input i j [n] := by
  refine ⟨?_, h.width⟩
  rw [List.flatMap_cons, List.flatMap_nil, List.append_nil, Tree.leaves_of_token?_eq_none inner, h.leaves]

theorem Parses.covered {ps : List Part} {i j : Nat} {ts : List Tree} {p : Penalty} (h : g.Parses input ps i j ts p) :
    Covered input i j ts := by
  induction h with
  | nil => exact covered_nil input _
  | empty _ ih => exact ih
  | usage found _ _ ih => exact (covered_leaf found).append ih
  | rule _ _ _ _ inner rest => exact (inner.node (n := .node ..) rfl).append rest
  | bare _ _ _ ih => exact ((covered_nil input _).node (n := .node ..) rfl).append ih
  | group _ _ _ _ inner rest => exact (inner.node (n := .node ..) rfl).append rest
  | iteration _ _ _ inner rest => exact (inner.node (n := .node ..) rfl).append rest

/-- Whatever traverses a derivation tree of an input finds the input. -/
theorem IsTree.reproduces {r : RuleId} {t : Tree} (h : g.IsTree r input t) : t.Reproduces input := by
  have leaves : t.leaves = input.zipIdx.map fun (x, n) => .leaf x n := by
    simpa [slice] using (Parses.covered h).leaves
  have places : t.places = List.range input.length := by
    rw [Tree.places, leaves, List.map_map, List.range_eq_range']
    exact List.zipIdx_map_snd 0 input
  have tokens : t.tokens = input.zipIdx.map fun (x, i) => ⟨x, i, t.skipsToken i⟩ := by
    rw [Tree.tokens_eq, Tree.leavesFrom_of_distinct (places ▸ List.nodup_range), leaves, List.filterMap_map]
    exact congrFun List.filterMap_eq_map _
  have bare : ∀ n ∈ t.nodes, n.token?.isSome = true → n.children = [] := by
    intro n inside token
    have leaf : n ∈ t.leaves := List.mem_filter.mpr ⟨inside, token⟩
    rw [leaves] at leaf
    obtain ⟨x, -, rfl⟩ := List.mem_map.mp leaf
    rfl
  refine ⟨tokens, leaves, ?_, ?_, ?_⟩
  · rw [Tree.matchedTokens, tokens, List.filter_map, List.map_map]
    rfl
  · rw [Tree.tokensOnStack_cons bare, Tree.tokens_eq, Tree.tokensOnStack, List.append_nil]
  · rw [Tree.leavesOnStack_cons, Tree.leavesOnStack, List.append_nil]

end Grammar

section Sources

variable {σ : Type} {next : σ → Token × σ} {source : σ} {tokens : List Token}

/-- A list is a source of its tokens up to the first that ends the input. -/
theorem yields_next (tokens : List Token) : Yields Token.next tokens (tokens.takeWhile (!·.isFinish)) := by
  induction tokens with
  | nil => exact .finish rfl
  | cons t rest ih =>
    rw [List.takeWhile_cons]
    cases read : t.isFinish with
    | true => exact .finish read
    | false =>
      have first : (Token.next (t :: rest)).1.isFinish = false := read
      exact .token first ih

/-- Growing from a source comes to growing with a list of what it hands out. -/
theorem Chart.growFrom_eq (yields : Yields next source tokens) (g : Grammar) (past : Array State) (last : State) :
    ∃ rest, last.growFrom next g past source = some (grow g past last tokens, rest) := by
  induction yields generalizing past last with
  | finish read =>
    rw [State.growFrom, grow]
    simp only [read, if_true]
    exact ⟨_, rfl⟩
  | @token source tokens read _ ih =>
    rw [State.growFrom, grow]
    simp only [read, Bool.false_eq_true, if_false]
    cases Chart.scan? g past.size last (next source).1 with
    | none => exact ⟨_, rfl⟩
    | some state => exact ih _ _

theorem Parser.runFrom_eq (yields : Yields next source (tokens.takeWhile (!·.isFinish))) (p : Parser) :
    ∃ rest, runFrom next source p = some ((run tokens).run p, rest) := by
  by_cases fresh : p.states = #[]
  · cases starts : p.grammar.start with
    | none =>
      rw [run_eq_noStartRule p tokens fresh starts]
      exact ⟨source, by simp [runFrom, fresh, starts]⟩
    | some start =>
      obtain ⟨rest, grown⟩ := Chart.growFrom_eq yields p.grammar #[]
        (Chart.close p.grammar #[] (Chart.firstState p.grammar start))
      rw [run_eq p tokens fresh starts]
      exact ⟨rest, by simp [runFrom, fresh, starts, grown, Chart.build]⟩
  · rw [run_eq_alreadyRun p tokens fresh]
    exact ⟨source, by simp [runFrom, fresh]⟩

end Sources

namespace Parser

open Grammar

/-- From every tree that a parser returns, whichever way it is traversed, the tokens of the input come back in order and
unchanged, marked as skipped just where a node of the skip rule stands above. It is the same for every source that hands
out these tokens and then the end of the input. -/
theorem returned_reproduce_input (p p' : Parser) (tokens : List Token) (outcome : Recognition)
    (reachable : Reachable p.grammar) (ran : (run tokens).run p = .ok outcome p') :
    (∀ (config : Config) (t : Tree),
      { p' with config := config }.bestTree = some t ∨ t ∈ { p' with config := config }.forest →
      t.Reproduces (tokens.takeWhile (!·.isFinish))) ∧
    ∀ (σ : Type) (next : σ → Token × σ) (source : σ), Yields next source (tokens.takeWhile (!·.isFinish)) →
      ∃ rest, runFrom next source p = some (.ok outcome p', rest) := by
  obtain ⟨fresh, start, starts⟩ := exists_start_of_run ran
  constructor
  · exact fun config t returned => (isTree_of_returned reachable fresh starts ran returned).reproduces
  · intro σ next source yields
    rw [← ran]
    exact runFrom_eq yields p

theorem returned_letterGrammar_reproduce_input :
    ∃ outcome p', (run [.ofChar 'b', .ofChar 'a']).run (.new (letterGrammar true) {}) = .ok outcome p' ∧
      p'.bestTree = some skippedTree ∧ skippedTree.Reproduces [.ofChar 'b', .ofChar 'a'] ∧
      skippedTree.tokens = [⟨.ofChar 'b', 0, true⟩, ⟨.ofChar 'a', 1, false⟩] ∧
      ∃ rest, runFrom Token.next [.ofChar 'b', .ofChar 'a', .finish, .ofChar 'c'] (.new (letterGrammar true) {}) =
        some (.ok outcome p', rest) := by
  obtain ⟨outcome, p', ran, -, best⟩ := run_letterGrammar_skips
  obtain ⟨reproduce, same⟩ := returned_reproduce_input (.new (letterGrammar true) {}) p' [.ofChar 'b', .ofChar 'a']
    outcome letterGrammar_twins.reachable.2 ran
  exact ⟨outcome, p', ran, best, reproduce p'.config skippedTree (.inl best), by decide +kernel,
    same _ Token.next _ (yields_next [.ofChar 'b', .ofChar 'a', .finish, .ofChar 'c'])⟩

end Parser

end Earley
