import Earley.Proofs.CanonicalTrees
import Earley.Proofs.Mends
import Earley.Tree.Repair

/-!
# Mends read off trees

A tree of a fault-tolerant grammar shows a mend at each of its wrappers. Its tokens, its insertions and its penalty
are those of the mends, and the usages of the mends are spelled by what the strict twin has in place of the root
(`Mirrors.reads`).
-/

namespace Earley

namespace Tree

variable {g : Grammar}

theorem walk_eq {α : Type} (pass : α → Tree → α) (value : α) (t : Tree) :
    t.walk pass value = (value, t) :: t.children.flatMap (walk pass (pass value t)) := by
  obtain ⟨k, s, p, cs⟩ := t
  rw [walk, walkOnto, walkAllOnto_eq, List.append_nil]
  rfl

def leavesFrom (skipped : Bool) (t : Tree) : List Leaf :=
  (t.walk (fun skipped inner => skipped || inner.rule? == some Grammar.skipRule) skipped).filterMap
    fun (skipped, inner) => inner.token?.map fun tok => ⟨tok, inner.span.start, skipped⟩

theorem tokens_eq (t : Tree) : t.tokens = t.leavesFrom false := rfl

theorem leavesFrom_eq (skipped : Bool) (t : Tree) :
    t.leavesFrom skipped = (t.token?.map fun tok => ⟨tok, t.span.start, skipped⟩).toList ++
      t.children.flatMap (leavesFrom (skipped || t.rule? == some Grammar.skipRule)) := by
  rw [leavesFrom, walk_eq, List.filterMap_cons, List.filterMap_flatMap]
  dsimp only
  cases t.token? <;> rfl

theorem usages_eq (t : Tree) :
    t.usages g = (t.rule?.bind g.wrappedUsage?).toList ++ t.children.flatMap (·.usages g) := by
  rw [usages, nodes_eq, List.filterMap_cons, List.filterMap_flatMap]
  cases t.rule?.bind g.wrappedUsage? <;> rfl

theorem insertions_eq (t : Tree) :
    t.insertions g = (if t.children.any (·.rule? == some Grammar.assumeRule) then
        (t.rule?.bind g.wrappedUsage?).map fun u => Insertion.mk t.span.start u else none).toList ++
      t.children.flatMap (·.insertions g) := by
  rw [insertions, nodes_eq, List.filterMap_cons, List.filterMap_flatMap]
  split <;> rename_i found <;> rw [found] <;> rfl

/-- A node that neither is a token, nor skips, nor wraps a usage. -/
structure IsPlain (g : Grammar) (t : Tree) : Prop where
  token : t.token? = none
  skips : t.rule? ≠ some Grammar.skipRule
  wraps : t.rule?.bind g.wrappedUsage? = none

theorem IsPlain.leavesFrom {t : Tree} (h : t.IsPlain g) :
    t.leavesFrom false = t.children.flatMap (Tree.leavesFrom false) := by
  have keeps : (t.rule? == some Grammar.skipRule) = false := beq_eq_false_iff_ne.mpr h.skips
  rw [leavesFrom_eq, h.token, keeps]
  rfl

theorem IsPlain.usages {t : Tree} (h : t.IsPlain g) : t.usages g = t.children.flatMap (·.usages g) := by
  rw [usages_eq, h.wraps]
  rfl

theorem IsPlain.insertions {t : Tree} (h : t.IsPlain g) : t.insertions g = t.children.flatMap (·.insertions g) := by
  rw [insertions_eq, h.wraps]
  simp

section Nodes

variable (r : RuleId) (n : Option Nat) (span : Span) (p : Penalty) (cs : List Tree) (x : Token) (i : Nat)

@[simp] theorem leavesFrom_leaf (skipped : Bool) : (leaf x i).leavesFrom skipped = [⟨x, i, skipped⟩] := rfl

@[simp] theorem usages_leaf : (leaf x i).usages g = [] := rfl

@[simp] theorem insertions_leaf : (leaf x i).insertions g = [] := rfl

@[simp] theorem leavesFrom_rule (skipped : Bool) :
    (node (.rule r n) span p cs).leavesFrom skipped = cs.flatMap (leavesFrom (skipped || r == Grammar.skipRule)) :=
  leavesFrom_eq skipped _

@[simp] theorem usages_rule :
    (node (.rule r n) span p cs).usages g = (g.wrappedUsage? r).toList ++ cs.flatMap (·.usages g) :=
  usages_eq _

@[simp] theorem insertions_rule :
    (node (.rule r n) span p cs).insertions g = (if cs.any (·.rule? == some Grammar.assumeRule) then
        (g.wrappedUsage? r).map fun u => Insertion.mk span.start u else none).toList ++ cs.flatMap (·.insertions g) :=
  insertions_eq _

@[simp] theorem rule?_rule : (node (.rule r n) span p cs).rule? = some r := rfl

@[simp] theorem rule?_leaf : (leaf x i).rule? = none := rfl

end Nodes

end Tree

namespace Mend

def leaves (i : Nat) : Mend → List Leaf
  | met _ skipped t => (skipped.zipIdx i).map (fun (x, n) => ⟨x, n, true⟩) ++ [⟨t, i + skipped.length, false⟩]
  | assumed _ => []

def insertions (i : Nat) : Mend → List Insertion
  | met _ _ _ => []
  | assumed u => [⟨i, u⟩]

/-- What each of some mends contributes, each from where the one before it ends. -/
def gather {α : Type} (f : Nat → Mend → List α) : Nat → List Mend → List α
  | _, [] => []
  | i, m :: ms => f i m ++ gather f (i + m.tokens.length) ms

theorem gather_append {α : Type} (f : Nat → Mend → List α) (i : Nat) (ms ms' : List Mend) :
    gather f i (ms ++ ms') = gather f i ms ++ gather f (i + (ms.flatMap (·.tokens)).length) ms' := by
  induction ms generalizing i with
  | nil => rfl
  | cons m ms ih =>
    simp only [List.cons_append, gather, ih, List.append_assoc, List.flatMap_cons, List.length_append, Nat.add_assoc]

end Mend

namespace Grammar

variable {P : Penalty → Prop} {g s t : Grammar} {input : List Token}

theorem Spells.append {ss ss' : List Symbol} {us us' : List Usage} (h : g.Spells ss us) (h' : g.Spells ss' us') :
    g.Spells (ss ++ ss') (us ++ us') := by
  induction h with
  | nil => exact h'
  | empty _ ih => exact .empty ih
  | usage _ ih => exact .usage ih
  | rule known chosen inner _ _ ih =>
    rw [List.append_assoc]
    exact .rule known chosen inner ih
  | bare known childless _ ih => exact .bare known childless ih
  | group known admitted inner _ _ ih =>
    rw [List.append_assoc]
    exact .group known admitted inner ih

structure Reads (s t : Grammar) (input : List Token) (xs : List Symbol) (i j : Nat) (ts : List Tree) (p : Penalty)
    (mends : List Mend) : Prop where
  spells : s.Spells (xs.map t.unwrap) (mends.map (·.usage))
  valid : ∀ m ∈ mends, m.Valid t
  cost : p = .ofNat (total (·.cost) mends)
  tokens : mends.flatMap (·.tokens) = slice input i j
  finish : j = i + (mends.flatMap (·.tokens)).length
  usages : ts.flatMap (·.usages t) = mends.map (·.usage)
  leaves : ts.flatMap (·.leavesFrom false) = Mend.gather Mend.leaves i mends
  insertions : ts.flatMap (·.insertions t) = Mend.gather Mend.insertions i mends

theorem reads_nil (s t : Grammar) (input : List Token) (i : Nat) : Reads s t input [] i i [] 0 [] :=
  ⟨.nil, by simp, rfl, (slice_self input i).symm, rfl, rfl, rfl, rfl⟩

theorem Reads.append {xs ys : List Symbol} {i m j : Nat} {ts us : List Tree} {p q : Penalty} {ms ns : List Mend}
    (h : Reads s t input xs i m ts p ms) (k : Reads s t input ys m j us q ns) :
    Reads s t input (xs ++ ys) i j (ts ++ us) (p + q) (ms ++ ns) where
  spells := by
    rw [List.map_append, List.map_append]
    exact h.spells.append k.spells
  valid := List.forall_mem_append.mpr ⟨h.valid, k.valid⟩
  cost := by rw [total_append, Penalty.ofNat_add, h.cost, k.cost]
  tokens := by
    have first := h.finish
    have second := k.finish
    rw [List.flatMap_append, h.tokens, k.tokens, slice_append input (by omega) (by omega)]
  finish := by
    have first := h.finish
    have second := k.finish
    rw [List.flatMap_append, List.length_append]
    omega
  usages := by rw [List.flatMap_append, List.map_append, h.usages, k.usages]
  leaves := by rw [List.flatMap_append, Mend.gather_append, ← h.finish, h.leaves, k.leaves]
  insertions := by rw [List.flatMap_append, Mend.gather_append, ← h.finish, h.insertions, k.insertions]

/-- A plain node shows the mends of its children. -/
theorem Reads.node {xs ys : List Symbol} {i j : Nat} {n : Tree} {p : Penalty} {mends : List Mend}
    (h : Reads s t input xs i j n.children p mends) (plain : n.IsPlain t)
    (spells : s.Spells (ys.map t.unwrap) (mends.map (·.usage))) : Reads s t input ys i j [n] p mends :=
  ⟨spells, h.valid, h.cost, h.tokens, h.finish, by simpa [plain.usages] using h.usages,
    by simpa [plain.leavesFrom] using h.leaves, by simpa [plain.insertions] using h.insertions⟩

theorem parses_usage {u : Usage} {i j : Nat} {ts : List Tree} {p : Penalty}
    (h : g.Parses input [.symbol (.usage u)] i j ts p) :
    ∃ x, input[i]? = some x ∧ g.accepts u x = true ∧ j = i + 1 ∧ ts = [.leaf x i] ∧ p = 0 := by
  cases h with
  | usage found accepted rest =>
    cases rest
    exact ⟨_, found, accepted, rfl, rfl, rfl⟩

theorem parses_rule_usage {r : RuleId} {u : Usage} {i j : Nat} {ts : List Tree} {p : Penalty}
    (h : g.Parses input [.symbol (.rule r), .symbol (.usage u)] i j ts p) :
    ∃ m n x, g.Parses input [.symbol (.rule r)] i m [n] p ∧ input[m]? = some x ∧ g.accepts u x = true ∧ j = m + 1 ∧
      ts = [n, .leaf x m] := by
  have h : g.Parses input ([.symbol (.rule r)] ++ [.symbol (.usage u)]) i j ts p := h
  obtain ⟨m, us, vs, q, q', rfl, rfl, first, second⟩ := h.of_append
  obtain ⟨n, rfl, -⟩ := first.single_rule
  obtain ⟨x, found, accepted, rfl, rfl, rfl⟩ := parses_usage second
  exact ⟨m, n, x, by rwa [Penalty.add_zero], found, accepted, rfl, rfl⟩

structure Skips (t : Grammar) (input : List Token) (i j : Nat) (n : Tree) (p : Penalty) (skipped : List Token) :
    Prop where
  root : n.rule? = some skipRule
  tokens : skipped = slice input i j
  finish : j = i + skipped.length
  plain : ∀ x ∈ skipped, x.isFinish = false
  cost : p = .ofNat skipped.length
  leaves : ∀ b, n.leavesFrom b = (skipped.zipIdx i).map fun (x, n) => ⟨x, n, true⟩
  usages : n.usages t = []
  insertions : n.insertions t = []

theorem Wrapped.skips (h : Wrapped P t) {i j : Nat} {n : Tree} {p : Penalty}
    (parsed : t.Parses input [.symbol (.rule skipRule)] i j [n] p) : ∃ skipped, Skips t input i j n p skipped := by
  obtain ⟨d, known, mark, cost, productions⟩ := h.skip
  have wraps : t.wrappedUsage? skipRule = none := by simp [wrappedUsage?, known, mark]
  induction j using Nat.strongRecOn generalizing n p with
  | ind j ih =>
    cases parsed with
    | bare known' childless =>
      cases known.symm.trans known'
      simp [productions] at childless
    | @rule _ m _ n _ _ production cs c _ _ _ known' chosen inner rest =>
      cases known.symm.trans known'
      cases rest
      rw [productions] at chosen
      rw [cost]
      obtain _ | _ | n := n
      · -- A single token.
        cases chosen
        obtain ⟨x, found, accepted, rfl, rfl, rfl⟩ := parses_usage inner
        have plain : x.isFinish = false := by simpa [accepts] using accepted
        exact ⟨[x], rfl, (slice_succ found).symm, rfl, by simpa using plain, rfl, by simp, by simp [wraps],
          by simp⟩
      · -- One more token.
        cases chosen
        obtain ⟨m', n, x, first, found, accepted, rfl, rfl⟩ := parses_rule_usage inner
        obtain ⟨skipped, below⟩ := ih m' (Nat.lt_succ_self m') first
        have plain : x.isFinish = false := by simpa [accepts] using accepted
        have place := below.finish
        refine ⟨skipped ++ [x], rfl, ?_, by simp; omega, ?_, ?_, fun b => ?_, ?_, ?_⟩
        · rw [← slice_append input (by omega) (Nat.le_succ m'), slice_succ found, ← below.tokens]
        · exact List.forall_mem_append.mpr ⟨below.plain, by simpa using plain⟩
        · rw [below.cost, List.length_append, Penalty.ofNat_add, Penalty.add_zero]
          rfl
        · simp [below.leaves, List.zipIdx_append, place]
        · simp [wraps, below.usages]
        · simp [wraps, below.insertions]
      · cases chosen

theorem Wrapped.wrappedUsage?_assumeRule (h : Wrapped P t) : t.wrappedUsage? assumeRule = none := by
  obtain ⟨d, known, mark, -⟩ := h.assume
  simp [wrappedUsage?, known, mark]

/-- The only tree of the rule that stands for a missing token. -/
theorem Wrapped.parses_assume (h : Wrapped P t) {i j : Nat} {ts : List Tree} {p : Penalty}
    (parsed : t.Parses input [.symbol (.rule assumeRule)] i j ts p) :
    j = i ∧ p = 1 ∧ ts = [.node (.rule assumeRule (some 0)) ⟨i, i⟩ 1 []] := by
  obtain ⟨d, known, -, cost, productions⟩ := h.assume
  cases parsed with
  | bare known' childless =>
    cases known.symm.trans known'
    simp [productions] at childless
  | @rule _ m _ n _ _ production cs c _ _ _ known' chosen inner rest =>
    cases known.symm.trans known'
    rw [productions] at chosen
    cases rest
    cases n with
    | zero =>
      cases chosen
      cases inner with
      | empty inner =>
        cases inner
        simp [cost]
    | succ n => cases chosen

/-- A tree of a wrapper shows a mend of its usage. -/
theorem Wrapped.reads (h : Wrapped P t) (s : Grammar) {w : RuleId} {u : Usage} (wraps : t.wrappedUsage? w = some u)
    {i j : Nat} {ts : List Tree} {p : Penalty} (parsed : t.Parses input [.symbol (.rule w)] i j ts p) :
    ∃ m : Mend, Reads s t input [.rule w] i j ts p [m] := by
  obtain ⟨d, known, mark⟩ := Option.bind_eq_some_iff.mp wraps
  obtain ⟨-, free, productions⟩ := h.wrapper known mark
  have spells : s.Spells ([.rule w].map t.unwrap) [u] := by
    rw [List.map_singleton, unwrap, wraps]
    exact .usage .nil
  have keeps : (w == skipRule) = false := by
    apply beq_eq_false_iff_ne.mpr
    rintro rfl
    exact absurd (h.two_le wraps) (by decide)
  cases parsed with
  | bare known' childless =>
    cases known.symm.trans known'
    simp [productions] at childless
  | @rule _ m _ n _ _ production cs c _ _ _ known' chosen inner rest =>
    cases known.symm.trans known'
    cases rest
    rw [productions] at chosen
    rw [free, Penalty.add_zero, Penalty.add_zero]
    obtain _ | _ | _ | n := n
    · -- The usage is met at once.
      cases chosen
      obtain ⟨x, found, accepted, rfl, rfl, rfl⟩ := parses_usage inner
      refine ⟨.met u [] x, spells, by simpa [Mend.Valid] using accepted, rfl, (slice_succ found).symm, rfl, ?_, ?_, ?_⟩
      · simp [wraps, Mend.usage]
      · simp [keeps, Mend.gather, Mend.leaves]
      · simp [Mend.gather, Mend.insertions]
    · -- It is met after some tokens.
      cases chosen
      obtain ⟨m', n, x, first, found, accepted, rfl, rfl⟩ := parses_rule_usage inner
      obtain ⟨skipped, below⟩ := h.skips first
      have place := below.finish
      refine ⟨.met u skipped x, spells, by simpa [Mend.Valid] using ⟨accepted, below.plain⟩, ?_, ?_, ?_, ?_, ?_, ?_⟩
      · simp [below.cost, Mend.cost]
      · rw [← slice_append input (by omega) (Nat.le_succ m'), slice_succ found, ← below.tokens]
        simp [Mend.tokens]
      · simp [Mend.tokens]
        omega
      · simp [wraps, below.usages, Mend.usage]
      · simp [keeps, below.leaves, Mend.gather, Mend.leaves, place]
      · simp [below.root, below.insertions, Mend.gather, Mend.insertions, skipRule, assumeRule]
    · -- It is assumed.
      cases chosen
      obtain ⟨rfl, rfl, rfl⟩ := h.parses_assume inner
      refine ⟨.assumed u, spells, by simp [Mend.Valid], rfl, (slice_self input _).symm, rfl, ?_, ?_, ?_⟩
      · simp [wraps, h.wrappedUsage?_assumeRule, Mend.usage]
      · simp [Mend.gather, Mend.leaves]
      · simp [wraps, Mend.gather, Mend.insertions]
    · cases chosen

/-- Trees of parts that an author wrote show mends of usages that the strict twin spells. -/
theorem Mirrors.reads (h : Mirrors (· = 0) s t) {ps : List Part} {i j : Nat} {ts : List Tree} {p : Penalty}
    (parsed : t.Parses input ps i j ts p) (own : ∀ x ∈ ps.flatMap t.partSymbols, x.Own) :
    ∃ mends, Reads s t input (ps.flatMap t.partSymbols) i j ts p mends := by
  induction parsed with
  | nil => exact ⟨[], reads_nil s t input _⟩
  | empty _ ih =>
    obtain ⟨-, rest⟩ := List.forall_mem_cons.mp own
    obtain ⟨mends, reads⟩ := ih rest
    exact ⟨mends, { reads with spells := .empty reads.spells }⟩
  | usage => exact ((List.forall_mem_cons.mp own).1).elim
  | @rule i m j n r d production cs c ps ts p known chosen inner _ below ih =>
    obtain ⟨mine, rest⟩ := List.forall_mem_cons.mp own
    obtain ⟨mends, reads⟩ := ih rest
    suffices first : ∃ mends, Reads s t input [.rule r] i m [.node (.rule r (some n)) ⟨i, m⟩ (c + d.penalty) cs]
        (c + d.penalty) mends by
      obtain ⟨front, first⟩ := first
      exact ⟨front ++ mends, first.append reads⟩
    cases mark : d.tolerantFor with
    | some u =>
      have wraps : t.wrappedUsage? r = some u := by simp [wrappedUsage?, known, mark]
      have single := Parses.rule known chosen inner .nil
      rw [Penalty.add_zero] at single
      obtain ⟨mend, first⟩ := h.wrapped.reads s wraps single
      exact ⟨[mend], first⟩
    | none =>
      have plain : t.wrappedUsage? r = none := by simp [wrappedUsage?, known, mark]
      obtain ⟨free, clean⟩ := h.wrapped.rule known mark mine
      obtain ⟨d', found, -, productions⟩ := h.rule known mark
      rw [flatMap_symbols] at below
      obtain ⟨front, first⟩ := below (clean _ (List.mem_of_getElem? chosen))
      rw [free, Penalty.add_zero]
      refine ⟨front, Reads.node first ⟨rfl, ?_, plain⟩ ?_⟩
      · rintro ⟨⟩
        exact absurd (show 2 ≤ skipRule.index from mine) (by decide)
      · rw [List.map_singleton, unwrap, plain, ← List.append_nil (front.map _)]
        refine .rule found ?_ first.spells .nil
        rw [productions]
        exact List.mem_map_of_mem (List.mem_of_getElem? chosen)
  | @bare i j r d ps ts p known childless _ ih =>
    obtain ⟨mine, rest⟩ := List.forall_mem_cons.mp own
    obtain ⟨mends, reads⟩ := ih rest
    have mark : d.tolerantFor = none := by
      cases mark : d.tolerantFor with
      | none => rfl
      | some u => simp [(h.wrapped.wrapper known mark).2.2] at childless
    have plain : t.wrappedUsage? r = none := by simp [wrappedUsage?, known, mark]
    obtain ⟨free, -⟩ := h.wrapped.rule known mark mine
    obtain ⟨d', found, -, productions⟩ := h.rule known mark
    have first : Reads s t input [.rule r] i i [.node (.rule r none) ⟨i, i⟩ d.penalty []] d.penalty [] := by
      rw [free]
      refine Reads.node (reads_nil s t input i) ⟨rfl, ?_, plain⟩ ?_
      · rintro ⟨⟩
        exact absurd (show 2 ≤ skipRule.index from mine) (by decide)
      · rw [List.map_singleton, unwrap, plain]
        exact .bare found (by rw [productions, childless]; rfl) .nil
    exact ⟨mends, first.append reads⟩
  | @group i m j count k d cs c ps ts p known admitted _ _ below ih =>
    obtain ⟨-, rest⟩ := List.forall_mem_cons.mp own
    obtain ⟨mends, reads⟩ := ih rest
    obtain ⟨d', found, least, most, production⟩ := h.group known
    rw [flatMap_iterations known] at below
    obtain ⟨front, first⟩ := below (forall_mem_copies (h.wrapped.group known) count)
    have whole : Reads s t input [.group k] i m [.node (.group k) ⟨i, m⟩ c cs] c front := by
      refine Reads.node first ⟨rfl, by simp [Tree.rule?, Tree.kind], rfl⟩ ?_
      have spells := first.spells
      rw [map_copies, ← production] at spells
      rw [← List.append_nil (front.map _)]
      exact .group found ((GroupDef.admits_congr least most _).mpr admitted) spells .nil
    exact ⟨front ++ mends, whole.append reads⟩
  | @iteration i m j k d cs c ps ts p known _ _ below ih =>
    rw [List.flatMap_cons, partSymbols, known] at own ⊢
    obtain ⟨mine, rest⟩ := List.forall_mem_append.mp own
    obtain ⟨mends, reads⟩ := ih rest
    rw [flatMap_symbols] at below
    obtain ⟨front, first⟩ := below mine
    have whole : Reads s t input d.production i m [.node (.iteration k) ⟨i, m⟩ c cs] c front :=
      Reads.node first ⟨rfl, by simp [Tree.rule?, Tree.kind], rfl⟩ first.spells
    exact ⟨front ++ mends, whole.append reads⟩

theorem Mirrors.unwrap_start (h : Mirrors (· = 0) s t) {start : RuleId} (starts : t.start = some start) :
    [.rule start].map t.unwrap = [.rule (t.strictId start)] := by
  rw [List.map_singleton, unwrap, (h.wrapped.start starts).2]

/-- A whole tree shows mends of usages that the start rule of the strict twin spells. -/
theorem Mirrors.reads_tree (h : Mirrors (· = 0) s t) {start : RuleId} (starts : t.start = some start) {tree : Tree}
    (isTree : t.IsTree start input tree) :
    ∃ mends, Reads s t input [.rule start] 0 input.length [tree] tree.penalty mends :=
  h.reads isTree (List.forall_mem_singleton.mpr (h.wrapped.start starts).1)

end Grammar

end Earley
