import Earley.Proofs.CanonicalTrees
import Earley.Proofs.Enclosure
import Earley.Proofs.Twins
import Earley.Tree.Collapse

/-!
# Trees that need no repair

A wrapper in a tree that costs nothing holds the token that it met and nothing else. Without its wrappers such a tree is
one of the strict grammar (`Mirrors.collapse_parses`). Every tree of the strict grammar comes from one of the
fault-tolerant grammar at the same penalty (`Mirrors.expand`), and trees that cost nothing come from only one
(`Mirrors.collapse_injective`).
-/

namespace Earley

namespace Tree

variable {g : Grammar}

theorem collapseAll_eq (g : Grammar) (ts : List Tree) : collapseAll g ts = ts.map (collapse g) := by
  induction ts with
  | nil => rfl
  | cons t ts ih => rw [collapseAll, ih, List.map_cons]

theorem collapse_eq (g : Grammar) (t : Tree) : t.collapse g = collapseRoot g t (t.children.map (collapse g)) := by
  obtain ⟨kind, span, p, cs⟩ := t
  rw [collapse, collapseAll_eq]
  rfl

@[simp] theorem wrapped?_leaf (x : Token) (i : Nat) : (leaf x i).wrapped? g = none := rfl

@[simp] theorem collapse_leaf (x : Token) (i : Nat) : (leaf x i).collapse g = leaf x i := by
  rw [collapse_eq]
  rfl

theorem collapse_of_plain {t : Tree} (plain : t.wrapped? g = none) :
    t.collapse g = .node (t.kind.mapRule g.strictId) t.span t.penalty (t.children.map (collapse g)) := by
  rw [collapse_eq]
  simp only [collapseRoot, plain]

theorem collapse_of_wrapper {t : Tree} {u : Usage} {x : Token} {i : Nat} (wraps : t.wrapped? g = some u)
    (met : t.children = [leaf x i]) : t.collapse g = leaf x i := by
  rw [collapse_eq]
  simp only [collapseRoot, wraps, met, List.map_singleton, collapse_leaf]

section Nodes

variable (span : Span) (p : Penalty) (cs : List Tree)

theorem collapse_met {w : RuleId} {u : Usage} (n : Option Nat) (wraps : g.wrappedUsage? w = some u) (x : Token)
    (i : Nat) : (node (.rule w n) span p [leaf x i]).collapse g = leaf x i :=
  collapse_of_wrapper (u := u) wraps rfl

theorem collapse_rule {r : RuleId} (n : Option Nat) (plain : g.wrappedUsage? r = none) :
    (node (.rule r n) span p cs).collapse g = .node (.rule (g.strictId r) n) span p (cs.map (collapse g)) :=
  collapse_of_plain plain

theorem collapse_group (k : GroupId) :
    (node (.group k) span p cs).collapse g = .node (.group k) span p (cs.map (collapse g)) :=
  collapse_of_plain rfl

theorem collapse_iteration (k : GroupId) :
    (node (.iteration k) span p cs).collapse g = .node (.iteration k) span p (cs.map (collapse g)) :=
  collapse_of_plain rfl

end Nodes

/-- A root that is no wrapper, or one over nothing but a token. -/
def MeetsRoot (g : Grammar) (t : Tree) : Prop :=
  t.wrapped? g = none ∨
    ∃ u x i, t.wrapped? g = some u ∧ t.children = [leaf x i] ∧ t.span = ⟨i, i + 1⟩ ∧ t.penalty = 0

def Meets (g : Grammar) (t : Tree) : Prop := ∀ n ∈ t.nodes, n.MeetsRoot g

theorem meets_iff {t : Tree} : t.Meets g ↔ t.MeetsRoot g ∧ ∀ c ∈ t.children, c.Meets g :=
  forall_mem_nodes

theorem meets_leaf (x : Token) (i : Nat) : (leaf x i).Meets g :=
  meets_iff.mpr ⟨.inl rfl, by simp [leaf, children]⟩

theorem MeetsRoot.collapse_span {t : Tree} (h : t.MeetsRoot g) :
    (t.collapse g).span = t.span ∧ (t.collapse g).penalty = t.penalty := by
  rcases h with plain | ⟨u, x, i, wraps, met, span, free⟩
  · rw [collapse_of_plain plain]
    exact ⟨rfl, rfl⟩
  · rw [collapse_of_wrapper wraps met, span, free]
    exact ⟨rfl, rfl⟩

mutual

/-- What holds of a tree as soon as it holds of its children holds of all trees. -/
theorem induct {Q : Tree → Prop} (step : ∀ t : Tree, (∀ c ∈ t.children, Q c) → Q t) : (t : Tree) → Q t
  | .node _ _ _ cs => step _ (inductAll step cs)

theorem inductAll {Q : Tree → Prop} (step : ∀ t : Tree, (∀ c ∈ t.children, Q c) → Q t) :
    (ts : List Tree) → ∀ t ∈ ts, Q t
  | [] => by simp
  | t :: ts => List.forall_mem_cons.mpr ⟨induct step t, inductAll step ts⟩

end

/-- What remains of a tree are its nodes other than wrappers, with the spans and penalties they have. -/
theorem Meets.nodes_collapse {t : Tree} (h : t.Meets g) :
    (t.collapse g).nodes.map (fun n => (n.span, n.penalty)) =
      (t.nodes.filter fun n => (n.wrapped? g).isNone).map fun n => (n.span, n.penalty) := by
  induction t using induct with
  | step t ih =>
    obtain ⟨root, below⟩ := meets_iff.mp h
    rcases root with plain | ⟨u, x, i, wraps, met, -, -⟩
    · have others : (t.children.map (collapse g)).flatMap (fun c => c.nodes.map fun n => (n.span, n.penalty)) =
          t.children.flatMap fun c =>
            (c.nodes.filter fun n => (n.wrapped? g).isNone).map fun n => (n.span, n.penalty) := by
        rw [List.flatMap_map]
        exact List.flatMap_congr fun c member => ih c member (below c member)
      rw [collapse_of_plain plain, nodes_eq, nodes_eq t, List.filter_cons_of_pos (by simp [plain]), List.filter_flatMap,
        List.map_cons, List.map_cons, List.map_flatMap, List.map_flatMap]
      exact congrArg _ others
    · rw [collapse_of_wrapper wraps met, nodes_eq t, met, List.filter_cons_of_neg (by simp [wraps])]
      rfl

end Tree

def Part.Own : Part → Prop
  | .symbol s => s.Own
  | .iteration _ => True

namespace Grammar

def unwrapPart (g : Grammar) : Part → Part
  | .symbol s => .symbol (g.unwrap s)
  | .iteration k => .iteration k

variable {P : Penalty → Prop} {s t : Grammar} {input : List Token}

theorem own_symbols {production : Production} (clean : ∀ x ∈ production, x.Own) :
    ∀ part ∈ production.map Part.symbol, part.Own :=
  List.forall_mem_map.mpr clean

theorem own_iterations (n : Nat) (k : GroupId) : ∀ part ∈ List.replicate n (Part.iteration k), part.Own := by
  intro part member
  rw [(List.mem_replicate.mp member).2]
  trivial

theorem map_unwrapPart_symbols (t : Grammar) (production : Production) :
    (production.map Part.symbol).map t.unwrapPart = (production.map t.unwrap).map .symbol := by
  rw [List.map_map, List.map_map]
  rfl

theorem unwrapPart_plain {r : RuleId} (plain : t.wrappedUsage? r = none) :
    t.unwrapPart (.symbol (.rule r)) = .symbol (.rule (t.strictId r)) := by
  rw [unwrapPart, unwrap, plain]

theorem unwrapPart_wrapper {r : RuleId} {u : Usage} (wraps : t.wrappedUsage? r = some u) :
    t.unwrapPart (.symbol (.rule r)) = .symbol (.usage u) := by
  rw [unwrapPart, unwrap, wraps]

theorem wrappedUsage?_of_known {r : RuleId} {d : RuleDef} (known : t.rule? r = some d) :
    t.wrappedUsage? r = d.tolerantFor := by
  rw [wrappedUsage?, known, Option.bind_some]

/-- A rule costs at least its own penalty. -/
theorem Parses.rulePenalty_le {r : RuleId} {d : RuleDef} (known : t.rule? r = some d) {ps : List Part} {i j : Nat}
    {ts : List Tree} {p : Penalty} (parsed : t.Parses input (.symbol (.rule r) :: ps) i j ts p) : d.penalty ≤ p := by
  cases parsed with
  | rule known' =>
    cases known.symm.trans known'
    exact Nat.le_trans (Penalty.add_comm .. ▸ Penalty.le_add_right ..) (Penalty.le_add_right ..)
  | bare known' =>
    cases known.symm.trans known'
    exact Penalty.le_add_right ..

/-- A wrapper that costs nothing meets its usage at once: skipping and assuming tokens are not free. -/
theorem Wrapped.met (h : Wrapped P t) {r : RuleId} {d : RuleDef} {u : Usage} (known : t.rule? r = some d)
    (mark : d.tolerantFor = some u) {n : Nat} {production : Production} (chosen : d.productions[n]? = some production)
    {i m : Nat} {cs : List Tree} {c : Penalty} (inner : t.Parses input (production.map .symbol) i m cs c)
    (free : c = 0) :
    ∃ x, n = 0 ∧ input[i]? = some x ∧ t.accepts u x = true ∧ m = i + 1 ∧ cs = [.leaf x i] := by
  obtain ⟨-, -, productions⟩ := h.wrapper known mark
  have dear {r : RuleId} {d : RuleDef} (known : t.rule? r = some d) (cost : d.penalty = 1) {ps : List Part}
      (parsed : t.Parses input (.symbol (.rule r) :: ps) i m cs c) : False := by
    have le := Parses.rulePenalty_le known parsed
    rw [cost, free] at le
    exact absurd le (by decide)
  rw [productions] at chosen
  obtain _ | _ | _ | n := n
  · cases chosen
    cases inner with
    | usage found accepted rest =>
      cases rest
      exact ⟨_, rfl, found, accepted, rfl, rfl⟩
  · cases chosen
    obtain ⟨e, skip, -, cost, -⟩ := h.skip
    exact (dear skip cost inner).elim
  · cases chosen
    obtain ⟨e, assume, -, cost, -⟩ := h.assume
    exact (dear assume cost inner).elim
  · cases chosen

/-- Without their wrappers, trees that cost nothing are trees of the strict grammar. -/
theorem Mirrors.collapse_parses (h : Mirrors P s t) {ps : List Part} {i j : Nat} {ts : List Tree} {p : Penalty}
    (parsed : t.Parses input ps i j ts p) (free : p = 0) (own : ∀ part ∈ ps, part.Own) :
    s.Parses input (ps.map t.unwrapPart) i j (ts.map (Tree.collapse t)) 0 ∧ ∀ x ∈ ts, x.Meets t := by
  induction parsed with
  | nil => exact ⟨.nil, by simp⟩
  | empty _ ih =>
    obtain ⟨rest, met⟩ := ih free (List.forall_mem_cons.mp own).2
    exact ⟨.empty rest, met⟩
  | usage => exact ((List.forall_mem_cons.mp own).1).elim
  | @rule i m j n r d production cs c ps ts p known chosen inner _ below ih =>
    obtain ⟨mine, others⟩ := List.forall_mem_cons.mp own
    obtain ⟨here, free⟩ := Penalty.add_eq_zero_iff.mp free
    obtain ⟨free', unpriced⟩ := Penalty.add_eq_zero_iff.mp here
    obtain ⟨rest, met⟩ := ih free others
    cases mark : d.tolerantFor with
    | some u =>
      have wraps : t.wrappedUsage? r = some u := (wrappedUsage?_of_known known).trans mark
      obtain ⟨x, rfl, found, accepted, rfl, rfl⟩ := h.wrapped.met known mark chosen inner free'
      rw [List.map_cons, List.map_cons, unwrapPart_wrapper wraps, Tree.collapse_met _ _ _ wraps]
      refine ⟨.usage found ?_ rest, List.forall_mem_cons.mpr ⟨Tree.meets_iff.mpr ⟨?_, ?_⟩, met⟩⟩
      · rwa [accepts_congr h.sets]
      · exact .inr ⟨u, x, i, wraps, rfl, rfl, here⟩
      · exact List.forall_mem_singleton.mpr (Tree.meets_leaf x i)
    | none =>
      have plain : t.wrappedUsage? r = none := (wrappedUsage?_of_known known).trans mark
      obtain ⟨-, clean⟩ := h.wrapped.rule known mark mine
      obtain ⟨d', found, cost, productions⟩ := h.rule known mark
      obtain ⟨inner', met'⟩ := below free' (own_symbols (clean _ (List.mem_of_getElem? chosen)))
      have chosen' : d'.productions[n]? = some (production.map t.unwrap) := by
        rw [productions, List.getElem?_map, chosen, Option.map_some]
      rw [map_unwrapPart_symbols] at inner'
      have whole := Parses.rule found chosen' inner' rest
      rw [cost, unpriced] at whole
      rw [List.map_cons, List.map_cons, unwrapPart_plain plain, Tree.collapse_rule _ _ _ _ plain]
      refine ⟨?_, List.forall_mem_cons.mpr ⟨Tree.meets_iff.mpr ⟨.inl plain, met'⟩, met⟩⟩
      simpa [here] using whole
  | @bare i j r d ps ts p known childless _ ih =>
    obtain ⟨mine, others⟩ := List.forall_mem_cons.mp own
    obtain ⟨unpriced, free⟩ := Penalty.add_eq_zero_iff.mp free
    obtain ⟨rest, met⟩ := ih free others
    have mark : d.tolerantFor = none := by
      cases mark : d.tolerantFor with
      | none => rfl
      | some u => simp [(h.wrapped.wrapper known mark).2.2] at childless
    have plain : t.wrappedUsage? r = none := (wrappedUsage?_of_known known).trans mark
    obtain ⟨d', found, cost, productions⟩ := h.rule known mark
    have whole := Parses.bare found (by rw [productions, childless]; rfl) rest
    rw [cost, unpriced] at whole
    rw [List.map_cons, List.map_cons, unwrapPart_plain plain, Tree.collapse_rule _ _ _ _ plain]
    refine ⟨?_, List.forall_mem_cons.mpr ⟨Tree.meets_iff.mpr ⟨.inl plain, by simp [Tree.children]⟩, met⟩⟩
    simpa [unpriced] using whole
  | @group i m j count k d cs c ps ts p known admitted _ _ below ih =>
    obtain ⟨-, others⟩ := List.forall_mem_cons.mp own
    obtain ⟨free', free⟩ := Penalty.add_eq_zero_iff.mp free
    obtain ⟨rest, met⟩ := ih free others
    obtain ⟨d', found, least, most, -⟩ := h.group known
    obtain ⟨inner', met'⟩ := below free' (own_iterations count k)
    rw [List.map_replicate] at inner'
    have whole := Parses.group found ((GroupDef.admits_congr least most _).mpr admitted) inner' rest
    rw [List.map_cons, List.map_cons, Tree.collapse_group]
    refine ⟨?_, List.forall_mem_cons.mpr ⟨Tree.meets_iff.mpr ⟨.inl rfl, met'⟩, met⟩⟩
    simpa [free', unwrapPart, unwrap] using whole
  | @iteration i m j k d cs c ps ts p known _ _ below ih =>
    obtain ⟨-, others⟩ := List.forall_mem_cons.mp own
    obtain ⟨free', free⟩ := Penalty.add_eq_zero_iff.mp free
    obtain ⟨rest, met⟩ := ih free others
    obtain ⟨d', found, -, -, production⟩ := h.group known
    obtain ⟨inner', met'⟩ := below free' (own_symbols (h.wrapped.group known))
    rw [map_unwrapPart_symbols, ← production] at inner'
    have whole := Parses.iteration found inner' rest
    rw [List.map_cons, List.map_cons, Tree.collapse_iteration]
    refine ⟨?_, List.forall_mem_cons.mpr ⟨Tree.meets_iff.mpr ⟨.inl rfl, met'⟩, met⟩⟩
    simpa [free', unwrapPart] using whole

theorem exists_symbol_of_unwrapPart {part : Part} {y : Symbol} (same : t.unwrapPart part = .symbol y) :
    ∃ x, part = .symbol x ∧ t.unwrap x = y := by
  cases part with
  | symbol x =>
    cases same
    exact ⟨x, rfl, rfl⟩
  | iteration k => cases same

theorem eq_symbol_of_unwrapPart {part : Part} {y : Symbol} (same : t.unwrapPart part = .symbol y)
    (only : ∀ {x}, t.unwrap x = y → x = y) : part = .symbol y := by
  obtain ⟨x, rfl, equal⟩ := exists_symbol_of_unwrapPart same
  rw [only equal]

theorem exists_wrapper_of_unwrapPart {part : Part} {u : Usage} (own : part.Own)
    (same : t.unwrapPart part = .symbol (.usage u)) :
    ∃ w, part = .symbol (.rule w) ∧ t.wrappedUsage? w = some u := by
  obtain ⟨x, rfl, equal⟩ := exists_symbol_of_unwrapPart same
  obtain ⟨w, rfl, wraps⟩ := exists_wrapper_of_unwrap own equal
  exact ⟨w, rfl, wraps⟩

theorem exists_rule_of_unwrapPart {part : Part} {r : RuleId} (same : t.unwrapPart part = .symbol (.rule r)) :
    ∃ r', part = .symbol (.rule r') ∧ t.wrappedUsage? r' = none ∧ t.strictId r' = r := by
  obtain ⟨x, rfl, equal⟩ := exists_symbol_of_unwrapPart same
  obtain ⟨r', rfl, plain⟩ := exists_rule_of_unwrap equal
  exact ⟨r', rfl, plain⟩

theorem eq_iteration_of_unwrapPart {part : Part} {k : GroupId} (same : t.unwrapPart part = .iteration k) :
    part = .iteration k := by
  cases part with
  | symbol x => cases same
  | iteration k => exact same

/-- The tree of a wrapper that meets its usage at once. -/
theorem Wrapped.parses_met (h : Wrapped P t) {w : RuleId} {u : Usage} (wraps : t.wrappedUsage? w = some u) {x : Token}
    {i j : Nat} {ps : List Part} {ts : List Tree} {p : Penalty} (found : input[i]? = some x)
    (accepted : t.accepts u x = true) (rest : t.Parses input ps (i + 1) j ts p) :
    t.Parses input (.symbol (.rule w) :: ps) i j (.node (.rule w (some 0)) ⟨i, i + 1⟩ 0 [.leaf x i] :: ts) p := by
  obtain ⟨d, known, mark⟩ := Option.bind_eq_some_iff.mp wraps
  obtain ⟨-, unpriced, productions⟩ := h.wrapper known mark
  have first : d.productions[0]? = some [.usage u] := by rw [productions]; rfl
  have whole := Parses.rule known first (.usage found accepted .nil) rest
  rw [unpriced, Penalty.add_zero, Penalty.zero_add] at whole
  exact whole

/-- Every tree of the strict grammar is one of the fault-tolerant grammar, once its tokens are wrapped. -/
theorem Mirrors.expand (h : Mirrors P s t) {qs : List Part} {i j : Nat} {us : List Tree} {p : Penalty}
    (parsed : s.Parses input qs i j us p) {ps : List Part} (own : ∀ part ∈ ps, part.Own)
    (same : ps.map t.unwrapPart = qs) :
    ∃ ts, t.Parses input ps i j ts p ∧ ts.map (Tree.collapse t) = us := by
  induction parsed generalizing ps with
  | nil =>
    obtain rfl := List.map_eq_nil_iff.mp same
    exact ⟨[], .nil, rfl⟩
  | empty _ ih =>
    obtain ⟨part, ps, rfl, here, others⟩ := List.map_eq_cons_iff.mp same
    obtain ⟨ts, rest, equal⟩ := ih (List.forall_mem_cons.mp own).2 others
    obtain rfl := eq_symbol_of_unwrapPart here eq_empty_of_unwrap
    exact ⟨ts, .empty rest, equal⟩
  | usage found accepted _ ih =>
    obtain ⟨part, ps, rfl, here, others⟩ := List.map_eq_cons_iff.mp same
    obtain ⟨mine, own'⟩ := List.forall_mem_cons.mp own
    obtain ⟨ts, rest, equal⟩ := ih own' others
    obtain ⟨w, rfl, wraps⟩ := exists_wrapper_of_unwrapPart mine here
    refine ⟨_, h.wrapped.parses_met wraps found (accepts_congr h.sets .. ▸ accepted) rest, ?_⟩
    rw [List.map_cons, Tree.collapse_met _ _ _ wraps, equal]
  | rule known chosen _ _ inner rest =>
    obtain ⟨part, ps, rfl, here, others⟩ := List.map_eq_cons_iff.mp same
    obtain ⟨mine, own'⟩ := List.forall_mem_cons.mp own
    obtain ⟨r, rfl, plain, rfl⟩ := exists_rule_of_unwrapPart here
    obtain ⟨d, known', cost, -, productions, clean⟩ := h.tolerant_rule plain mine known
    rw [productions, List.getElem?_map] at chosen
    obtain ⟨production, chosen', rfl⟩ := Option.map_eq_some_iff.mp chosen
    obtain ⟨ts, rest, equal⟩ := rest own' others
    obtain ⟨cs, inner, equal'⟩ := inner (own_symbols (clean _ (List.mem_of_getElem? chosen')))
      (map_unwrapPart_symbols t production)
    rw [cost]
    refine ⟨_, .rule known' chosen' inner rest, ?_⟩
    rw [List.map_cons, Tree.collapse_rule _ _ _ _ plain, equal, equal']
  | bare known childless _ ih =>
    obtain ⟨part, ps, rfl, here, others⟩ := List.map_eq_cons_iff.mp same
    obtain ⟨mine, own'⟩ := List.forall_mem_cons.mp own
    obtain ⟨r, rfl, plain, rfl⟩ := exists_rule_of_unwrapPart here
    obtain ⟨d, known', cost, -, productions, -⟩ := h.tolerant_rule plain mine known
    obtain ⟨ts, rest, equal⟩ := ih own' others
    rw [productions, List.map_eq_nil_iff] at childless
    rw [cost]
    refine ⟨_, .bare known' childless rest, ?_⟩
    rw [List.map_cons, Tree.collapse_rule _ _ _ _ plain, equal]
    rfl
  | @group _ _ _ count k _ _ _ _ _ _ known admitted _ _ inner rest =>
    obtain ⟨part, ps, rfl, here, others⟩ := List.map_eq_cons_iff.mp same
    obtain rfl := eq_symbol_of_unwrapPart here eq_group_of_unwrap
    obtain ⟨d, known', least, most, -, -⟩ := h.tolerant_group known
    obtain ⟨ts, rest, equal⟩ := rest (List.forall_mem_cons.mp own).2 others
    obtain ⟨cs, inner, equal'⟩ := inner (own_iterations count k) (by rw [List.map_replicate]; rfl)
    refine ⟨_, .group known' ((GroupDef.admits_congr least most _).mp admitted) inner rest, ?_⟩
    rw [List.map_cons, Tree.collapse_group, equal, equal']
  | iteration known _ _ inner rest =>
    obtain ⟨part, ps, rfl, here, others⟩ := List.map_eq_cons_iff.mp same
    obtain rfl := eq_iteration_of_unwrapPart here
    obtain ⟨d, known', -, -, production, clean⟩ := h.tolerant_group known
    obtain ⟨ts, rest, equal⟩ := rest (List.forall_mem_cons.mp own).2 others
    obtain ⟨cs, inner, equal'⟩ := inner (own_symbols clean) (by rw [map_unwrapPart_symbols, production])
    refine ⟨_, .iteration known' inner rest, ?_⟩
    rw [List.map_cons, Tree.collapse_iteration, equal, equal']

/-- Trees of the same parts that cost nothing and are the same without their wrappers are the same. -/
theorem Mirrors.collapse_injective (h : Mirrors P s t) {ps : List Part} {i j j' : Nat} {ts us : List Tree}
    {p q : Penalty} (parsed : t.Parses input ps i j ts p) (parsed' : t.Parses input ps i j' us q) (free : p = 0)
    (free' : q = 0) (own : ∀ part ∈ ps, part.Own) (same : ts.map (Tree.collapse t) = us.map (Tree.collapse t)) :
    ts = us := by
  induction parsed generalizing j' us q with
  | nil => cases parsed'; rfl
  | empty _ ih =>
    cases parsed' with
    | empty rest => exact ih rest free free' (List.forall_mem_cons.mp own).2 same
  | usage => exact ((List.forall_mem_cons.mp own).1).elim
  | @rule i m j n r d production cs c ps ts p known chosen inner _ below ih =>
    obtain ⟨mine, own⟩ := List.forall_mem_cons.mp own
    obtain ⟨here, free⟩ := Penalty.add_eq_zero_iff.mp free
    cases parsed' with
    | bare known' childless =>
      cases known.symm.trans known'
      simp [childless] at chosen
    | @rule _ m' _ n' _ d' production' cs' c' _ us q known' chosen' inner' rest' =>
      cases known.symm.trans known'
      obtain ⟨here', free'⟩ := Penalty.add_eq_zero_iff.mp free'
      obtain ⟨head, tail⟩ := List.cons.inj same
      cases mark : d.tolerantFor with
      | some u =>
        obtain ⟨x, rfl, found, -, rfl, rfl⟩ :=
          h.wrapped.met known mark chosen inner (Penalty.add_eq_zero_iff.mp here).1
        obtain ⟨x', rfl, found', -, rfl, rfl⟩ :=
          h.wrapped.met known mark chosen' inner' (Penalty.add_eq_zero_iff.mp here').1
        cases found.symm.trans found'
        rw [here, here', ih rest' free free' own tail]
      | none =>
        have plain : t.wrappedUsage? r = none := (wrappedUsage?_of_known known).trans mark
        rw [Tree.collapse_rule _ _ _ _ plain, Tree.collapse_rule _ _ _ _ plain] at head
        obtain ⟨kind, span, -, children⟩ := Tree.node.inj head
        cases kind
        cases span
        cases chosen.symm.trans chosen'
        have clean := (h.wrapped.rule known mark mine).2 _ (List.mem_of_getElem? chosen)
        have equal := below inner' (Penalty.add_eq_zero_iff.mp here).1 (Penalty.add_eq_zero_iff.mp here').1
          (own_symbols clean) children
        rw [equal, here, here', ih rest' free free' own tail]
  | bare known childless _ ih =>
    obtain ⟨-, own⟩ := List.forall_mem_cons.mp own
    cases parsed' with
    | bare known' childless' rest' =>
      cases known.symm.trans known'
      rw [ih rest' (Penalty.add_eq_zero_iff.mp free).2 (Penalty.add_eq_zero_iff.mp free').2 own (List.cons.inj same).2]
    | rule known' chosen =>
      cases known.symm.trans known'
      simp [childless] at chosen
  | group known admitted inner _ below ih =>
    obtain ⟨-, own⟩ := List.forall_mem_cons.mp own
    obtain ⟨here, free⟩ := Penalty.add_eq_zero_iff.mp free
    cases parsed' with
    | group known' admitted' inner' rest' =>
      obtain ⟨here', free'⟩ := Penalty.add_eq_zero_iff.mp free'
      obtain ⟨head, tail⟩ := List.cons.inj same
      rw [Tree.collapse_group, Tree.collapse_group] at head
      obtain ⟨-, span, -, children⟩ := Tree.node.inj head
      cases span
      have counts := congrArg List.length children
      rw [List.length_map, List.length_map, inner.length_iterations, inner'.length_iterations] at counts
      subst counts
      rw [below inner' here here' (own_iterations _ _) children, here, here', ih rest' free free' own tail]
  | iteration known inner _ below ih =>
    obtain ⟨-, own⟩ := List.forall_mem_cons.mp own
    obtain ⟨here, free⟩ := Penalty.add_eq_zero_iff.mp free
    cases parsed' with
    | iteration known' inner' rest' =>
      cases known.symm.trans known'
      obtain ⟨here', free'⟩ := Penalty.add_eq_zero_iff.mp free'
      obtain ⟨head, tail⟩ := List.cons.inj same
      rw [Tree.collapse_iteration, Tree.collapse_iteration] at head
      obtain ⟨-, span, -, children⟩ := Tree.node.inj head
      cases span
      rw [below inner' here here' (own_symbols (h.wrapped.group known)) children, here, here',
        ih rest' free free' own tail]

/-- A group node is as frugal as without wrappers below it. -/
theorem Mirrors.isFrugal_collapse_iff (h : Mirrors P s t) {x : Tree} (met : ∀ c ∈ x.children, c.MeetsRoot t) :
    (Tree.node (x.kind.mapRule t.strictId) x.span x.penalty (x.children.map (Tree.collapse t))).IsFrugal s ↔
      x.IsFrugal t := by
  have kinds (k : GroupId) : x.kind.mapRule t.strictId = .group k ↔ x.kind = .group k := by
    cases x.kind <;> simp [NodeKind.mapRule]
  have narrow (i : Nat) (most : Nat) :
      (∀ c, (x.children.map (Tree.collapse t))[i]? = some c → c.span.isEmpty = true → i < most) ↔
        ∀ c, x.children[i]? = some c → c.span.isEmpty = true → i < most := by
    rw [List.getElem?_map]
    cases found : x.children[i]? with
    | none => simp
    | some c =>
      have span := (met c (List.mem_of_getElem? found)).collapse_span.1
      simp [span]
  constructor
  · intro frugal k d group known unbounded i
    obtain ⟨d', found, least, most, -⟩ := h.group known
    rw [← least]
    exact (narrow i _).mp (frugal k d' ((kinds k).mpr group) found (by rwa [GroupDef.isUnbounded, most]) i)
  · intro frugal k d' group found unbounded i
    obtain ⟨d, known, least, most, -⟩ := h.tolerant_group found
    rw [least]
    rw [GroupDef.isUnbounded, most] at unbounded
    exact (narrow i _).mpr (frugal k d ((kinds k).mp group) known unbounded i)

/-- A tree needs no more repetitions of nothing than it does without its wrappers. -/
theorem Mirrors.canonical_collapse_iff (h : Mirrors P s t) {x : Tree} (met : x.Meets t) :
    (x.collapse t).Canonical s ↔ x.Canonical t := by
  induction x using Tree.induct with
  | step x ih =>
    obtain ⟨root, below⟩ := Tree.meets_iff.mp met
    rcases root with plain | ⟨u, y, i, wraps, single, -, -⟩
    · have children : (∀ c ∈ x.children.map (Tree.collapse t), c.Canonical s) ↔ ∀ c ∈ x.children, c.Canonical t := by
        rw [List.forall_mem_map]
        exact forall₂_congr fun c member => ih c member (below c member)
      rw [Tree.canonical_iff, Tree.canonical_iff (t := x), Tree.collapse_of_plain plain]
      exact and_congr (h.isFrugal_collapse_iff fun c member => (Tree.meets_iff.mp (below c member)).1) children
    · rw [Tree.collapse_of_wrapper wraps single, Tree.canonical_iff (t := x), single]
      refine iff_of_true Tree.canonical_childless ⟨Tree.isFrugal_of_kind fun k group => ?_, ?_⟩
      · simp [Tree.wrapped?, Tree.rule?, group] at wraps
      · exact List.forall_mem_singleton.mpr Tree.canonical_childless

end Grammar

end Earley
