import Earley.Proofs.ParserSafety
import Earley.Tree.Outline

/-!
# Trees that differ in their outlines

A derivation tree of an input is its outline, filled in from the input and the grammar (`Parses.fill_outline`). So
trees that differ at all differ in their outlines, and a forest holds no outline twice (`forest_outlines_distinct`).
-/

namespace Earley

theorem Tree.outlineAll_eq (ts : List Tree) : outlineAll ts = ts.map outline := by
  induction ts with
  | nil => rfl
  | cons t ts ih => rw [outlineAll, ih, List.map_cons]

theorem Outline.fillAll_eq (g : Grammar) (input : List Token) (os : List Outline) :
    fillAll g input os = os.map (fill g input) := by
  induction os with
  | nil => rfl
  | cons o os ih => rw [fillAll, ih, List.map_cons]

namespace Grammar

variable {g : Grammar} {input : List Token}

/-- A tree that its outline, the grammar and the input determine. -/
def Determines (g : Grammar) (input : List Token) (t : Tree) : Prop := t.outline.fill g input = t

theorem fill_outlines {ts : List Tree} (determined : ∀ t ∈ ts, g.Determines input t) :
    (ts.map Tree.outline).map (Outline.fill g input) = ts := by
  rw [List.map_map]
  exact (List.map_congr_left determined).trans (List.map_id ts)

/-- A node is determined if its children are and its own token and penalty are those filled in. -/
theorem determines_node {kind : NodeKind} {span : Span} {c p : Penalty} {cs : List Tree}
    (token : Outline.fillLabel input span.start kind.label = kind) (cost : Outline.ownPenalty g kind.label = c)
    (below : ∀ c ∈ cs, g.Determines input c) (total : p = cs.foldr (fun t total => t.penalty + total) 0 + c) :
    g.Determines input (.node kind span p cs) := by
  rw [Determines, Tree.outline, Outline.fill, Tree.outlineAll_eq, Outline.fillAll_eq, fill_outlines below, token, cost,
    total]

theorem rulePenalty_of_known {r : RuleId} {d : RuleDef} (known : g.rule? r = some d) : g.rulePenalty r = d.penalty := by
  simp [rulePenalty, known]

/-- Every tree of a derivation is determined: tokens stand where its spans say, and its penalties are sums. -/
theorem Parses.fill_outline {ps : List Part} {i j : Nat} {ts : List Tree} {p : Penalty}
    (h : g.Parses input ps i j ts p) : ∀ t ∈ ts, g.Determines input t := by
  induction h with
  | nil => simp
  | empty _ ih => exact ih
  | @usage i j u t ps ts p found accepted rest ih =>
    refine List.forall_mem_cons.mpr ⟨determines_node (c := 0) ?_ rfl (by simp) (by simp), ih⟩
    simp [NodeKind.label, Outline.fillLabel, List.getD, found]
  | rule known chosen inner rest below ih =>
    refine List.forall_mem_cons.mpr ⟨determines_node rfl (rulePenalty_of_known known) below ?_, ih⟩
    rw [← inner.penalty_eq]
  | bare known childless rest ih =>
    exact List.forall_mem_cons.mpr ⟨determines_node rfl (rulePenalty_of_known known) (by simp) (by simp), ih⟩
  | group known admitted inner rest below ih =>
    refine List.forall_mem_cons.mpr ⟨determines_node (c := 0) rfl rfl below ?_, ih⟩
    rw [← inner.penalty_eq, Penalty.add_zero]
  | iteration known inner rest below ih =>
    refine List.forall_mem_cons.mpr ⟨determines_node (c := 0) rfl rfl below ?_, ih⟩
    rw [← inner.penalty_eq, Penalty.add_zero]

end Grammar

/-- No two trees of a forest have the same nodes over the same spans. -/
theorem Parser.forest_outlines_distinct (p : Parser) (arises : p.Arises) : (p.forest.map Tree.outline).Nodup := by
  obtain ⟨built, known⟩ := arises.known
  obtain ⟨distinct, start, input, trees⟩ := known.trees built p.config.maxTrees
  -- Filling in the outlines gives the trees back, and these are distinct.
  have filled : (p.forest.map Tree.outline).map (Outline.fill p.grammar input) = p.forest :=
    Grammar.fill_outlines fun t member => (trees t member).fill_outline t (List.mem_cons_self ..)
  exact .of_map (Outline.fill p.grammar input) (filled.symm ▸ distinct)

/-- A rule with two equal productions of a group whose repetitions may be empty, and one of itself. -/
def echoGrammar : Grammar :=
  let calls : List Call := [.rule "start", .rule "part", .addProduction ⟨3⟩ [.usage (.terminal (.ofChar 'a'))],
    .addProduction ⟨3⟩ [], .group [.rule ⟨3⟩] 0 2, .addProduction ⟨2⟩ [.group ⟨0⟩], .addProduction ⟨2⟩ [.group ⟨0⟩],
    .addProduction ⟨2⟩ [.rule ⟨2⟩], .setStart ⟨2⟩]
  calls.foldl (fun g c => c.after g) (.empty false)

/-- A letter has twelve trees: two for the equal productions, three for the places of empty repetitions, and two with
and without the detour. -/
theorem forest_echoGrammar_outlines_distinct :
    ∃ outcome p, (Parser.run [.ofChar 'a']).run (.new echoGrammar {}) = .ok outcome p ∧ p.forest.length = 12 ∧
      (p.forest.map Tree.outline).Nodup := by
  have reachable : Reachable echoGrammar :=
    reachable_foldl (.empty false) _
  have starts : echoGrammar.start = some ⟨2⟩ := by decide +kernel
  have ran := Parser.run_eq (.new echoGrammar {}) [.ofChar 'a'] rfl starts
  refine ⟨_, _, ran, ?_, Parser.forest_outlines_distinct _ (.run (.new reachable {}) ran)⟩
  decide +kernel

end Earley
