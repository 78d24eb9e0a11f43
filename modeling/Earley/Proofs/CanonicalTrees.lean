import Earley.Proofs.Derivation

/-!
# Canonical trees

A group without an upper bound can hold any number of repetitions of nothing. A tree is canonical when such
repetitions stand only where the group needs them. Leaving out the others gives a canonical tree that costs no more.
-/

namespace Earley

namespace Tree

mutual

theorem walkOnto_eq {α : Type} (pass : α → Tree → α) (value : α) :
    (t : Tree) → (rest : List (α × Tree)) → walkOnto pass value t rest = walk pass value t ++ rest
  | .node k s p cs, rest => by
    simp only [walk, walkOnto, List.cons_append]
    rw [walkAllOnto_eq pass _ cs rest, walkAllOnto_eq pass _ cs [], List.append_nil]

theorem walkAllOnto_eq {α : Type} (pass : α → Tree → α) (value : α) :
    (ts : List Tree) → (rest : List (α × Tree)) →
      walkAllOnto pass value ts rest = ts.flatMap (walk pass value) ++ rest
  | [], rest => rfl
  | t :: ts, rest => by
    rw [walkAllOnto, walkAllOnto_eq pass value ts rest, walkOnto_eq pass value t, List.flatMap_cons,
      List.append_assoc]

end

/-- The nodes of a tree are its root and the nodes below. -/
theorem nodes_eq (t : Tree) : t.nodes = t :: t.children.flatMap nodes := by
  obtain ⟨k, s, p, cs⟩ := t
  simp only [nodes, walk, walkOnto, children, List.map_cons]
  rw [walkAllOnto_eq, List.append_nil, List.map_flatMap]
  rfl

/-- What holds of the root and of all nodes below the children holds of all nodes. -/
theorem forall_mem_nodes {P : Tree → Prop} {t : Tree} :
    (∀ n ∈ t.nodes, P n) ↔ P t ∧ ∀ c ∈ t.children, ∀ n ∈ c.nodes, P n := by
  rw [nodes_eq, List.forall_mem_cons]
  simp only [List.forall_mem_flatMap]

/-- Where no child costs more than its parent, no node costs more than the root. -/
theorem penalty_le_of_children {t : Tree}
    (below : ∀ c ∈ t.children, c.penalty ≤ t.penalty ∧ ∀ n ∈ c.nodes, n.penalty ≤ c.penalty) :
    ∀ n ∈ t.nodes, n.penalty ≤ t.penalty := by
  refine forall_mem_nodes.mpr ⟨Nat.le_refl _, fun c member n under => ?_⟩
  obtain ⟨cheap, cheaper⟩ := below c member
  exact Nat.le_trans (cheaper n under) cheap

/-- In a group without an upper bound, repetitions of nothing stand only among the first that are needed, or in
the first place. -/
def IsFrugal (g : Grammar) (t : Tree) : Prop :=
  ∀ k d, t.kind = .group k → g.group? k = some d → d.isUnbounded = true →
    ∀ i child, t.children[i]? = some child → child.span.isEmpty = true → i < max d.min.toNat 1

def Canonical (g : Grammar) (t : Tree) : Prop := ∀ n ∈ t.nodes, n.IsFrugal g

theorem canonical_iff {g : Grammar} {t : Tree} :
    t.Canonical g ↔ t.IsFrugal g ∧ ∀ child ∈ t.children, child.Canonical g :=
  forall_mem_nodes

/-- Only groups can fail to be frugal. -/
theorem isFrugal_of_kind {g : Grammar} {t : Tree} (other : ∀ k, t.kind ≠ .group k) : t.IsFrugal g :=
  fun k _ same => absurd same (other k)

theorem canonical_childless {g : Grammar} {kind : NodeKind} {span : Span} {p : Penalty} :
    (node kind span p []).Canonical g :=
  canonical_iff.mpr ⟨fun _ _ _ _ _ i child place => by simp [children] at place, by simp [children]⟩

end Tree

namespace Grammar

variable {g : Grammar} {input : List Token}

/-- None of some trees costs more than all of them. -/
theorem Parses.penalty_le {ps : List Part} {i j : Nat} {ts : List Tree} {p : Penalty} (h : g.Parses input ps i j ts p) :
    ∀ t ∈ ts, t.penalty ≤ p := by
  rw [h.penalty_eq]
  clear h
  induction ts with
  | nil => simp
  | cons t ts ih =>
    refine List.forall_mem_cons.mpr ⟨Penalty.le_add_right _ _, fun u later => Nat.le_trans (ih u later) ?_⟩
    rw [List.foldr_cons, Penalty.add_comm]
    exact Penalty.le_add_right _ _

/-- No node costs more than the tree it is in. -/
theorem Parses.penalty_le_of_mem_nodes {ps : List Part} {i j : Nat} {ts : List Tree} {p : Penalty}
    (h : g.Parses input ps i j ts p) : ∀ t ∈ ts, ∀ n ∈ t.nodes, n.penalty ≤ t.penalty := by
  induction h with
  | nil => simp
  | empty _ ih => exact ih
  | usage _ _ _ ih =>
    exact List.forall_mem_cons.mpr ⟨Tree.penalty_le_of_children (by simp [Tree.leaf, Tree.children]), ih⟩
  | rule _ _ inner _ below ih =>
    refine List.forall_mem_cons.mpr ⟨Tree.penalty_le_of_children fun c inside => ⟨?_, below c inside⟩, ih⟩
    exact Nat.le_trans (inner.penalty_le c inside) (Penalty.le_add_right _ _)
  | bare _ _ _ ih => exact List.forall_mem_cons.mpr ⟨Tree.penalty_le_of_children (by simp [Tree.children]), ih⟩
  | group _ _ inner _ below ih =>
    exact List.forall_mem_cons.mpr
      ⟨Tree.penalty_le_of_children fun c inside => ⟨inner.penalty_le c inside, below c inside⟩, ih⟩
  | iteration _ inner _ below ih =>
    exact List.forall_mem_cons.mpr
      ⟨Tree.penalty_le_of_children fun c inside => ⟨inner.penalty_le c inside, below c inside⟩, ih⟩

/-- No node of a derivation tree ends before it starts. -/
theorem Parses.span_ordered {ps : List Part} {i j : Nat} {ts : List Tree} {p : Penalty}
    (h : g.Parses input ps i j ts p) : ∀ t ∈ ts, ∀ n ∈ t.nodes, n.span.start ≤ n.span.finish := by
  induction h with
  | nil => simp
  | empty _ ih => exact ih
  | usage _ _ _ ih =>
    refine List.forall_mem_cons.mpr ⟨Tree.forall_mem_nodes.mpr ⟨Nat.le_succ _, ?_⟩, ih⟩
    simp [Tree.leaf, Tree.children]
  | rule _ _ inner _ below ih =>
    exact List.forall_mem_cons.mpr ⟨Tree.forall_mem_nodes.mpr ⟨inner.start_le_finish, below⟩, ih⟩
  | bare _ _ _ ih =>
    refine List.forall_mem_cons.mpr ⟨Tree.forall_mem_nodes.mpr ⟨Nat.le_refl _, ?_⟩, ih⟩
    simp [Tree.children]
  | group _ _ inner _ below ih =>
    exact List.forall_mem_cons.mpr ⟨Tree.forall_mem_nodes.mpr ⟨inner.start_le_finish, below⟩, ih⟩
  | iteration _ inner _ below ih =>
    exact List.forall_mem_cons.mpr ⟨Tree.forall_mem_nodes.mpr ⟨inner.start_le_finish, below⟩, ih⟩

theorem Parses.length_iterations {k : GroupId} {count i j : Nat} {cs : List Tree} {c : Penalty}
    (h : g.Parses input (List.replicate count (.iteration k)) i j cs c) : cs.length = count := by
  induction count generalizing i cs c with
  | zero =>
    cases h
    rfl
  | succ count ih =>
    rw [List.replicate_succ] at h
    cases h with
    | iteration _ _ rest => rw [List.length_cons, ih rest]

/-- The repetitions that cover some input are themselves a run of repetitions, at no greater penalty. -/
theorem Parses.nonempty {k : GroupId} {count i j : Nat} {cs : List Tree} {c : Penalty}
    (h : g.Parses input (List.replicate count (.iteration k)) i j cs c) :
    ∃ c', c' ≤ c ∧ g.Parses input (List.replicate (cs.filter fun t => !t.span.isEmpty).length (.iteration k)) i j
      (cs.filter fun t => !t.span.isEmpty) c' := by
  induction count generalizing i cs c with
  | zero =>
    cases h
    exact ⟨0, Nat.le_refl _, .nil⟩
  | succ count ih =>
    rw [List.replicate_succ] at h
    cases h with
    | @iteration _ m _ _ d us q _ ts p known inner rest =>
      obtain ⟨c', less, others⟩ := ih rest
      by_cases same : i = m
      · subst same
        refine ⟨c', Nat.le_trans less ?_, by simpa [Tree.span, Span.isEmpty] using others⟩
        rw [Penalty.add_comm]
        exact Penalty.le_add_right _ _
      · have wide : (Span.mk i m).isEmpty = false := by simpa [Span.isEmpty] using same
        refine ⟨q + c', Penalty.add_le_add (Nat.le_refl _) less, ?_⟩
        simpa [Tree.span, wide, List.replicate_succ] using Parses.iteration known inner others

/-- A run of repetitions without those that are neither among the first `keep` nor cover any input. -/
theorem Parses.trim {k : GroupId} {count i j : Nat} {cs : List Tree} {c : Penalty} (keep : Nat)
    (h : g.Parses input (List.replicate count (.iteration k)) i j cs c) :
    ∃ count' cs' c', c' ≤ c ∧ min count keep ≤ count' ∧
      g.Parses input (List.replicate count' (.iteration k)) i j cs' c' ∧ (∀ t ∈ cs', t ∈ cs) ∧
      ∀ (n : Nat) (t : Tree), cs'[n]? = some t → t.span.isEmpty = true → n < keep := by
  have split : count = min count keep + (count - keep) := by omega
  rw [split, ← List.replicate_append_replicate] at h
  obtain ⟨m, us, vs, q, q', rfl, rfl, first, others⟩ := h.of_append
  obtain ⟨c', less, tail⟩ := others.nonempty
  have whole := first.append tail
  rw [List.replicate_append_replicate] at whole
  have length : us.length = min count keep := first.length_iterations
  refine ⟨_, _, _, Penalty.add_le_add (Nat.le_refl _) less, Nat.le_add_right _ _, whole, ?_, ?_⟩
  · intro t member
    rcases List.mem_append.mp member with inside | inside
    · exact List.mem_append_left _ inside
    · exact List.mem_append_right _ (List.mem_filter.mp inside).1
  · intro n t place narrow
    by_cases early : n < us.length
    · omega
    · rw [List.getElem?_append_right (by omega)] at place
      have wide := (List.mem_filter.mp (List.mem_of_getElem? place)).2
      simp [narrow] at wide

/-- A run of repetitions that a group admits, without the repetitions of nothing that it does not need. -/
theorem Parses.frugal {k : GroupId} {d : GroupDef} {count i j : Nat} {cs : List Tree} {c : Penalty}
    (admitted : d.Admits count) (h : g.Parses input (List.replicate count (.iteration k)) i j cs c) :
    ∃ count' cs' c', c' ≤ c ∧ d.Admits count' ∧ g.Parses input (List.replicate count' (.iteration k)) i j cs' c' ∧
      (∀ t ∈ cs', t ∈ cs) ∧ (d.isUnbounded = true → ∀ (n : Nat) (t : Tree), cs'[n]? = some t → t.span.isEmpty = true →
        n < max d.min.toNat 1) := by
  by_cases unbounded : d.isUnbounded = true
  · obtain ⟨count', cs', c', less, enough, parsed, inside, narrow⟩ := h.trim (max d.min.toNat 1)
    refine ⟨count', cs', c', less, ⟨?_, .inl unbounded⟩, parsed, inside, fun _ => narrow⟩
    have := admitted.1
    omega
  · exact ⟨count, cs, c, Nat.le_refl _, admitted, h, fun _ member => member, fun yes => absurd yes unbounded⟩

/-- Whatever has trees has canonical ones that cost no more. -/
theorem Parses.canonical {ps : List Part} {i j : Nat} {ts : List Tree} {p : Penalty} (h : g.Parses input ps i j ts p) :
    ∃ ts' p', p' ≤ p ∧ g.Parses input ps i j ts' p' ∧ ∀ t ∈ ts', t.Canonical g := by
  induction h with
  | nil => exact ⟨[], 0, Nat.le_refl _, .nil, by simp⟩
  | empty _ ih =>
    obtain ⟨ts, p, less, rest, canonical⟩ := ih
    exact ⟨ts, p, less, .empty rest, canonical⟩
  | @usage i j u t _ _ _ found accepted _ ih =>
    obtain ⟨ts, p, less, rest, canonical⟩ := ih
    exact ⟨_, p, less, .usage found accepted rest,
      List.forall_mem_cons.mpr ⟨Tree.canonical_childless, canonical⟩⟩
  | rule known chosen _ _ inner rest =>
    obtain ⟨cs, c, less, inner, below⟩ := inner
    obtain ⟨ts, p, less', rest, canonical⟩ := rest
    refine ⟨_, _, Penalty.add_le_add (Penalty.add_le_add less (Nat.le_refl _)) less', .rule known chosen inner rest,
      List.forall_mem_cons.mpr ⟨?_, canonical⟩⟩
    exact Tree.canonical_iff.mpr ⟨Tree.isFrugal_of_kind (by simp [Tree.kind]), below⟩
  | bare known childless _ ih =>
    obtain ⟨ts, p, less, rest, canonical⟩ := ih
    exact ⟨_, _, Penalty.add_le_add (Nat.le_refl _) less, .bare known childless rest,
      List.forall_mem_cons.mpr ⟨Tree.canonical_childless, canonical⟩⟩
  | @group i m j count k d _ _ _ _ _ known admitted _ _ inner rest =>
    obtain ⟨cs, c, less, inner, below⟩ := inner
    obtain ⟨count, cs, c', less', admitted, inner, kept, narrow⟩ := inner.frugal admitted
    obtain ⟨ts, p, less'', rest, canonical⟩ := rest
    refine ⟨_, _, Penalty.add_le_add (Nat.le_trans less' less) less'', .group known admitted inner rest,
      List.forall_mem_cons.mpr ⟨Tree.canonical_iff.mpr ⟨?_, fun t member => below t (kept t member)⟩, canonical⟩⟩
    intro k' d' same known' unbounded
    cases same
    cases known.symm.trans known'
    exact narrow unbounded
  | iteration known _ _ inner rest =>
    obtain ⟨cs, c, less, inner, below⟩ := inner
    obtain ⟨ts, p, less', rest, canonical⟩ := rest
    refine ⟨_, _, Penalty.add_le_add less less', .iteration known inner rest,
      List.forall_mem_cons.mpr ⟨?_, canonical⟩⟩
    exact Tree.canonical_iff.mpr ⟨Tree.isFrugal_of_kind (by simp [Tree.kind]), below⟩

/-- An input that has a tree has a canonical one that costs no more. -/
theorem IsTree.canonical {r : RuleId} {t : Tree} (h : g.IsTree r input t) :
    ∃ t', g.IsTree r input t' ∧ t'.Canonical g ∧ t'.penalty ≤ t.penalty := by
  obtain ⟨ts, p, less, parsed, canonical⟩ := Parses.canonical h
  obtain ⟨t', rfl, rfl⟩ := parsed.single_rule
  exact ⟨t', parsed, canonical t' (List.mem_cons_self ..), less⟩

end Grammar

end Earley
