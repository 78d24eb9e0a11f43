import Earley.Tree.Derivation

/-!
# Derivations and derivation trees

Every derivation is read off some trees, and the trees of some parts say what the parts derive. Derivations also
outlive every change of a grammar that keeps the productions, bounds and penalties it has.
-/

namespace Earley.Grammar

/-- What `g'` keeps of `g`: all that a derivation can refer to. -/
structure Within (g g' : Grammar) : Prop where
  rule : ∀ {r d}, g.rule? r = some d →
    ∃ d', g'.rule? r = some d' ∧ d'.productions = d.productions ∧ d'.penalty = d.penalty
  group : ∀ {k d}, g.group? k = some d →
    ∃ d', g'.group? k = some d' ∧ d'.production = d.production ∧ d'.min = d.min ∧ d'.max = d.max
  accepts : ∀ {u t}, g.accepts u t = true → g'.accepts u t = true

theorem Derives.within {g g' : Grammar} (kept : Within g g') {ss : List Symbol} {ts : List Token} {p : Penalty}
    (h : g.Derives ss ts p) : g'.Derives ss ts p := by
  induction h with
  | nil => exact .nil
  | empty _ ih => exact .empty ih
  | usage accepted _ ih => exact .usage (kept.accepts accepted) ih
  | rule known chosen _ _ inner rest =>
    obtain ⟨d', known', same, cost⟩ := kept.rule known
    rw [← cost]
    exact .rule known' (same ▸ chosen) inner rest
  | bare known childless _ ih =>
    obtain ⟨d', known', same, cost⟩ := kept.rule known
    rw [← cost]
    exact .bare known' (same ▸ childless) ih
  | group known admitted _ _ inner rest =>
    obtain ⟨d', known', same, least, most⟩ := kept.group known
    refine .group known' ?_ (same ▸ inner) rest
    simpa [GroupDef.Admits, GroupDef.isUnbounded, least, most] using admitted

/-- The tokens from position `i` up to, but not including, position `j`. -/
def slice (input : List Token) (i j : Nat) : List Token := (input.take j).drop i

theorem slice_self (input : List Token) (i : Nat) : slice input i i = [] := by
  simp only [slice, List.drop_eq_nil_iff, List.length_take]
  omega

theorem slice_append (input : List Token) {i m j : Nat} (first : i ≤ m) (second : m ≤ j) :
    slice input i m ++ slice input m j = slice input i j := by
  have shorter : input.take m = (input.take j).take m := by rw [List.take_take, Nat.min_eq_left second]
  rw [slice, shorter, slice, slice]
  calc (List.take m (List.take j input)).drop i ++ (List.take j input).drop m
      = (List.take m (List.take j input)).drop i ++ (List.take j input).drop (i + (m - i)) := by
        rw [Nat.add_sub_cancel' first]
    _ = ((List.take j input).drop i).take (m - i) ++ ((List.take j input).drop i).drop (m - i) := by
        rw [List.drop_take, List.drop_drop]
    _ = (List.take j input).drop i := List.take_append_drop _ _

theorem slice_succ {input : List Token} {i : Nat} {t : Token} (found : input[i]? = some t) :
    slice input i (i + 1) = [t] := by
  obtain ⟨bound, rfl⟩ := List.getElem?_eq_some_iff.mp found
  rw [slice, List.take_succ_eq_append_getElem bound]
  exact List.drop_left' (by simp; omega)

def partSymbols (g : Grammar) : Part → List Symbol
  | .symbol s => [s]
  | .iteration k => match g.group? k with
    | some d => d.production
    | none => []

theorem flatMap_symbols (g : Grammar) (ss : List Symbol) : (ss.map Part.symbol).flatMap g.partSymbols = ss := by
  induction ss with
  | nil => rfl
  | cons s ss ih => simp [partSymbols, ih]

theorem flatMap_iterations {g : Grammar} {k : GroupId} {d : GroupDef} (known : g.group? k = some d) (count : Nat) :
    (List.replicate count (Part.iteration k)).flatMap g.partSymbols
      = (List.replicate count d.production).flatten := by
  induction count with
  | zero => rfl
  | succ count ih => simp [List.replicate_succ, ih, partSymbols, known]

namespace Parses

variable {g : Grammar} {input : List Token}

theorem append {ps qs : List Part} {i m j : Nat} {ts us : List Tree} {p q : Penalty}
    (left : g.Parses input ps i m ts p) (right : g.Parses input qs m j us q) :
    g.Parses input (ps ++ qs) i j (ts ++ us) (p + q) := by
  induction left with
  | nil => simpa using right
  | empty _ ih => exact .empty (ih right)
  | usage found accepted _ ih => exact .usage found accepted (ih right)
  | rule known chosen inner _ _ ih =>
    rw [Penalty.add_assoc]
    exact .rule known chosen inner (ih right)
  | bare known childless _ ih =>
    rw [Penalty.add_assoc]
    exact .bare known childless (ih right)
  | group known admitted inner _ _ ih =>
    rw [Penalty.add_assoc]
    exact .group known admitted inner (ih right)
  | iteration known inner _ _ ih =>
    rw [Penalty.add_assoc]
    exact .iteration known inner (ih right)

/-- Trees of a concatenation are those of the first parts and then those of the others. -/
theorem of_append {ps qs : List Part} {i j : Nat} {ts : List Tree} {p : Penalty}
    (h : g.Parses input (ps ++ qs) i j ts p) :
    ∃ m us vs q q', ts = us ++ vs ∧ p = q + q' ∧ g.Parses input ps i m us q ∧ g.Parses input qs m j vs q' := by
  induction ps generalizing i ts p with
  | nil => exact ⟨i, [], ts, 0, p, rfl, by simp, .nil, h⟩
  | cons part ps ih =>
    rw [List.cons_append] at h
    cases h with
    | empty rest =>
      obtain ⟨m, us, vs, q, q', rfl, rfl, left, right⟩ := ih rest
      exact ⟨m, us, vs, q, q', rfl, rfl, .empty left, right⟩
    | usage found accepted rest =>
      obtain ⟨m, us, vs, q, q', rfl, rfl, left, right⟩ := ih rest
      exact ⟨m, _, vs, q, q', rfl, rfl, .usage found accepted left, right⟩
    | rule known chosen inner rest =>
      obtain ⟨m, us, vs, q, q', rfl, rfl, left, right⟩ := ih rest
      exact ⟨m, _, vs, _, q', rfl, (Penalty.add_assoc ..).symm, .rule known chosen inner left, right⟩
    | bare known childless rest =>
      obtain ⟨m, us, vs, q, q', rfl, rfl, left, right⟩ := ih rest
      exact ⟨m, _, vs, _, q', rfl, (Penalty.add_assoc ..).symm, .bare known childless left, right⟩
    | group known admitted inner rest =>
      obtain ⟨m, us, vs, q, q', rfl, rfl, left, right⟩ := ih rest
      exact ⟨m, _, vs, _, q', rfl, (Penalty.add_assoc ..).symm, .group known admitted inner left, right⟩
    | iteration known inner rest =>
      obtain ⟨m, us, vs, q, q', rfl, rfl, left, right⟩ := ih rest
      exact ⟨m, _, vs, _, q', rfl, (Penalty.add_assoc ..).symm, .iteration known inner left, right⟩

/-- Trees show what their parts derive. -/
theorem derives {ps : List Part} {i j : Nat} {ts : List Tree} {p : Penalty} (h : g.Parses input ps i j ts p) :
    g.Derives (ps.flatMap g.partSymbols) (slice input i j) p := by
  induction h with
  | nil => simpa [slice_self] using Derives.nil
  | empty _ ih => exact .empty ih
  | usage found accepted rest ih =>
    rw [← slice_append input (Nat.le_succ _) rest.start_le_finish, slice_succ found]
    exact .usage accepted ih
  | rule known chosen inner rest ih ih' =>
    rw [← slice_append input inner.start_le_finish rest.start_le_finish]
    rw [flatMap_symbols] at ih
    exact .rule known (List.mem_of_getElem? chosen) ih ih'
  | bare known childless _ ih => exact .bare known childless ih
  | group known admitted inner rest ih ih' =>
    rw [← slice_append input inner.start_le_finish rest.start_le_finish]
    rw [flatMap_iterations known] at ih
    exact .group known admitted ih ih'
  | @iteration i m j k d cs c ps ts p known inner rest ih ih' =>
    rw [← slice_append input inner.start_le_finish rest.start_le_finish]
    rw [flatMap_symbols] at ih
    rw [List.flatMap_cons]
    simpa [partSymbols, known] using ih.append ih'

/-- Trees of a production written out `count` times are those of `count` repetitions. -/
theorem repeated {k : GroupId} {d : GroupDef} (known : g.group? k = some d) {count i j : Nat} {ts : List Tree}
    {p : Penalty} (h : g.Parses input ((List.replicate count d.production).flatten.map .symbol) i j ts p) :
    ∃ us, g.Parses input (List.replicate count (.iteration k)) i j us p := by
  induction count generalizing i ts p with
  | zero => exact ⟨ts, by simpa using h⟩
  | succ count ih =>
    rw [List.replicate_succ, List.flatten_cons, List.map_append] at h
    obtain ⟨m, us, vs, q, q', -, rfl, first, others⟩ := h.of_append
    obtain ⟨ws, others⟩ := ih others
    exact ⟨_, .iteration known first others⟩

end Parses

def Placed (ts input : List Token) (i : Nat) : Prop := ∀ {n t}, ts[n]? = some t → input[i + n]? = some t

theorem Placed.left {us ts input : List Token} {i : Nat} (h : Placed (us ++ ts) input i) : Placed us input i := by
  intro n t here
  apply h
  rw [List.getElem?_append_left (List.getElem?_eq_some_iff.mp here).1]
  exact here

theorem Placed.right {us ts input : List Token} {i : Nat} (h : Placed (us ++ ts) input i) :
    Placed ts input (i + us.length) := by
  intro n t here
  rw [Nat.add_assoc]
  apply h
  rw [List.getElem?_append_right (by omega), Nat.add_sub_cancel_left]
  exact here

/-- Every derivation is read off some trees, wherever its tokens stand in the input. -/
theorem Derives.parses {g : Grammar} {ss : List Symbol} {ts : List Token} {p : Penalty} (h : g.Derives ss ts p)
    (input : List Token) (i : Nat) (placed : Placed ts input i) :
    ∃ us, g.Parses input (ss.map .symbol) i (i + ts.length) us p := by
  induction h generalizing i with
  | nil => exact ⟨[], .nil⟩
  | empty _ ih =>
    obtain ⟨us, found⟩ := ih i placed
    exact ⟨us, .empty found⟩
  | @usage u t ss ts p accepted _ ih =>
    have placed : Placed ([t] ++ ts) input i := placed
    obtain ⟨us, found⟩ := ih (i + 1) placed.right
    rw [Nat.add_assoc, Nat.add_comm 1 ts.length] at found
    have here : input[i + 0]? = some t := placed.left rfl
    exact ⟨.leaf t i :: us, .usage here accepted found⟩
  | @rule r d production us c ss ts p known chosen _ _ inner rest =>
    obtain ⟨n, chosen⟩ := List.mem_iff_getElem?.mp chosen
    obtain ⟨cs, first⟩ := inner i placed.left
    obtain ⟨ws, others⟩ := rest (i + us.length) placed.right
    rw [Nat.add_assoc, ← List.length_append] at others
    exact ⟨_, .rule known chosen first others⟩
  | bare known childless _ ih =>
    obtain ⟨us, found⟩ := ih i placed
    exact ⟨_, .bare known childless found⟩
  | @group k d count us c ss ts p known admitted _ _ inner rest =>
    obtain ⟨cs, first⟩ := inner i placed.left
    obtain ⟨cs, first⟩ := first.repeated known
    obtain ⟨ws, others⟩ := rest (i + us.length) placed.right
    rw [Nat.add_assoc, ← List.length_append] at others
    exact ⟨_, .group known admitted first others⟩

/-- A rule has one tree, which carries the whole penalty. -/
theorem Parses.single_rule {g : Grammar} {r : RuleId} {input : List Token} {i j : Nat} {ts : List Tree} {p : Penalty}
    (h : g.Parses input [.symbol (.rule r)] i j ts p) : ∃ t, ts = [t] ∧ t.penalty = p := by
  have cost := h.penalty_eq
  cases h with
  | rule _ _ _ rest => cases rest; exact ⟨_, rfl, by simpa using cost.symm⟩
  | bare _ _ rest => cases rest; exact ⟨_, rfl, by simpa using cost.symm⟩

/-- A rule derives an input just when the input has a tree. -/
theorem derives_iff_isTree {g : Grammar} {r : RuleId} {input : List Token} {p : Penalty} :
    g.Derives [.rule r] input p ↔ ∃ t, g.IsTree r input t ∧ t.penalty = p := by
  constructor
  · intro h
    obtain ⟨ts, found⟩ := h.parses input 0 fun here => by rwa [Nat.zero_add]
    rw [Nat.zero_add] at found
    obtain ⟨t, rfl, rfl⟩ := found.single_rule
    exact ⟨t, found, rfl⟩
  · rintro ⟨t, found, rfl⟩
    simpa [partSymbols, slice] using Parses.derives found

end Earley.Grammar
