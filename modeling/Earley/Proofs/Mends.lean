import Earley.Grammar.Usages
import Earley.Proofs.Twins
import Mathlib.Data.List.Forall2
import Mathlib.Data.List.Induction

/-!
# Mends

A wrapper meets its usage, after some skipped tokens or none, or it assumes the usage. So a string of usages becomes a
list of mends, and a fault-tolerant grammar derives the tokens of every such list from what spells the usages in its
strict twin, at the cost of the mends (`Mirrors.derives_of_spells`).
-/

namespace Earley

inductive Mend where
  /-- By a token, after some that are skipped. -/
  | met (u : Usage) (skipped : List Token) (t : Token)
  /-- By no token at all. -/
  | assumed (u : Usage)

namespace Mend

def usage : Mend → Usage
  | met u _ _ => u
  | assumed u => u

def tokens : Mend → List Token
  | met _ skipped t => skipped ++ [t]
  | assumed _ => []

def cost : Mend → Nat
  | met _ skipped _ => skipped.length
  | assumed _ => 1

def Valid (g : Grammar) : Mend → Prop
  | met u skipped t => g.accepts u t = true ∧ ∀ x ∈ skipped, x.isFinish = false
  | assumed _ => True

end Mend

namespace Penalty

theorem ofNat_add (m n : Nat) : ofNat (m + n) = ofNat m + ofNat n := by
  apply ext
  simp only [value_ofNat, value_add]
  omega

theorem ofNat_le_ofNat {m n : Nat} (le : m ≤ n) : ofNat m ≤ ofNat n := by
  simp only [le_def, value_ofNat]
  omega

theorem one_eq : (1 : Penalty) = ofNat 1 := rfl

theorem zero_eq : (0 : Penalty) = ofNat 0 := rfl

end Penalty

namespace Grammar

variable {P : Penalty → Prop} {g s t : Grammar}

/-- Tokens that are accepted one by one by the usages that some symbols spell derive from the symbols. -/
theorem Spells.derives {ss : List Symbol} {us : List Usage} (h : g.Spells ss us) {ts : List Token}
    (accepted : List.Forall₂ (fun t u => g.accepts u t = true) ts us) : ∃ cost, g.Derives ss ts cost := by
  induction h generalizing ts with
  | nil =>
    cases accepted
    exact ⟨0, .nil⟩
  | empty _ ih =>
    obtain ⟨cost, derives⟩ := ih accepted
    exact ⟨cost, .empty derives⟩
  | usage _ ih =>
    cases accepted with
    | cons here others =>
      obtain ⟨cost, derives⟩ := ih others
      exact ⟨cost, .usage here derives⟩
  | @rule r d production vs ss us known chosen _ _ inner rest =>
    obtain ⟨c, first⟩ := inner (List.forall₂_take_append _ _ _ accepted)
    obtain ⟨p, second⟩ := rest (List.forall₂_drop_append _ _ _ accepted)
    rw [← List.take_append_drop vs.length ts]
    exact ⟨_, .rule known chosen first second⟩
  | bare known childless _ ih =>
    obtain ⟨cost, derives⟩ := ih accepted
    exact ⟨_, .bare known childless derives⟩
  | @group k d count vs ss us known admitted _ _ inner rest =>
    obtain ⟨c, first⟩ := inner (List.forall₂_take_append _ _ _ accepted)
    obtain ⟨p, second⟩ := rest (List.forall₂_drop_append _ _ _ accepted)
    rw [← List.take_append_drop vs.length ts]
    exact ⟨_, .group known admitted first second⟩

theorem accepts_any {x : Token} (plain : x.isFinish = false) : g.accepts .any x = true := by
  simp [accepts, plain]

/-- The skip rule derives any tokens but the end of the input, at a cost of one each. -/
theorem Wrapped.derives_skip (h : Wrapped P t) {ts : List Token} (some : ts ≠ [])
    (plain : ∀ x ∈ ts, x.isFinish = false) : t.Derives [.rule skipRule] ts (.ofNat ts.length) := by
  obtain ⟨d, known, -, cost, productions⟩ := h.skip
  induction ts using List.reverseRecOn with
  | nil => exact absurd rfl some
  | append_singleton us x ih =>
    obtain ⟨others, last⟩ := List.forall_mem_append.mp plain
    have here : t.Derives [.usage .any] [x] 0 := .usage (accepts_any (last x (List.mem_singleton_self x))) .nil
    rw [List.length_append, Penalty.ofNat_add, List.length_singleton, ← Penalty.one_eq, ← cost]
    by_cases single : us = []
    · subst single
      have one := Derives.rule known (productions ▸ List.mem_cons_self) here .nil
      simpa [← Penalty.zero_eq] using one
    · have more : t.Derives [.rule skipRule, .usage .any] (us ++ [x]) (.ofNat us.length + 0) :=
        (ih single others).append here
      have all := Derives.rule known (productions ▸ List.mem_cons_of_mem _ List.mem_cons_self) more .nil
      simpa using all

/-- A wrapper derives the tokens of every mend of its usage. -/
theorem Wrapped.derives_mend (h : Wrapped P t) {w : RuleId} {m : Mend} (wraps : t.wrappedUsage? w = some m.usage)
    (valid : m.Valid t) : t.Derives [.rule w] m.tokens (.ofNat m.cost) := by
  obtain ⟨d, known, mark⟩ := Option.bind_eq_some_iff.mp wraps
  obtain ⟨-, free, productions⟩ := h.wrapper known mark
  have through {p : Production} {ts : List Token} {c : Penalty} (chosen : p ∈ d.productions)
      (inner : t.Derives p ts c) : t.Derives [.rule w] ts c := by
    simpa [free] using Derives.rule known chosen inner .nil
  rw [productions] at through
  cases m with
  | met u skipped x =>
    obtain ⟨accepted, plain⟩ := valid
    have here : t.Derives [.usage u] [x] 0 := .usage accepted .nil
    by_cases none : skipped = []
    · subst none
      exact through List.mem_cons_self here
    · apply through (List.mem_cons_of_mem _ List.mem_cons_self)
      have both := (h.derives_skip none plain).append here
      rwa [Penalty.add_zero] at both
  | assumed u =>
    obtain ⟨e, known', -, cost, only⟩ := h.assume
    have missing := Derives.rule known' (only ▸ List.mem_cons_self) (.empty .nil) .nil
    rw [cost] at missing
    exact through (List.mem_cons_of_mem _ (List.mem_cons_of_mem _ List.mem_cons_self)) missing

/-- Every way of mending a string of usages is a derivation in the fault-tolerant twin. -/
theorem Mirrors.derives_of_spells (h : Mirrors (· = 0) s t) {ss : List Symbol} {us : List Usage}
    (spells : s.Spells ss us) {xs : List Symbol} (own : ∀ x ∈ xs, x.Own) (same : xs.map t.unwrap = ss)
    {mends : List Mend} (usages : mends.map (·.usage) = us) (valid : ∀ m ∈ mends, m.Valid t) :
    t.Derives xs (mends.flatMap (·.tokens)) (.ofNat (total (·.cost) mends)) := by
  induction spells generalizing xs mends with
  | nil =>
    obtain rfl := List.map_eq_nil_iff.mp same
    obtain rfl := List.map_eq_nil_iff.mp usages
    exact .nil
  | empty _ ih =>
    obtain ⟨x, xs, rfl, here, others⟩ := List.map_eq_cons_iff.mp same
    obtain ⟨-, rest⟩ := List.forall_mem_cons.mp own
    rw [eq_empty_of_unwrap here]
    exact .empty (ih rest others usages valid)
  | usage _ ih =>
    obtain ⟨x, xs, rfl, here, others⟩ := List.map_eq_cons_iff.mp same
    obtain ⟨m, mends, rfl, met, later⟩ := List.map_eq_cons_iff.mp usages
    obtain ⟨mine, rest⟩ := List.forall_mem_cons.mp own
    obtain ⟨good, goods⟩ := List.forall_mem_cons.mp valid
    obtain ⟨w, rfl, wraps⟩ := exists_wrapper_of_unwrap mine here
    rw [List.flatMap_cons, total_cons, Penalty.ofNat_add]
    exact (h.wrapped.derives_mend (met ▸ wraps) good).append (ih rest others later goods)
  | rule known chosen _ _ inner rest =>
    obtain ⟨x, xs, rfl, here, others⟩ := List.map_eq_cons_iff.mp same
    obtain ⟨front, back, rfl, first, later⟩ := List.map_eq_append_iff.mp usages
    obtain ⟨mine, own'⟩ := List.forall_mem_cons.mp own
    obtain ⟨good, goods⟩ := List.forall_mem_append.mp valid
    obtain ⟨r, rfl, plain, rfl⟩ := exists_rule_of_unwrap here
    obtain ⟨d, known', -, free, productions, clean⟩ := h.tolerant_rule plain mine known
    rw [productions] at chosen
    obtain ⟨p, chosen', rfl⟩ := List.mem_map.mp chosen
    have whole := Derives.rule known' chosen' (inner (clean p chosen') rfl first good) (rest own' others later goods)
    rw [List.flatMap_append, total_append, Penalty.ofNat_add]
    simpa [free] using whole
  | bare known childless _ ih =>
    obtain ⟨x, xs, rfl, here, others⟩ := List.map_eq_cons_iff.mp same
    obtain ⟨mine, own'⟩ := List.forall_mem_cons.mp own
    obtain ⟨r, rfl, plain, rfl⟩ := exists_rule_of_unwrap here
    obtain ⟨d, known', -, free, productions, -⟩ := h.tolerant_rule plain mine known
    rw [productions, List.map_eq_nil_iff] at childless
    simpa [free] using Derives.bare known' childless (ih own' others usages valid)
  | group known admitted _ _ inner rest =>
    obtain ⟨x, xs, rfl, here, others⟩ := List.map_eq_cons_iff.mp same
    obtain ⟨front, back, rfl, first, later⟩ := List.map_eq_append_iff.mp usages
    obtain ⟨mine, own'⟩ := List.forall_mem_cons.mp own
    obtain ⟨good, goods⟩ := List.forall_mem_append.mp valid
    obtain rfl := eq_group_of_unwrap here
    obtain ⟨d, known', least, most, production, clean⟩ := h.tolerant_group known
    rw [List.flatMap_append, total_append, Penalty.ofNat_add]
    refine .group known' ((GroupDef.admits_congr least most _).mp admitted) ?_ (rest own' others later goods)
    exact inner (forall_mem_copies clean _) (by rw [map_copies, production]) first good

end Grammar

end Earley
