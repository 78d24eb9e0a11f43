import Earley.Proofs.ScanProspects
import Earley.Proofs.SetFreeGrammars

/-!
# Sets as choices

A set accepts what one of its members accepts by itself, but for one case: the terminal with the code of tokens that
are not classified accepts them in a set and not by itself. Apart from that case, rules may take the place of sets, and
every run has the same outcome (`Parser.sets_choose_members`).
-/

namespace Earley

namespace Grammar

variable {g : Grammar} {s : SetId} {members : List SetMember} {t : Token}

/-- What a member accepts in a set and by itself. -/
theorem member_accepts_iff (g : Grammar) (m : SetMember) (inside : t.isFinish = false) :
    m.accepts t = true ↔ g.accepts m.toUsage t = true ∨ m = .terminal .unknown ∧ t.id = .unknown := by
  cases m with
  | terminal id =>
    by_cases unclassified : t.id = .unknown
    · simp [SetMember.accepts, SetMember.toUsage, accepts, inside, unclassified]
    · simp [SetMember.accepts, SetMember.toUsage, accepts, inside, unclassified, eq_comm (a := id)]
  | _ => simp [SetMember.accepts, SetMember.toUsage, accepts, inside]

theorem accepts_set_iff (known : g.set? s = some members) (inside : t.isFinish = false) :
    g.accepts (.set s) t = true ↔
      (∃ m ∈ members, g.accepts m.toUsage t = true) ∨ .terminal .unknown ∈ members ∧ t.id = .unknown := by
  simp only [accepts, known, setAccepts, List.any_eq_true, member_accepts_iff g _ inside]
  constructor
  · rintro ⟨m, member, byItself | ⟨rfl, unclassified⟩⟩
    · exact .inl ⟨m, member, byItself⟩
    · exact .inr ⟨member, unclassified⟩
  · rintro (⟨m, member, byItself⟩ | ⟨member, unclassified⟩)
    · exact ⟨m, member, .inl byItself⟩
    · exact ⟨_, member, .inr ⟨rfl, unclassified⟩⟩

theorem KeepsSet.accepts_iff {ss : List Symbol} (keeps : g.KeepsSet ss s) (inside : t.isFinish = false) :
    g.accepts (.set s) t = true ↔ (∃ u, .usage u ∈ ss ∧ g.accepts u t = true) ∨
      .usage (.terminal .unknown) ∈ ss ∧ t.id = .unknown := by
  obtain ⟨members, known, -, listed⟩ := keeps
  rw [accepts_set_iff (findSet_eq_ok_iff.mp known) inside]
  constructor
  · rintro (⟨m, member, byItself⟩ | ⟨member, unclassified⟩)
    · exact .inl ⟨m.toUsage, (listed _).mpr ⟨m, member, rfl⟩, byItself⟩
    · exact .inr ⟨(listed _).mpr ⟨_, member, rfl⟩, unclassified⟩
  · rintro (⟨u, member, byItself⟩ | ⟨member, unclassified⟩)
    · obtain ⟨m, inSet, same⟩ := (listed _).mp member
      cases same
      exact .inl ⟨m, inSet, byItself⟩
    · exact .inr ⟨SetMember.exists_toUsage_iff.mp ((listed _).mp member), unclassified⟩

end Grammar

def Grammar.SetsFilled (g : Grammar) : Prop := ∀ {s members}, g.set? s = some members → members ≠ []

theorem Change.setsFilled {g g' : Grammar} (change : Change g g') (h : g.SetsFilled) : g'.SetsFilled := by
  induction change with
  | none => exact h
  | both _ _ first second => exact second (first h)
  | text given missing => exact h
  | userData data => exact h
  | start known => exact h
  | @set g content filled missing =>
    intro s members known
    rw [Grammar.set?_pushSet] at known
    split at known
    · cases known
      exact filled
    · exact h known
  | define r => exact h
  | rule blank missing => exact h
  | production known scope stored =>
    exact fun known => h ((congrArg (·[_]?) stored.sets).symm.trans known)
  | penalty r penalty => exact h
  | group scope stored feasible =>
    exact fun known => h ((congrArg (·[_]?) stored.sets).symm.trans known)
  | analysis => exact h

/-- Whatever an author has done, no set is empty. -/
theorem Reachable.set_ne_nil {g : Grammar} (reachable : Reachable g) : g.SetsFilled := by
  induction reachable with
  | empty tolerant =>
    intro s members known
    simp [Grammar.set?, Grammar.empty, Grammar.repairsOnly] at known
  | step c _ ih => exact (c.change _).setsFilled ih

namespace Grammar

/-- Every set accepts the token just when one of its members does by itself. -/
def SetsChoose (g : Grammar) (t : Token) : Prop :=
  ∀ s members, g.set? s = some members → (g.accepts (.set s) t = true ↔ ∃ m ∈ members, g.accepts m.toUsage t = true)

variable {rename : RuleId → RuleId} {choice : SetId → RuleId} {g h : Grammar} {ss : List Symbol} {ts : List Token}
  {t : Token} {p : Penalty}

theorem setsChoose_of_classified (inside : t.isFinish = false) (classified : g.SetsNameUnknown → t.id ≠ .unknown) :
    g.SetsChoose t := by
  intro s members known
  rw [accepts_set_iff known inside]
  refine or_iff_left ?_
  rintro ⟨member, unclassified⟩
  exact classified ⟨s, members, known, member⟩ unclassified

/-- A member means the same in every grammar. -/
theorem accepts_toUsage (g h : Grammar) (m : SetMember) (t : Token) :
    g.accepts m.toUsage t = h.accepts m.toUsage t := by
  cases m <;> rfl

/-- A usage that no rule takes the place of means the same in every grammar. -/
theorem accepts_of_kept {u : Usage} (kept : (Symbol.usage u).withoutSets rename choice = .usage u) (t : Token) :
    g.accepts u t = h.accepts u t := by
  cases u with
  | set s => cases kept
  | _ => rfl

/-- A symbol that does not become a rule stays as it is. -/
theorem eq_of_withoutSets {x y : Symbol} (same : x.withoutSets rename choice = y) (plain : ∀ r, y ≠ .rule r) :
    x = y := by
  cases x with
  | rule r => exact absurd same.symm (plain _)
  | usage u =>
    cases u with
    | set s => exact absurd same.symm (plain _)
    | _ => exact same
  | _ => exact same

theorem of_withoutSets_rule {x : Symbol} {r' : RuleId} (same : x.withoutSets rename choice = .rule r') :
    (∃ r, x = .rule r ∧ rename r = r') ∨ ∃ s, x = .usage (.set s) ∧ choice s = r' := by
  cases x with
  | rule r => exact .inl ⟨r, rfl, Symbol.rule.inj same⟩
  | usage u =>
    cases u with
    | set s => exact .inr ⟨s, rfl, Symbol.rule.inj same⟩
    | _ => cases same
  | _ => cases same

/-- Where a set accepts a token, the rule in its place has a production of a usage that does. -/
theorem SetsReplaced.exists_chosen (replaced : SetsReplaced rename choice g h) (choose : g.SetsChoose t) {s : SetId}
    (accepted : g.accepts (.set s) t = true) :
    ∃ d u, h.rule? (choice s) = some d ∧ [.usage u] ∈ d.productions ∧ h.accepts u t = true := by
  cases known : g.set? s with
  | none => simp [accepts, known] at accepted
  | some members =>
    obtain ⟨m, member, byItself⟩ := (choose s members known).mp accepted
    obtain ⟨d, found, productions⟩ := replaced.set known
    rw [accepts_toUsage g h] at byItself
    exact ⟨d, m.toUsage, found, productions ▸ List.mem_map.mpr ⟨m, member, rfl⟩, byItself⟩

/-- A token that is used is used alike where rules take the place of sets. -/
theorem derives_usage (replaced : SetsReplaced rename choice g h) {u : Usage} (choose : g.SetsChoose t)
    (accepted : g.accepts u t = true) : ∃ cost, h.Derives [(Symbol.usage u).withoutSets rename choice] [t] cost := by
  cases u with
  | set s =>
    obtain ⟨d, u, found, chosen, byItself⟩ := replaced.exists_chosen choose accepted
    exact ⟨_, .rule found chosen (.usage byItself .nil) .nil⟩
  | _ => exact ⟨_, .usage accepted .nil⟩

/-- What symbols derive, they derive with rules in place of sets. -/
theorem Derives.withoutSets (replaced : SetsReplaced rename choice g h) (derives : g.Derives ss ts p)
    (choose : ∀ t ∈ ts, g.SetsChoose t) : ∃ cost, h.Derives (ss.map (Symbol.withoutSets rename choice)) ts cost := by
  induction derives with
  | nil => exact ⟨_, .nil⟩
  | empty _ ih =>
    obtain ⟨_, rest⟩ := ih choose
    exact ⟨_, .empty rest⟩
  | usage accepted _ ih =>
    obtain ⟨here, others⟩ := List.forall_mem_cons.mp choose
    obtain ⟨_, first⟩ := derives_usage replaced here accepted
    obtain ⟨_, rest⟩ := ih others
    exact ⟨_, first.append rest⟩
  | rule known chosen _ _ ihInner ihRest =>
    obtain ⟨here, others⟩ := List.forall_mem_append.mp choose
    obtain ⟨d', found, productions⟩ := replaced.rule known
    obtain ⟨_, inner⟩ := ihInner here
    obtain ⟨_, rest⟩ := ihRest others
    exact ⟨_, .rule found (productions ▸ List.mem_map_of_mem chosen) inner rest⟩
  | bare known childless _ ih =>
    obtain ⟨d', found, productions⟩ := replaced.rule known
    obtain ⟨_, rest⟩ := ih choose
    exact ⟨_, .bare found (by rw [productions, childless, List.map_nil]) rest⟩
  | group known admitted _ _ ihInner ihRest =>
    obtain ⟨here, others⟩ := List.forall_mem_append.mp choose
    obtain ⟨d', found, least, most, production⟩ := replaced.group known
    obtain ⟨_, inner⟩ := ihInner here
    obtain ⟨_, rest⟩ := ihRest others
    rw [map_copies, ← production] at inner
    exact ⟨_, .group found ((GroupDef.admits_congr least most _).mpr admitted) inner rest⟩

/-- What the rule of a set derives is a token that the set accepts. -/
theorem of_derives_choice (replaced : SetsReplaced rename choice g h) {s : SetId} {members : List SetMember}
    (known : g.set? s = some members) (filled : members ≠ []) (derives : h.Derives [.rule (choice s)] ts p)
    (choose : ∀ t ∈ ts, g.SetsChoose t) : ∃ t, ts = [t] ∧ g.accepts (.set s) t = true := by
  obtain ⟨d, found, productions⟩ := replaced.set known
  cases derives with
  | @rule _ _ _ us _ _ _ _ known' chosen inner rest =>
    cases found.symm.trans known'
    cases rest
    rw [productions] at chosen
    obtain ⟨m, member, rfl⟩ := List.mem_map.mp chosen
    cases inner with
    | @usage _ t _ _ _ accepted nothing =>
      cases nothing
      rw [accepts_toUsage h g] at accepted
      exact ⟨t, rfl, (choose t (by simp) _ _ known).mpr ⟨m, member, accepted⟩⟩
  | bare known' childless =>
    cases found.symm.trans known'
    exact absurd (List.map_eq_nil_iff.mp (productions.symm.trans childless)) filled

theorem canRepeat_congr {d d' : GroupDef} (most : d'.max = d.max) (n : Nat) : d'.canRepeat n = d.canRepeat n := by
  simp only [GroupDef.canRepeat, GroupDef.isUnbounded, most]

/-- Symbols that can take a token can take it with rules in place of sets. -/
theorem GoesOn.withoutSets (replaced : SetsReplaced rename choice g h) (goesOn : g.GoesOn ss ts t)
    (choose : ∀ t ∈ ts, g.SetsChoose t) (next : g.SetsChoose t) :
    h.GoesOn (ss.map (Symbol.withoutSets rename choice)) ts t := by
  obtain ⟨u, awaits, accepted⟩ := goesOn
  induction awaits with
  | @here u ss =>
    cases u with
    | set s =>
      obtain ⟨d, u, found, chosen, byItself⟩ := replaced.exists_chosen next accepted
      exact ⟨u, .rule found chosen .here, byItself⟩
    | _ => exact ⟨_, .here, accepted⟩
  | past before _ ih =>
    obtain ⟨here, others⟩ := List.forall_mem_append.mp choose
    obtain ⟨_, before⟩ := before.withoutSets replaced here
    obtain ⟨u, awaits, accepted⟩ := ih others accepted
    exact ⟨u, .past before awaits, accepted⟩
  | rule known chosen _ ih =>
    obtain ⟨d', found, productions⟩ := replaced.rule known
    obtain ⟨u, awaits, accepted⟩ := ih choose accepted
    exact ⟨u, .rule found (productions ▸ List.mem_map_of_mem chosen) awaits, accepted⟩
  | group known more before _ ih =>
    obtain ⟨here, others⟩ := List.forall_mem_append.mp choose
    obtain ⟨d', found, least, most, production⟩ := replaced.group known
    obtain ⟨_, before⟩ := before.withoutSets replaced here
    obtain ⟨u, awaits, accepted⟩ := ih others accepted
    rw [map_copies, ← production] at before
    rw [← production] at awaits
    exact ⟨u, .group found ((canRepeat_congr most _).trans more) before awaits, accepted⟩

section Back

variable (replaced : SetsReplaced rename choice g h) (reachable : Reachable g)

include replaced reachable

/-- What symbols derive with rules in place of sets, they derive. -/
theorem Derives.of_withoutSets (derives : h.Derives (ss.map (Symbol.withoutSets rename choice)) ts p)
    (scope : ∀ x ∈ ss, x.InScope g.rules.size g.groups.size g.sets.size) (choose : ∀ t ∈ ts, g.SetsChoose t) :
    ∃ cost, g.Derives ss ts cost := by
  generalize same : ss.map (Symbol.withoutSets rename choice) = ss' at derives
  induction derives generalizing ss with
  | nil =>
    cases List.map_eq_nil_iff.mp same
    exact ⟨_, .nil⟩
  | empty _ ih =>
    obtain ⟨x, ss, rfl, first, rfl⟩ := List.map_eq_cons_iff.mp same
    obtain ⟨-, others⟩ := List.forall_mem_cons.mp scope
    obtain ⟨_, rest⟩ := ih others choose rfl
    cases eq_of_withoutSets first (by simp)
    exact ⟨_, .empty rest⟩
  | usage accepted _ ih =>
    obtain ⟨x, ss, rfl, first, rfl⟩ := List.map_eq_cons_iff.mp same
    obtain ⟨-, others⟩ := List.forall_mem_cons.mp scope
    obtain ⟨_, rest⟩ := ih others (List.forall_mem_cons.mp choose).2 rfl
    cases eq_of_withoutSets first (by simp)
    rw [accepts_of_kept first] at accepted
    exact ⟨_, .usage accepted rest⟩
  | @rule r' d' production us c _ ts _ known chosen inner _ ihInner ihRest =>
    obtain ⟨x, ss, rfl, first, rfl⟩ := List.map_eq_cons_iff.mp same
    obtain ⟨here, others⟩ := List.forall_mem_cons.mp scope
    obtain ⟨chooseHere, chooseRest⟩ := List.forall_mem_append.mp choose
    obtain ⟨_, rest⟩ := ihRest others chooseRest rfl
    rcases of_withoutSets_rule first with ⟨r, rfl, rfl⟩ | ⟨s, rfl, rfl⟩
    · obtain ⟨d, before⟩ := rule?_of_lt (r := r) here
      obtain ⟨e, found, productions⟩ := replaced.rule before
      cases found.symm.trans known
      rw [productions] at chosen
      obtain ⟨p, member, rfl⟩ := List.mem_map.mp chosen
      obtain ⟨_, inner⟩ := ihInner (fun x => reachable.inScope.rule before member) chooseHere rfl
      exact ⟨_, .rule before member inner rest⟩
    · have before : g.set? s = some (g.sets[s.index]) := Array.getElem?_eq_getElem here
      have whole := Derives.rule known chosen inner .nil
      rw [List.append_nil] at whole
      obtain ⟨t, rfl, accepted⟩ := of_derives_choice replaced before (reachable.set_ne_nil before) whole chooseHere
      exact ⟨_, .usage accepted rest⟩
  | bare known childless _ ih =>
    obtain ⟨x, ss, rfl, first, rfl⟩ := List.map_eq_cons_iff.mp same
    obtain ⟨here, others⟩ := List.forall_mem_cons.mp scope
    obtain ⟨_, rest⟩ := ih others choose rfl
    rcases of_withoutSets_rule first with ⟨r, rfl, rfl⟩ | ⟨s, rfl, rfl⟩
    · obtain ⟨d, before⟩ := rule?_of_lt (r := r) here
      obtain ⟨e, found, productions⟩ := replaced.rule before
      cases found.symm.trans known
      exact ⟨_, .bare before (List.map_eq_nil_iff.mp (productions.symm.trans childless)) rest⟩
    · have before : g.set? s = some (g.sets[s.index]) := Array.getElem?_eq_getElem here
      obtain ⟨t, none, -⟩ := of_derives_choice replaced before (reachable.set_ne_nil before)
        (.bare known childless .nil) (by simp)
      cases none
  | @group k d' count us c _ ts _ known admitted _ _ ihInner ihRest =>
    obtain ⟨x, ss, rfl, first, rfl⟩ := List.map_eq_cons_iff.mp same
    obtain ⟨here, others⟩ := List.forall_mem_cons.mp scope
    obtain ⟨chooseHere, chooseRest⟩ := List.forall_mem_append.mp choose
    obtain ⟨_, rest⟩ := ihRest others chooseRest rfl
    cases eq_of_withoutSets first (by simp)
    have before : g.group? k = some (g.groups[k.index]) := Array.getElem?_eq_getElem here
    obtain ⟨e, found, least, most, production⟩ := replaced.group before
    cases found.symm.trans known
    have inside := forall_mem_copies (fun x => reachable.closed.group before) count
    obtain ⟨_, inner⟩ := ihInner inside chooseHere (by rw [map_copies, production])
    exact ⟨_, .group before ((GroupDef.admits_congr least most _).mp admitted) inner rest⟩

/-- Symbols that can take a token with rules in place of sets can take it. -/
theorem GoesOn.of_withoutSets (goesOn : h.GoesOn (ss.map (Symbol.withoutSets rename choice)) ts t)
    (scope : ∀ x ∈ ss, x.InScope g.rules.size g.groups.size g.sets.size) (choose : ∀ t ∈ ts, g.SetsChoose t)
    (next : g.SetsChoose t) : g.GoesOn ss ts t := by
  obtain ⟨u, awaits, accepted⟩ := goesOn
  generalize same : ss.map (Symbol.withoutSets rename choice) = ss' at awaits
  induction awaits generalizing ss with
  | here =>
    obtain ⟨x, ss, rfl, first, rfl⟩ := List.map_eq_cons_iff.mp same
    cases eq_of_withoutSets first (by simp)
    rw [accepts_of_kept first] at accepted
    exact ⟨_, .here, accepted⟩
  | past before _ ih =>
    obtain ⟨x, ss, rfl, rfl, rfl⟩ := List.map_eq_cons_iff.mp same
    obtain ⟨here, others⟩ := List.forall_mem_cons.mp scope
    obtain ⟨chooseHere, chooseRest⟩ := List.forall_mem_append.mp choose
    have one : h.Derives ([x].map (Symbol.withoutSets rename choice)) _ _ := before
    obtain ⟨_, before⟩ := one.of_withoutSets replaced reachable (by simpa using here) chooseHere
    obtain ⟨u, awaits, accepted⟩ := ih others chooseRest accepted rfl
    exact ⟨u, .past before awaits, accepted⟩
  | @rule r' d' production _ ts u known chosen inner ih =>
    obtain ⟨x, ss, rfl, first, rfl⟩ := List.map_eq_cons_iff.mp same
    obtain ⟨here, others⟩ := List.forall_mem_cons.mp scope
    rcases of_withoutSets_rule first with ⟨r, rfl, rfl⟩ | ⟨s, rfl, rfl⟩
    · obtain ⟨d, before⟩ := rule?_of_lt (r := r) here
      obtain ⟨e, found, productions⟩ := replaced.rule before
      cases found.symm.trans known
      rw [productions] at chosen
      obtain ⟨p, member, rfl⟩ := List.mem_map.mp chosen
      obtain ⟨u, awaits, accepted⟩ := ih (fun x => reachable.inScope.rule before member) choose accepted rfl
      exact ⟨u, .rule before member awaits, accepted⟩
    · have before : g.set? s = some (g.sets[s.index]) := Array.getElem?_eq_getElem here
      obtain ⟨e, found, productions⟩ := replaced.set before
      cases found.symm.trans known
      rw [productions] at chosen
      obtain ⟨m, member, rfl⟩ := List.mem_map.mp chosen
      cases inner with
      | here =>
        rw [accepts_toUsage h g] at accepted
        exact ⟨_, .here, (next _ _ before).mpr ⟨m, member, accepted⟩⟩
      | past _ rest => exact rest.not_nil.elim
  | @group k d' count _ ts _ u _ known more copies _ ih =>
    obtain ⟨x, ss, rfl, first, rfl⟩ := List.map_eq_cons_iff.mp same
    obtain ⟨here, others⟩ := List.forall_mem_cons.mp scope
    obtain ⟨chooseHere, chooseRest⟩ := List.forall_mem_append.mp choose
    cases eq_of_withoutSets first (by simp)
    have before : g.group? k = some (g.groups[k.index]) := Array.getElem?_eq_getElem here
    obtain ⟨e, found, least, most, production⟩ := replaced.group before
    cases found.symm.trans known
    have inside {x : Symbol} := reachable.closed.group (s := x) before
    rw [production, ← map_copies] at copies
    obtain ⟨_, copies⟩ := copies.of_withoutSets replaced reachable (forall_mem_copies (fun _ => inside) count) chooseHere
    obtain ⟨u, awaits, accepted⟩ := ih (fun _ => inside) chooseRest accepted production.symm
    exact ⟨u, .group before ((canRepeat_congr most _).symm.trans more) copies awaits, accepted⟩

end Back

end Grammar

namespace Grammar.SetsReplaced

open Chart

variable {rename : RuleId → RuleId} {choice : SetId → RuleId} {g h : Grammar} {start : RuleId} {ts : List Token}

theorem derives_iff (replaced : SetsReplaced rename choice g h) (reachable : Reachable g)
    (known : start.index < g.rules.size) (choose : ∀ t ∈ ts, g.SetsChoose t) :
    (∃ cost, h.Derives [.rule (rename start)] ts cost) ↔ ∃ cost, g.Derives [.rule start] ts cost := by
  constructor
  · rintro ⟨cost, derives⟩
    have image : h.Derives ([.rule start].map (Symbol.withoutSets rename choice)) ts cost := derives
    exact image.of_withoutSets replaced reachable (fun x member => List.mem_singleton.mp member ▸ known) choose
  · rintro ⟨cost, derives⟩
    exact derives.withoutSets replaced choose

theorem goesOnAt_iff (replaced : SetsReplaced rename choice g h) (reachable : Reachable g)
    (known : start.index < g.rules.size) (choose : ∀ t ∈ ts, g.SetsChoose t) (j : Nat) :
    GoesOnAt g start ts j ↔ GoesOnAt h (rename start) ts j := by
  have before (t : Token) (member : t ∈ ts.take j) := choose t (List.mem_of_mem_take member)
  constructor
  · rintro ⟨t, read, goesOn⟩
    exact ⟨t, read, goesOn.withoutSets replaced before (choose t (List.mem_of_getElem? read))⟩
  · rintro ⟨t, read, goesOn⟩
    have image : h.GoesOn ([.rule start].map (Symbol.withoutSets rename choice)) (ts.take j) t := goesOn
    have scope : ∀ x ∈ [Symbol.rule start], x.InScope g.rules.size g.groups.size g.sets.size :=
      fun x member => List.mem_singleton.mp member ▸ known
    exact ⟨t, read, image.of_withoutSets replaced reachable scope before (choose t (List.mem_of_getElem? read))⟩

end Grammar.SetsReplaced

namespace Parser

open Chart Grammar

/-- Whether a run accepts, for any tokens. -/
theorem ofStates_accepted_iff {g : Grammar} {start : RuleId} (reachable : Reachable g)
    (known : start.index < g.rules.size) (tokens : List Token) :
    (Recognition.ofStates g start (build g start tokens).1 (build g start tokens).2).accepted = true ↔
      ∃ cost, g.Derives [.rule start] (tokens.takeWhile (!·.isFinish)) cost := by
  obtain ⟨charted, ends⟩ := build_charted reachable.analyzed start tokens
  rw [Forest.accepted_iff_isTree reachable.analyzed (rule?_of_lt known) charted ends]
  constructor
  · rintro ⟨t, tree⟩
    exact ⟨t.penalty, derives_iff_isTree.mpr ⟨t, tree, rfl⟩⟩
  · rintro ⟨cost, derives⟩
    obtain ⟨t, tree, -⟩ := derives_iff_isTree.mp derives
    exact ⟨t, tree⟩

/-- With rules in place of sets a run has the same outcome, if sets choose for all tokens. -/
theorem outcome_setsReplaced {rename : RuleId → RuleId} {choice : SetId → RuleId} {g h : Grammar} {start : RuleId}
    {tokens : List Token} (replaced : SetsReplaced rename choice g h) (reachable : Reachable g)
    (reachable' : Reachable h) (starts : g.start = some start)
    (choose : ∀ t ∈ tokens.takeWhile (!·.isFinish), g.SetsChoose t) :
    Recognition.ofStates h (rename start) (build h (rename start) tokens).1 (build h (rename start) tokens).2 =
      Recognition.ofStates g start (build g start tokens).1 (build g start tokens).2 := by
  have known := reachable.inScope.start starts
  have known' : (rename start).index < h.rules.size := by
    apply reachable'.inScope.start
    rw [replaced.start, starts]
    rfl
  have failed : (build h (rename start) tokens).2 = (build g start tokens).2 :=
    (grow_stopsAt reachable.analyzed start _).eq (grow_stopsAt reachable'.analyzed (rename start) _) fun j _ =>
      replaced.goesOnAt_iff reachable known choose j
  have accepted := replaced.derives_iff reachable known choose
  rw [← ofStates_accepted_iff reachable known, ← ofStates_accepted_iff reachable' known', ← Bool.eq_iff_iff] at accepted
  have size := (build_charted reachable.analyzed start tokens).2.size
  have size' := (build_charted reachable'.analyzed (rename start) tokens).2.size
  rw [failed, ← size] at size'
  simp only [Recognition.ofStates, Recognition.mk.injEq] at accepted ⊢
  exact ⟨accepted, by rw [size'], size', failed⟩

/-- A set that a step hands out accepts, then and later, what some member accepts by itself, and besides the tokens that
are not classified if it has their code as a member. Every strict grammar has one with rules in place of sets; and where
no set has that code as a member, or no token that is read is unclassified, a run has the same outcome with rules in
place of sets. -/
theorem sets_choose_members {g : Grammar} (reachable : Reachable g) :
    (∀ ss s g₁ g₂ t, (Build.set ss).run g = .ok s g₁ → g₁.Later g₂ → t.isFinish = false →
      (g₂.accepts (.set s) t = true ↔ (∃ u, .usage u ∈ ss ∧ g₂.accepts u t = true) ∨
        .usage (.terminal .unknown) ∈ ss ∧ t.id = .unknown)) ∧
    (g.tolerant = false → ∃ rename choice h, Reachable h ∧ h.tolerant = false ∧ SetsReplaced rename choice g h) ∧
    ∀ rename choice (p q : Parser) start tokens, Reachable q.grammar → SetsReplaced rename choice g q.grammar →
      p.grammar = g → p.states = #[] → q.states = #[] → g.start = some start →
      (g.SetsNameUnknown → ∀ t ∈ tokens.takeWhile (!·.isFinish), t.id ≠ .unknown) →
      ∃ outcome p' q', (run tokens).run p = .ok outcome p' ∧ (run tokens).run q = .ok outcome q' := by
  refine ⟨fun ss s g₁ g₂ t run later inside => ?_, reachable.exists_setsReplaced, ?_⟩
  · exact (reachable.sets.lasting run later).1.accepts_iff inside
  · rintro rename choice p q start tokens reachable' replaced rfl fresh fresh' starts classified
    have choose : ∀ t ∈ tokens.takeWhile (!·.isFinish), p.grammar.SetsChoose t := fun t member =>
      setsChoose_of_classified (by simpa using List.mem_takeWhile_imp member) fun named => classified named t member
    have starts' : q.grammar.start = some (rename start) := by
      rw [replaced.start, starts]
      rfl
    have ran' := run_eq q tokens fresh' starts'
    dsimp only at ran'
    rw [outcome_setsReplaced replaced reachable reachable' starts choose] at ran'
    exact ⟨_, _, _, run_eq p tokens fresh starts, ran'⟩

def setGrammar (members : List Symbol) : Grammar :=
  let calls : List Call := [.rule "start", .set members, .addProduction ⟨2⟩ [.usage (.set ⟨0⟩)], .setStart ⟨2⟩]
  calls.foldl (fun g c => c.after g) (.empty false)

def choiceGrammar (members : List Symbol) : Grammar :=
  let calls : List Call := [.rule "start", .anonymousRule] ++ members.map (fun x => .addProduction ⟨3⟩ [x]) ++
    [.addProduction ⟨2⟩ [.rule ⟨3⟩], .setStart ⟨2⟩]
  calls.foldl (fun g c => c.after g) (.empty false)

/-- Members can be made a set. -/
theorem exists_run_set {ss : List Symbol} {m : SetMember} {members : List SetMember}
    (listed : ss.mapM SetMember.ofSymbol? = some (m :: members)) (g : Grammar) :
    ∃ s g₁, (Build.set ss).run g = .ok s g₁ := by
  rcases Build.run_set ss g with ⟨_, _, -, ⟨s, -, run⟩ | ⟨-, run⟩⟩ | ⟨unlisted | unlisted, -⟩
  · exact ⟨s, _, run⟩
  · exact ⟨_, _, run⟩
  · cases listed.symm.trans unlisted
  · cases listed.symm.trans unlisted

theorem setsReplaced_of_tables {rename : RuleId → RuleId} {choice : SetId → RuleId} {g h : Grammar}
    (rules : ∀ i < g.rules.size, (rename ⟨i⟩).index < h.rules.size ∧
      h.productions (rename ⟨i⟩) = (g.productions ⟨i⟩).map (·.map (Symbol.withoutSets rename choice)))
    (sets : ∀ i < g.sets.size, (choice ⟨i⟩).index < h.rules.size ∧
      h.productions (choice ⟨i⟩) = (g.set? ⟨i⟩).toList.flatten.map fun m => [.usage m.toUsage])
    (groups : g.groups = #[]) (start : h.start = g.start.map rename) : SetsReplaced rename choice g h where
  rule {r d} known := by
    obtain ⟨inside, same⟩ := rules r.index (lt_size_of_rule? known)
    obtain ⟨d', found⟩ := rule?_of_lt inside
    exact ⟨d', found, by simpa [productions, known, found] using same⟩
  set {s members} known := by
    obtain ⟨inside, same⟩ := sets s.index (Array.getElem?_eq_some_iff.mp known).1
    obtain ⟨d', found⟩ := rule?_of_lt inside
    exact ⟨d', found, by simpa [productions, known, found] using same⟩
  group known := by simp [group?, groups] at known
  start := start

/-- A set of two letters accepts the second, and so does a rule in its place. -/
theorem sets_choose_members_letters :
    let letters : List Symbol := [.usage (.terminal (.ofChar 'a')), .usage (.terminal (.ofChar 'b'))]
    (∃ s g₁, (Build.set letters.reverse).run (setGrammar letters) = .ok s g₁ ∧
      g₁.accepts (.set s) (.ofChar 'b') = true ∧ g₁.accepts (.set s) (.ofChar 'c') = false) ∧
    ∃ outcome p q, (run [.ofChar 'b']).run (.new (setGrammar letters) {}) = .ok outcome p ∧
      (run [.ofChar 'b']).run (.new (choiceGrammar letters) {}) = .ok outcome q ∧ outcome.accepted = true := by
  intro letters
  obtain ⟨accepts, -, runs⟩ := sets_choose_members (g := setGrammar letters) (reachable_foldl (.empty false) _)
  have replaced : SetsReplaced id (fun _ => ⟨3⟩) (setGrammar letters) (choiceGrammar letters) := by
    apply setsReplaced_of_tables <;> decide +kernel
  have starts : (setGrammar letters).start = some ⟨2⟩ := by decide +kernel
  have plain : ∀ t ∈ [Token.ofChar 'b'].takeWhile (!·.isFinish), t.id ≠ .unknown := by decide
  obtain ⟨outcome, p, q, ran, ran'⟩ := runs id (fun _ => ⟨3⟩) (.new (setGrammar letters) {})
    (.new (choiceGrammar letters) {}) ⟨2⟩ [.ofChar 'b'] (reachable_foldl (.empty false) _) replaced rfl rfl rfl starts
    fun _ => plain
  have listed : letters.reverse.mapM SetMember.ofSymbol? = some [_, _] := rfl
  obtain ⟨s, g₁, made⟩ := exists_run_set listed (setGrammar letters)
  have told (t : Token) := accepts letters.reverse s g₁ g₁ t made .now
  refine ⟨⟨s, g₁, made, (told (.ofChar 'b') (by decide)).mpr (.inl ⟨_, List.mem_cons_self, rfl⟩), ?_⟩,
    outcome, p, q, ran, ran', ?_⟩
  · rw [Bool.eq_false_iff, Ne, told (.ofChar 'c') (by decide)]
    simp [letters, Grammar.accepts, Token.ofChar, TerminalId.ofChar, TerminalId.unknown]
  · obtain ⟨same, -⟩ := EStateM.Result.ok.inj (ran.symm.trans (run_eq (.new (setGrammar letters) {}) _ rfl starts))
    rw [same]
    decide +kernel

/-- A set with the code of unclassified tokens accepts such a token. By itself the member does not, nor does a rule in
place of the set. -/
theorem setGrammar_accepts_unknown :
    let members : List Symbol := [.usage (.terminal .unknown)]
    Reachable (setGrammar members) ∧ Reachable (choiceGrammar members) ∧ (setGrammar members).tolerant = false ∧
    (choiceGrammar members).tolerant = false ∧
    SetsReplaced id (fun _ => ⟨3⟩) (setGrammar members) (choiceGrammar members) ∧
    (∃ s g, (Build.set members).run (.empty false) = .ok s g ∧ g.accepts (.set s) (.unknown none) = true ∧
      ∀ u, .usage u ∈ members → g.accepts u (.unknown none) = false) ∧
    ∃ outcome outcome' p q, (run [.unknown none]).run (.new (setGrammar members) {}) = .ok outcome p ∧
      (run [.unknown none]).run (.new (choiceGrammar members) {}) = .ok outcome' q ∧ outcome.accepted = true ∧
      outcome.failedAt = none ∧ outcome'.accepted = false ∧ outcome'.failedAt = some 0 := by
  intro members
  have starts : (setGrammar members).start = some ⟨2⟩ := by decide +kernel
  have starts' : (choiceGrammar members).start = some ⟨2⟩ := by decide +kernel
  have listed : members.mapM SetMember.ofSymbol? = some [_] := rfl
  obtain ⟨s, g, made⟩ := exists_run_set listed (.empty false)
  have keeps := ((Reachable.empty false).sets.lasting made .now).1
  refine ⟨reachable_foldl (.empty false) _, reachable_foldl (.empty false) _, by decide +kernel, by decide +kernel,
    by apply setsReplaced_of_tables <;> decide +kernel,
    ⟨s, g, made, (keeps.accepts_iff (by decide)).mpr (.inr ⟨List.mem_singleton_self _, rfl⟩), ?_⟩, _, _, _, _,
    run_eq (.new (setGrammar members) {}) _ rfl starts, run_eq (.new (choiceGrammar members) {}) _ rfl starts', ?_⟩
  · simp [members, Grammar.accepts, Token.unknown]
  · decide +kernel

end Parser

end Earley
