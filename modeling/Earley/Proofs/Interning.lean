import Earley.Proofs.Twins

/-!
# What identifiers go on to mean

Further steps keep the entries of the tables (`Grammar.Continues`), and the indexes go on to agree with the tables
(`Reachable.indexed`). So, whatever steps follow, an identifier leads to what it was handed out for, and that leads to
the identifier (`Grammar.identifiers_last`).
-/

namespace Earley

open Grammar

structure RuleDef.Continued (d d' : RuleDef) : Prop where
  name : d'.name = d.name
  internal : d'.internal = d.internal
  mark : d'.tolerantFor = d.tolerantFor
  /-- Productions are added at the end. -/
  productions : d.productions <+: d'.productions

theorem RuleDef.Continued.refl (d : RuleDef) : d.Continued d := ⟨rfl, rfl, rfl, List.prefix_rfl⟩

theorem RuleDef.Continued.trans {d d' d'' : RuleDef} (h : d.Continued d') (k : d'.Continued d'') : d.Continued d'' :=
  ⟨k.name.trans h.name, k.internal.trans h.internal, k.mark.trans h.mark, h.productions.trans k.productions⟩

namespace Grammar

variable {g g' g'' : Grammar}

structure Continues (g g' : Grammar) : Prop where
  rule : ∀ {r d}, g.rule? r = some d → ∃ d', g'.rule? r = some d' ∧ d.Continued d'
  group : ∀ {k d}, g.group? k = some d → ∃ d', g'.group? k = some d' ∧ d'.production = d.production
  set : ∀ {s members}, g.set? s = some members → g'.set? s = some members
  text : ∀ {t text}, g.terminalText? t = some text → g'.terminalText? t = some text
  tolerant : g'.tolerant = g.tolerant

theorem continues_of_eq (tables : g'.toTables = g.toTables) (sets : g'.sets = g.sets) (texts : g'.texts = g.texts)
    (tolerant : g'.tolerant = g.tolerant) : Continues g g' where
  rule known := ⟨_, by rwa [rule?, tables], .refl _⟩
  group known := ⟨_, by rwa [group?, tables], rfl⟩
  set known := by rwa [set?, sets]
  text known := by rwa [terminalText?, registeredText?, texts]
  tolerant := tolerant

theorem Continues.refl (g : Grammar) : Continues g g := continues_of_eq rfl rfl rfl rfl

theorem Continues.trans (h : Continues g g') (k : Continues g' g'') : Continues g g'' where
  rule known := by
    obtain ⟨d', known', first⟩ := h.rule known
    obtain ⟨d'', known'', second⟩ := k.rule known'
    exact ⟨d'', known'', first.trans second⟩
  group known := by
    obtain ⟨d', known', first⟩ := h.group known
    obtain ⟨d'', known'', second⟩ := k.group known'
    exact ⟨d'', known'', second.trans first⟩
  set known := k.set (h.set known)
  text known := k.text (h.text known)
  tolerant := k.tolerant.trans h.tolerant

theorem continues_push (g : Grammar) (d : RuleDef) : Continues g (g.push d) where
  rule known := ⟨_, rule?_push_of_known known, .refl _⟩
  group known := ⟨_, known, rfl⟩
  set known := known
  text known := known
  tolerant := rfl

theorem continues_mapRule (g : Grammar) (r : RuleId) {f : RuleDef → RuleDef}
    (kept : ∀ d : RuleDef, d.Continued (f d)) : Continues g (g.mapRule r f) where
  rule {r' d} known := by
    rw [rule?_mapRule, known]
    split
    · exact ⟨f d, rfl, kept d⟩
    · exact ⟨d, rfl, .refl d⟩
  group known := ⟨_, known, rfl⟩
  set known := known
  text known := known
  tolerant := rfl

theorem continues_reanalyze (g : Grammar) : Continues g g.reanalyze where
  rule {r d} known := by
    obtain ⟨cost, found⟩ := rule?_reanalyze g r
    exact ⟨_, found.trans (congrArg _ known), rfl, rfl, rfl, List.prefix_rfl⟩
  group known := by
    obtain ⟨d', known', same⟩ := (alike_reanalyze g).group known
    exact ⟨d', known', same.production⟩
  set known := known
  text known := known
  tolerant := rfl

theorem continues_pushText (g : Grammar) (text : String) : Continues g (g.pushText text) where
  rule known := ⟨_, known, .refl _⟩
  group known := ⟨_, known, rfl⟩
  set known := known
  text known := by
    refine terminalText?_eq_some_iff.mpr ((terminalText?_eq_some_iff.mp known).imp_right ?_)
    rintro ⟨i, rfl, here⟩
    exact ⟨i, rfl, getElem?_push_of_known here⟩
  tolerant := rfl

theorem continues_pushSet (g : Grammar) (content : List SetMember) : Continues g (g.pushSet content) where
  rule known := ⟨_, known, .refl _⟩
  group known := ⟨_, known, rfl⟩
  set known := getElem?_push_of_known known
  text known := known
  tolerant := rfl

theorem continues_pushGroup (g : Grammar) (d : GroupDef) :
    Continues g { g with groups := g.groups.push d } where
  rule known := ⟨_, known, .refl _⟩
  group known := ⟨_, getElem?_push_of_known known, rfl⟩
  set known := known
  text known := known
  tolerant := rfl

theorem continues_stored {ss : List Symbol} {p : Production} (stored : Build.Stored ss g p g') : Continues g g' := by
  induction stored with
  | nil => exact .refl _
  | plain _ _ ih => exact ih
  | found _ _ _ ih => exact ih
  | made _ _ _ ih => exact (continues_push ..).trans ih

end Grammar

theorem Change.continues {g g' : Grammar} (change : Change g g') : g.Continues g' := by
  induction change with
  | none => exact .refl _
  | both _ _ first second => exact first.trans second
  | text given missing => exact continues_pushText ..
  | userData data => exact continues_of_eq rfl rfl rfl rfl
  | start known => exact continues_of_eq rfl rfl rfl rfl
  | set filled missing => exact continues_pushSet ..
  | define r => exact continues_mapRule _ r fun d => ⟨rfl, rfl, rfl, List.prefix_rfl⟩
  | rule blank missing => exact continues_push ..
  | production known scope stored =>
    refine (continues_stored stored).trans (.trans ?_ (continues_reanalyze _))
    exact continues_mapRule _ _ fun d => ⟨rfl, rfl, rfl, List.prefix_append ..⟩
  | penalty r penalty =>
    refine .trans ?_ (continues_reanalyze _)
    exact continues_mapRule _ r fun d => ⟨rfl, rfl, rfl, List.prefix_rfl⟩
  | group scope stored feasible =>
    exact ((continues_stored stored).trans (continues_pushGroup ..)).trans (continues_reanalyze _)
  | analysis => exact continues_reanalyze _

namespace Grammar

variable {g g' : Grammar}

theorem Later.continues (h : g.Later g') : g.Continues g' := by
  induction h with
  | now => exact .refl g
  | step _ c ih => exact ih.trans (c.change _).continues

theorem Later.reachable (h : g.Later g') (reachable : Reachable g) : Reachable g' := by
  induction h with
  | now => exact reachable
  | step _ c ih => exact ih.step c

theorem Later.of_run {α : Type} {step : Build α} {a : α} (c : Call)
    (performs : Build.after c.perform g = Build.after step g) (run : step.run g = .ok a g') : g.Later g' := by
  have same : c.after g = g' := by rw [Call.after_eq, performs, Build.after_ok run]
  exact same ▸ Later.now.step c

theorem Continues.wrappedUsage? (h : g.Continues g') {r : RuleId} (held : r.index < g.rules.size) :
    g'.wrappedUsage? r = g.wrappedUsage? r := by
  obtain ⟨d, known⟩ := rule?_of_lt held
  obtain ⟨d', known', continued⟩ := h.rule known
  rw [Grammar.wrappedUsage?, Grammar.wrappedUsage?, known, known']
  exact continued.mark

end Grammar

/-- Steps hand out identifiers that last if each finds an entry with its key or makes a new one, entries are kept, and
no two have the same key. -/
theorem Interns.of_entries {κ ι : Type} {step : κ → ι → Grammar → Grammar → Prop} {alike : κ → κ → Prop}
    {keeps : Grammar → κ → ι → Prop} {holds : Grammar → ι → Prop} (entry : Grammar → κ → ι → Prop)
    (moves : ∀ {a x g g'}, step a x g g' → g.Later g')
    (finds : ∀ {a x g g'}, Reachable g → step a x g g' → entry g a x ∨ ¬ holds g x ∧ entry g' a x)
    (kept : ∀ {a x g g'}, g.Continues g' → entry g a x → entry g' a x)
    (single : ∀ {a b x y g}, Reachable g → entry g a x → entry g b y → (y = x ↔ alike b a))
    (means : ∀ {a x g}, Reachable g → entry g a x → keeps g a x ∧ holds g x)
    {g : Grammar} (reachable : Reachable g) : Interns step alike keeps holds g := by
  have made {a x g g'} (reachable : Reachable g) (taken : step a x g g') : entry g' a x := by
    rcases finds reachable taken with old | ⟨-, new⟩
    · exact kept (moves taken).continues old
    · exact new
  refine ⟨fun taken later => ?_, fun taken later again => ?_, fun taken => ?_⟩
  · have reached := later.reachable ((moves taken).reachable reachable)
    exact means reached (kept later.continues (made reachable taken))
  · have reached := later.reachable ((moves taken).reachable reachable)
    have first := kept (later.continues.trans (moves again).continues) (made reachable taken)
    exact single ((moves again).reachable reached) first (made reached again)
  · rcases finds reachable taken with old | ⟨absent, -⟩
    · exact .inl (means reachable old).1
    · exact .inr absent

section Names

variable {g g' : Grammar} {name name' : String} {r r' : RuleId}

def Grammar.HasName (g : Grammar) (name : String) (r : RuleId) : Prop :=
  ∃ d, g.rule? r = some d ∧ d.internal = false ∧ d.name = some name

theorem Reachable.hasName_iff (reachable : Reachable g) : g.HasName name r ↔ g.ruleNamed? name = some r :=
  reachable.indexed.name.symm

namespace Grammar.HasName

theorem push (g : Grammar) (name : String) :
    HasName (g.push { name := some name }) name ⟨g.rules.size⟩ :=
  ⟨{ name := some name }, by simp [rule?], rfl, rfl⟩

theorem continues (h : g.HasName name r) (later : g.Continues g') : g'.HasName name r := by
  obtain ⟨d, known, own, named⟩ := h
  obtain ⟨d', known', continued⟩ := later.rule known
  exact ⟨d', known', continued.internal.trans own, continued.name.trans named⟩

theorem eq_iff (reachable : Reachable g) (h : g.HasName name r) (k : g.HasName name' r') : r' = r ↔ name' = name := by
  constructor
  · rintro rfl
    obtain ⟨d, known, -, named⟩ := h
    obtain ⟨d', known', -, named'⟩ := k
    cases known.symm.trans known'
    exact Option.some.inj (named'.symm.trans named)
  · rintro rfl
    exact Option.some.inj ((reachable.hasName_iff.mp k).symm.trans (reachable.hasName_iff.mp h))

theorem keepsName (reachable : Reachable g) (h : g.HasName name r) :
    g.KeepsName name r ∧ (g.rule? r).isSome = true := by
  refine ⟨⟨reachable.hasName_iff.mp h, ?_⟩, ?_⟩
  · obtain ⟨d, known, -, named⟩ := h
    rw [ruleName?, known]
    exact named
  · obtain ⟨d, known, -⟩ := h
    rw [known]
    rfl

end Grammar.HasName

namespace Build.Names

theorem later (h : Names name r g g') : g.Later g' :=
  h.elim (.of_run (.rule name) (after_discard ..)) (.of_run (.defineRule name) (after_discard ..))

/-- The rule has the name already, or it is new. -/
theorem finds (reachable : Reachable g) (h : Names name r g g') :
    g.HasName name r ∨ ¬ (g.rule? r).isSome = true ∧ g'.HasName name r := by
  have absent : ¬ (g.rule? ⟨g.rules.size⟩).isSome = true := by simp [rule?]
  rcases h with run | run
  · rcases run_rule name g with ⟨r, known, run'⟩ | ⟨-, run'⟩
    · cases run'.symm.trans run
      exact .inl (reachable.hasName_iff.mpr known)
    · cases run'.symm.trans run
      exact .inr ⟨absent, .push g name⟩
  · rcases run_defineRule name g with ⟨r, -, -, run'⟩ | ⟨r, known, run'⟩ | ⟨-, run'⟩
    · cases run'.symm.trans run
    · cases run'.symm.trans run
      exact .inl (reachable.hasName_iff.mpr known)
    · cases run'.symm.trans run
      refine .inr ⟨absent, (HasName.push g name).continues (continues_mapRule _ _ fun d => ?_)⟩
      exact ⟨rfl, rfl, rfl, List.prefix_rfl⟩

end Build.Names

theorem Reachable.names (reachable : Reachable g) :
    Interns Build.Names (· = ·) KeepsName (fun g r => (g.rule? r).isSome = true) g :=
  Interns.of_entries HasName Build.Names.later Build.Names.finds (fun later h => h.continues later) HasName.eq_iff
    HasName.keepsName reachable

end Names

section Texts

variable {g g' : Grammar} {text text' : String} {t t' : TerminalId}

theorem Grammar.isReserved_of_terminalText? (known : g.terminalText? t = some text)
    (room : TerminalId.firstText + g.texts.size ≤ TerminalId.unknown.code) : t.isReserved = false := by
  have below : t.code < TerminalId.unknown.code := by
    rcases terminalText?_eq_some_iff.mp known with ⟨c, rfl, -⟩ | ⟨i, rfl, here⟩
    · exact Nat.lt_of_lt_of_le (TerminalId.ofChar_lt c) (Nat.le_trans (Nat.le_add_right ..) room)
    · have inside := (Array.getElem?_eq_some_iff.mp here).1
      exact Nat.lt_of_lt_of_le (Nat.add_lt_add_left inside _) room
  exact decide_eq_false (Nat.not_le.mpr below)

theorem Reachable.keepsText (reachable : Reachable g) (known : g.terminalText? t = some text) :
    g.KeepsText text t ∧ (g.terminalText? t).isSome = true :=
  ⟨⟨reachable.indexed.text.mpr known, known, isReserved_of_terminalText? known⟩, by rw [known]; rfl⟩

/-- The terminal has the text already, or it is new. -/
theorem Build.finds_terminal (reachable : Reachable g) (run : (terminal text).run g = .ok t g') :
    g.terminalText? t = some text ∨ ¬ (g.terminalText? t).isSome = true ∧ g'.terminalText? t = some text := by
  rcases run_terminal text g with ⟨-, run'⟩ | ⟨t, known, run'⟩ | ⟨-, -, run'⟩
  · cases run'.symm.trans run
  · cases run'.symm.trans run
    exact .inl (reachable.indexed.text.mp known)
  · cases run'.symm.trans run
    exact .inr ⟨by simp [terminalText?_ofText, registeredText?_size], by simp [terminalText?_pushText]⟩

theorem Reachable.texts (reachable : Reachable g) :
    Interns (fun text t g g' => (Build.terminal text).run g = .ok t g') (· = ·) KeepsText
      (fun g t => (g.terminalText? t).isSome = true) g := by
  refine Interns.of_entries (fun g text t => g.terminalText? t = some text)
    (Later.of_run (.terminal _) (Build.after_discard ..)) Build.finds_terminal (fun later known => later.text known)
    ?_ keepsText reachable
  intro text text' t t' g reachable known known'
  constructor
  · rintro rfl
    exact Option.some.inj (known'.symm.trans known)
  · rintro rfl
    exact Option.some.inj ((reachable.indexed.text.mpr known').symm.trans (reachable.indexed.text.mpr known))

end Texts

section Sets

variable {g g' : Grammar} {ss ss' : List Symbol} {s s' : SetId} {members : List SetMember}

theorem Grammar.findSet_eq_ok_iff : g.findSet s = .ok members ↔ g.set? s = some members := by
  unfold findSet
  cases g.set? s <;> simp

theorem SetMember.eq_of_ofSymbol? {x : Symbol} {m : SetMember} (h : ofSymbol? x = some m) : x = .usage m.toUsage := by
  unfold ofSymbol? at h
  split at h <;> cases h <;> rfl

theorem SetMember.eq_map_of_mapM (listed : ss.mapM ofSymbol? = some members) :
    ss = members.map fun m => .usage m.toUsage := by
  induction ss generalizing members with
  | nil =>
    cases listed
    rfl
  | cons x ss ih =>
    rw [List.mapM_cons] at listed
    obtain ⟨m, first, listed⟩ := Option.bind_eq_some_iff.mp listed
    obtain ⟨others, rest, listed⟩ := Option.bind_eq_some_iff.mp listed
    cases listed
    rw [List.map_cons, ← eq_of_ofSymbol? first, ← ih rest]

theorem SetMember.toUsage_injective {m n : SetMember} (same : m.toUsage = n.toUsage) : m = n :=
  rank_injective (congrArg Usage.rank same)

theorem SetMember.exists_toUsage_iff {m : SetMember} :
    (∃ n ∈ members, Symbol.usage m.toUsage = .usage n.toUsage) ↔ m ∈ members := by
  constructor
  · rintro ⟨n, member, same⟩
    rwa [toUsage_injective (Symbol.usage.inj same)]
  · exact fun member => ⟨m, member, rfl⟩

/-- A set that holds the sorted members keeps them. -/
theorem Grammar.keepsSet_of_sorted (listed : ss.mapM SetMember.ofSymbol? = some members)
    (known : g.set? s = some (sortByRank (·.toUsage.rank) members)) : g.KeepsSet ss s := by
  refine ⟨_, findSet_eq_ok_iff.mpr known, ascending_sortByRank _ members, fun x => ?_⟩
  rw [SetMember.eq_map_of_mapM listed, List.mem_map]
  simp only [mem_sortByRank SetMember.rank_injective, eq_comm]

/-- The set holds the members already, or it is new. -/
theorem Build.finds_set (reachable : Reachable g) (run : (set ss).run g = .ok s g') :
    g.KeepsSet ss s ∨ ¬ (g.set? s).isSome = true ∧ g'.KeepsSet ss s := by
  rcases run_set ss g with ⟨m, members, listed, ⟨s, known, run'⟩ | ⟨-, run'⟩⟩ | ⟨-, e, run'⟩
  · cases run'.symm.trans run
    exact .inl (keepsSet_of_sorted listed (reachable.indexed.set.mp known))
  · cases run'.symm.trans run
    exact .inr ⟨by simp [set?], keepsSet_of_sorted listed (by simp [set?_pushSet])⟩
  · cases run'.symm.trans run

theorem Grammar.KeepsSet.continues (h : g.KeepsSet ss s) (later : g.Continues g') : g'.KeepsSet ss s := by
  obtain ⟨members, known, rest⟩ := h
  exact ⟨members, findSet_eq_ok_iff.mpr (later.set (findSet_eq_ok_iff.mp known)), rest⟩

theorem Grammar.KeepsSet.eq_iff (reachable : Reachable g) (h : g.KeepsSet ss s) (k : g.KeepsSet ss' s') :
    s' = s ↔ ∀ x, x ∈ ss' ↔ x ∈ ss := by
  obtain ⟨members, known, ascending, mem_iff⟩ := h
  obtain ⟨members', known', ascending', mem_iff'⟩ := k
  constructor
  · rintro rfl x
    cases known.symm.trans known'
    rw [mem_iff, mem_iff']
  · intro same
    -- Members in order are determined by what they are, and a set by its members.
    have equal : members' = members := by
      refine Ascending.eq_of_mem_iff ascending' ascending fun m => ?_
      rw [← SetMember.exists_toUsage_iff, ← SetMember.exists_toUsage_iff, ← mem_iff, ← mem_iff']
      exact same (.usage m.toUsage)
    subst equal
    have found := reachable.indexed.set.mpr (findSet_eq_ok_iff.mp known)
    have found' := reachable.indexed.set.mpr (findSet_eq_ok_iff.mp known')
    exact Option.some.inj (found'.symm.trans found)

theorem Reachable.sets (reachable : Reachable g) :
    Interns (fun ss s g g' => (Build.set ss).run g = .ok s g') (fun ss ss' => ∀ x, x ∈ ss ↔ x ∈ ss') KeepsSet
      (fun g s => (g.set? s).isSome = true) g := by
  refine Interns.of_entries KeepsSet (Later.of_run (.set _) (Build.after_discard ..)) Build.finds_set
    (fun later h => h.continues later) KeepsSet.eq_iff (fun _ h => ⟨h, ?_⟩) reachable
  obtain ⟨members, known, -⟩ := h
  rw [findSet_eq_ok_iff.mp known]
  rfl

end Sets

section Productions

variable {g g' g₁ g₂ : Grammar} {ss : List Symbol} {p : Production} {r : RuleId}

/-- Each symbol is stored in a way that lasts. -/
theorem Build.Stored.symbols (stored : Stored ss g p g') (before : g.Indexed) (later : g'.Continues g₂)
    (indexed : g₂.Indexed) : List.Forall₂ g₂.StoredAs ss p := by
  -- A wrapper that has been found or made goes on to stand for its usage, so a search will find it.
  have wrapped {u : Usage} {w : RuleId} {h : Grammar} (continues : h.Continues g₂) (tolerant : h.tolerant = true)
      (mark : h.wrappedUsage? w = some u) : g₂.StoredAs (.usage u) (.rule w) := by
    obtain ⟨d, known, -⟩ := Option.bind_eq_some_iff.mp mark
    have kept := (continues.wrappedUsage? (lt_size_of_rule? known)).trans mark
    rw [StoredAs, if_pos (continues.tolerant.trans tolerant)]
    exact ⟨w, rfl, indexed.wrapper.mpr kept, kept⟩
  induction stored with
  | nil => exact .nil
  | @plain s _ _ _ _ kept rest ih =>
    refine .cons ?_ (ih before later)
    cases s with
    | usage u =>
      have strict := (continues_stored rest).trans later |>.tolerant.trans (kept u rfl)
      rw [StoredAs, strict]
      rfl
    | _ => rfl
  | found tolerant known rest ih =>
    exact .cons (wrapped ((continues_stored rest).trans later) tolerant (before.wrapper.mp known)) (ih before later)
  | made tolerant missing rest ih =>
    refine .cons (wrapped ((continues_stored rest).trans later) tolerant ?_) (ih (before.pushWrapper missing) later)
    simp [wrappedUsage?, rule?, wrapperDef]

theorem Grammar.StoredAs.written {x x' : Symbol} (h : g.StoredAs x x')
    (plain : ∀ w, x = .rule w → g.wrappedUsage? w = none) : g.written x' = x := by
  cases x with
  | usage u =>
    by_cases tolerant : g.tolerant = true
    · rw [StoredAs, if_pos tolerant] at h
      obtain ⟨w, rfl, -, mark⟩ := h
      simp only [Grammar.written, mark]
    · rw [StoredAs, if_neg tolerant] at h
      cases h
      rfl
  | rule w =>
    cases h
    simp only [Grammar.written, plain w rfl]
  | empty =>
    cases h
    rfl
  | group k =>
    cases h
    rfl

theorem Grammar.map_written (h : List.Forall₂ g.StoredAs ss p)
    (plain : ∀ w, .rule w ∈ ss → g.wrappedUsage? w = none) : p.map g.written = ss := by
  induction h with
  | nil => rfl
  | cons first _ ih =>
    have head := first.written fun w same => plain w (same ▸ List.mem_cons_self ..)
    rw [List.map_cons, head, ih fun w member => plain w (List.mem_cons_of_mem _ member)]

theorem Build.Stored.stores (stored : Stored ss g p g')
    (scope : ∀ s ∈ ss, s.InScope g.rules.size g.groups.size g.sets.size) (later : g'.Continues g₂)
    (indexed : g.Indexed) (indexed' : g₂.Indexed) : g₂.Stores g ss p := by
  have symbols := stored.symbols indexed later indexed'
  have continues := (continues_stored stored).trans later
  refine ⟨symbols, fun plain => map_written symbols fun w member => ?_, fun u w _ found => ?_⟩
  · exact (continues.wrappedUsage? (scope _ member)).trans (plain w member)
  · cases known : g.rule? w with
    | none => exact .inr rfl
    | some d =>
      have mark := indexed'.wrapper.mp found
      rw [continues.wrappedUsage? (lt_size_of_rule? known)] at mark
      exact .inl (indexed.wrapper.mpr mark)

theorem Build.Stored.rule? (stored : Stored ss g p g') {d : RuleDef} (known : g.rule? r = some d) :
    g'.rule? r = some d := by
  induction stored with
  | nil => exact known
  | plain _ _ ih => exact ih known
  | found _ _ _ ih => exact ih known
  | made _ _ _ ih => exact ih (rule?_push_of_known known)

theorem Build.Stored.groups (stored : Stored ss g p g') : g'.groups = g.groups := by
  induction stored with
  | nil => rfl
  | plain _ _ ih => exact ih
  | found _ _ _ ih => exact ih
  | made _ _ _ ih => exact ih

theorem Build.Stored.sets (stored : Stored ss g p g') : g'.sets = g.sets := by
  induction stored with
  | nil => rfl
  | plain _ _ ih => exact ih
  | found _ _ _ ih => exact ih
  | made _ _ _ ih => exact ih

/-- A production stands behind those that the rule had before. -/
theorem Reachable.productions (reachable : Reachable g) (run : (Build.addProduction r ss).run g = .ok () g₁)
    (later : g₁.Later g₂) : ∃ d p, g₂.rule? r = some d ∧ d.productions[(g.productions r).length]? = some p ∧
      g₂.Stores g ss p := by
  have reached := later.reachable ((Later.of_run (.addProduction r ss) rfl run).reachable reachable)
  rcases Build.run_addProduction r ss g with ⟨held, scope, p, g', stored, run'⟩ | ⟨-, e, run'⟩
  case inr => cases run'.symm.trans run
  cases run'.symm.trans run
  obtain ⟨d, known⟩ := rule?_of_lt held
  have added : (g'.mapRule r (RuleDef.withProduction p)).rule? r = some (d.withProduction p) := by
    rw [rule?_mapRule, if_pos rfl, stored.rule? known]
    rfl
  have appended : g'.Continues (g'.mapRule r (RuleDef.withProduction p)) :=
    continues_mapRule _ _ fun d => ⟨rfl, rfl, rfl, List.prefix_append ..⟩
  have continues := (continues_reanalyze _).trans later.continues
  have stores := stored.stores scope (appended.trans continues) reachable.indexed reached.indexed
  obtain ⟨d', known', continued⟩ := continues.rule added
  refine ⟨d', p, known', ?_, stores⟩
  obtain ⟨more, same⟩ := continued.productions
  rw [← same, Grammar.productions, known]
  simp [RuleDef.withProduction]

theorem Grammar.group?_push_size (g : Grammar) (d : GroupDef) :
    group? { g with groups := g.groups.push d } ⟨g.groups.size⟩ = some d := by
  simp [group?]

theorem Reachable.groups {min max : UInt32} {k : GroupId} (reachable : Reachable g)
    (run : (Build.group ss min max).run g = .ok k g₁) (later : g₁.Later g₂) :
    g.group? k = none ∧ ∃ d, g₂.group? k = some d ∧ g₂.Stores g ss d.production := by
  have made := Later.of_run (.group ss min max) (Build.after_discard ..) run
  have reached := later.reachable (made.reachable reachable)
  rcases Build.run_group ss min max g with ⟨-, scope, p, g', stored, run'⟩ | ⟨-, e, run'⟩
  case inr => cases run'.symm.trans run
  cases run'.symm.trans run
  have continues := (continues_reanalyze _).trans later.continues
  have stores := stored.stores scope ((continues_pushGroup ..).trans continues) reachable.indexed reached.indexed
  obtain ⟨d, known, same⟩ := continues.group (group?_push_size g' _)
  exact ⟨by simp [group?, stored.groups], d, known, same ▸ stores⟩

theorem Reachable.anonymous (reachable : Reachable g) (run : Build.anonymousRule.run g = .ok r g₁)
    (later : g₁.Later g₂) : g.rule? r = none ∧ (g₂.rule? r).isSome = true ∧
      (∀ name, g₂.ruleNamed? name ≠ some r) ∧ ∀ u, g₂.wrapper? u ≠ some r := by
  have first := (Later.of_run .anonymousRule (Build.after_discard ..) run).reachable reachable
  have indexed := (later.reachable first).indexed
  cases run
  have made : (g.push { defined := true }).rule? ⟨g.rules.size⟩ = some { defined := true } := by simp [rule?]
  obtain ⟨d, known, continued⟩ := later.continues.rule made
  refine ⟨by simp [rule?], by rw [known]; rfl, fun name found => ?_, fun u found => ?_⟩
  · obtain ⟨d', known', -, named⟩ := indexed.name.mp found
    cases known.symm.trans known'
    cases continued.name.symm.trans named
  · have mark := indexed.wrapper.mp found
    rw [wrappedUsage?, known] at mark
    cases continued.mark.symm.trans mark

end Productions

namespace Grammar

/-- Whatever an author has done and whatever follows, identifiers go on to mean what they were handed out for. -/
theorem identifiers_last (g : Grammar) (reachable : Reachable g) : g.Interning where
  indexed := reachable.indexed
  names := reachable.names
  texts := reachable.texts
  sets := reachable.sets
  productions := reachable.productions
  groups := reachable.groups
  anonymous := reachable.anonymous

/-- The letter has a wrapper already and any other token gets one; whatever follows, both are kept. -/
theorem letterGrammar_identifiers_last :
    Reachable (letterGrammar true) ∧ ∃ g₁, (Build.addProduction ⟨2⟩
        [.usage .any, .usage (.terminal (.ofChar 'a')), .usage .any]).run (letterGrammar true) = .ok () g₁ ∧
      ∀ g₂, g₁.Later g₂ → ∃ d p, g₂.rule? ⟨2⟩ = some d ∧ d.productions[1]? = some p ∧
        g₂.Stores (letterGrammar true) [.usage .any, .usage (.terminal (.ofChar 'a')), .usage .any] p := by
  have reachable : Reachable (letterGrammar true) := reachable_foldl (.empty true) _
  have held : 2 < (letterGrammar true).rules.size := by decide +kernel
  have one : ((letterGrammar true).productions ⟨2⟩).length = 1 := by decide +kernel
  refine ⟨reachable, ?_⟩
  rcases Build.run_addProduction ⟨2⟩ [.usage .any, .usage (.terminal (.ofChar 'a')), .usage .any] (letterGrammar true)
    with ⟨-, -, p, g', -, run⟩ | ⟨refused, -⟩
  · refine ⟨_, run, fun g₂ later => ?_⟩
    obtain ⟨d, p, known, place, stores⟩ := (identifiers_last _ reachable).productions run later
    exact ⟨d, p, known, one ▸ place, stores⟩
  · exact absurd ⟨held, by simp [Symbol.InScope]⟩ refused

end Grammar

end Earley
