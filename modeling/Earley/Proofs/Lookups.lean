import Earley.Proofs.Construction

/-!
# Looking things up

Each index of a grammar stands beside a table. A step adds a name, a text, a set or a wrapper to both at once, and only
after its key has led nowhere, so an index and its table go on to agree: what is found by a key is the entry that has
it, and every entry is found by its key (`Grammar.Indexed`).
-/

namespace Earley

section Keys

variable {κ ι : Type} [DecidableEq κ] [DecidableEq ι] {find find' : κ → Option ι} {key key' : ι → Option κ}

/-- Keys that lead to what has them go on to do so once there is something new, either without a key or with one that
has led nowhere. -/
theorem found_iff_of_new (h : ∀ {k x}, find k = some x ↔ key x = some k) {k? : Option κ} {new : ι}
    (missing : ∀ k, k? = some k → find k = none) (absent : key new = none)
    (found : ∀ k, find' k = if k? = some k then some new else find k)
    (kept : ∀ x, key' x = if x = new then k? else key x) {k : κ} {x : ι} : find' k = some x ↔ key' x = some k := by
  rw [found, kept]
  by_cases keyed : k? = some k
  · by_cases here : x = new
    · simp [keyed, here]
    · have differ : ¬ key x = some k := fun old => by cases (missing k keyed).symm.trans (h.mpr old)
      simp [keyed, here, Ne.symm here, differ]
  · by_cases here : x = new
    · have old : ¬ find k = some new := fun known => by cases absent.symm.trans (h.mp known)
      simp [keyed, here, old]
    · simpa [keyed, here] using h

theorem getElem?_push_of_known {α : Type} {as : Array α} {i : Nat} {a b : α} (known : as[i]? = some a) :
    (as.push b)[i]? = some a := by
  rw [Array.getElem?_push, if_neg (Nat.ne_of_lt (Array.getElem?_eq_some_iff.mp known).1), known]

end Keys

theorem RuleDef.givenName_eq_some_iff {d : RuleDef} {name : String} :
    d.givenName = some name ↔ d.internal = false ∧ d.name = some name := by
  unfold givenName
  cases d.internal <;> simp

def RuleDef.keys (d : RuleDef) : Option String × Option Usage := (d.givenName, d.tolerantFor)

namespace TerminalId

theorem char?_ofChar (c : Char) : (ofChar c).char? = some c := by
  have valid : c.toNat.isValidChar := c.valid
  simp [char?, ofChar, valid]

theorem eq_ofChar {t : TerminalId} {c : Char} (h : t.char? = some c) : t = ofChar c := by
  unfold char? at h
  split at h
  case isTrue valid =>
    cases h
    obtain ⟨code⟩ := t
    have same : (Char.ofNat code).toNat = code := by
      rw [Char.ofNat, dif_pos valid]
      rfl
    exact congrArg mk same.symm
  case isFalse => cases h

theorem ofChar_lt (c : Char) : (ofChar c).code < firstText := by
  rcases c.valid with low | ⟨-, high⟩
  · exact Nat.lt_trans low (by decide)
  · exact high

theorem char?_ofText (i : Nat) : (ofText i).char? = none := by
  unfold char? ofText firstText
  apply if_neg
  intro valid
  rcases valid with low | ⟨-, high⟩
  · have : 0x110000 + i < 0xd800 := low
    omega
  · have : 0x110000 + i < 0x110000 := high
    omega

end TerminalId

namespace Grammar

variable {g : Grammar}

section Texts

variable {t : TerminalId} {text : String}

theorem terminalText?_ofChar (c : Char) : g.terminalText? (.ofChar c) = some c.toString := by
  simp [terminalText?, TerminalId.char?_ofChar]

theorem registeredText?_eq_some_iff :
    g.registeredText? t = some text ↔ ∃ i, t = .ofText i ∧ g.texts[i]? = some text := by
  unfold registeredText?
  constructor
  · intro h
    split at h
    case isTrue => cases h
    case isFalse large =>
      refine ⟨t.code - TerminalId.firstText, ?_, h⟩
      exact congrArg TerminalId.mk (Nat.add_sub_cancel' (Nat.le_of_not_lt large)).symm
  · rintro ⟨i, rfl, here⟩
    have large : ¬ (TerminalId.ofText i).code < TerminalId.firstText := Nat.not_lt.mpr (Nat.le_add_right _ _)
    have place : (TerminalId.ofText i).code - TerminalId.firstText = i := Nat.add_sub_cancel_left ..
    simp only [if_neg large, place, here]

theorem registeredText?_size (g : Grammar) : g.registeredText? (.ofText g.texts.size) = none := by
  rw [Option.eq_none_iff_forall_ne_some]
  intro text known
  obtain ⟨i, same, here⟩ := registeredText?_eq_some_iff.mp known
  obtain rfl : g.texts.size = i := Nat.add_left_cancel (congrArg TerminalId.code same)
  simp at here

theorem terminalText?_ofText (i : Nat) : g.terminalText? (.ofText i) = g.registeredText? (.ofText i) := by
  rw [terminalText?, TerminalId.char?_ofText]

theorem terminalText?_eq_some_iff : g.terminalText? t = some text ↔
    (∃ c, t = .ofChar c ∧ text = c.toString) ∨ ∃ i, t = .ofText i ∧ g.texts[i]? = some text := by
  constructor
  · intro h
    unfold terminalText? at h
    split at h
    case h_1 c found =>
      cases h
      exact .inl ⟨c, TerminalId.eq_ofChar found, rfl⟩
    case h_2 => exact .inr (registeredText?_eq_some_iff.mp h)
  · rintro (⟨c, rfl, rfl⟩ | ⟨i, rfl, here⟩)
    · exact terminalText?_ofChar c
    · rw [terminalText?_ofText]
      exact registeredText?_eq_some_iff.mpr ⟨i, rfl, here⟩

theorem registeredText?_pushText (g : Grammar) (text : String) (t : TerminalId) :
    (g.pushText text).registeredText? t = if t = .ofText g.texts.size then some text else g.registeredText? t := by
  split
  case isTrue here => exact registeredText?_eq_some_iff.mpr ⟨_, here, by simp [pushText]⟩
  case isFalse differ =>
    refine Option.ext fun other => ?_
    rw [registeredText?_eq_some_iff, registeredText?_eq_some_iff]
    refine exists_congr fun i => and_congr_right ?_
    rintro rfl
    have old : i ≠ g.texts.size := fun last => differ (last ▸ rfl)
    simp [pushText, Array.getElem?_push, old]

theorem terminalText?_pushText (g : Grammar) (text : String) (t : TerminalId) :
    (g.pushText text).terminalText? t = if t = .ofText g.texts.size then some text else g.terminalText? t := by
  unfold terminalText?
  cases char : t.char? with
  | some c =>
    have differ : t ≠ .ofText g.texts.size := fun same => by
      cases char.symm.trans (same ▸ TerminalId.char?_ofText _)
    rw [if_neg differ]
  | none => exact registeredText?_pushText g text t

/-- A text that is no terminal yet has more than one character, so it is looked for among those that are registered. -/
theorem terminal?_of_missing (given : text.isEmpty = false) (missing : g.terminal? text = none) (g' : Grammar) :
    g'.terminal? text = g'.terminals.find? text := by
  unfold terminal? at missing ⊢
  split
  case h_1 none =>
    rw [String.toList_eq_nil_iff.mp none] at given
    cases given
  case h_2 one => simp [one] at missing
  case h_3 => rfl

theorem find?_terminals_pushText (g : Grammar) (text other : String) : (g.pushText text).terminals.find? other =
    if some text = some other then some (.ofText g.texts.size) else g.terminals.find? other := by
  simp [pushText, Index.find?_insert]

theorem terminal?_pushText (given : text.isEmpty = false) (missing : g.terminal? text = none) (other : String) :
    (g.pushText text).terminal? other =
      if some text = some other then some (.ofText g.texts.size) else g.terminal? other := by
  by_cases same : text = other
  · subst same
    rw [terminal?_of_missing given missing, find?_terminals_pushText, if_pos rfl, if_pos rfl]
  · unfold terminal?
    split <;> simp [find?_terminals_pushText, same]

end Texts

section Sets

variable (g : Grammar) (content : List SetMember)

theorem set?_pushSet (s : SetId) :
    (g.pushSet content).set? s = if s = ⟨g.sets.size⟩ then some content else g.set? s := by
  obtain ⟨i⟩ := s
  simp [set?, pushSet, Array.getElem?_push]

theorem setWith?_pushSet (other : List SetMember) : (g.pushSet content).setWith? other =
    if some content = some other then some ⟨g.sets.size⟩ else g.setWith? other := by
  simp [setWith?, pushSet, Index.find?_insert]

end Sets

section Rules

variable {d : RuleDef} {r : RuleId} {name : String}

theorem rule?_push (g : Grammar) (d : RuleDef) (r : RuleId) :
    (g.push d).rule? r = if r.index = g.rules.size then some d else g.rule? r := by
  simp [rule?, Array.getElem?_push]

theorem rule?_mapRule (g : Grammar) (r s : RuleId) (f : RuleDef → RuleDef) :
    (g.mapRule r f).rule? s = if r.index = s.index then (g.rule? s).map f else g.rule? s := by
  simp [rule?, mapRule, Array.getElem?_modify]

/-- The key of a new rule stands beside those of the others. -/
theorem bind_rule?_push {κ : Type} (key : RuleDef → Option κ) (r : RuleId) :
    ((g.push d).rule? r).bind key = if r = ⟨g.rules.size⟩ then key d else (g.rule? r).bind key := by
  obtain ⟨i⟩ := r
  rw [rule?_push]
  split <;> simp_all

theorem bind_rule?_size {κ : Type} (key : RuleDef → Option κ) : (g.rule? ⟨g.rules.size⟩).bind key = none := by
  simp [rule?]

theorem bind_givenName_eq_some_iff : (g.rule? r).bind RuleDef.givenName = some name ↔
    ∃ d, g.rule? r = some d ∧ d.internal = false ∧ d.name = some name := by
  simp only [Option.bind_eq_some_iff, RuleDef.givenName_eq_some_iff]

/-- An edit that keeps a key of every rule keeps the keys of the table. -/
theorem map_rules_mapRule {κ : Type} {key : RuleDef → κ} {f : RuleDef → RuleDef} (kept : ∀ d, key (f d) = key d)
    (r : RuleId) : (g.mapRule r f).rules.map key = g.rules.map key := by
  refine Array.ext_getElem? fun i => ?_
  simp only [mapRule, Array.getElem?_map, Array.getElem?_modify]
  split
  · simp only [Option.map_map, Function.comp_def, kept]
  · rfl

/-- An analysis keeps what does not depend on the costs it finds. -/
theorem map_rules_reanalyze {κ : Type} {key : RuleDef → κ}
    (blind : ∀ d cost flag, key { d with nullPenalty := cost, nullable := flag } = key d) :
    g.reanalyze.rules.map key = g.rules.map key := by
  refine Array.ext_getElem? fun i => ?_
  simp only [reanalyze, Tables.analyze, Tables.record, Array.getElem?_map, Array.getElem?_mapIdx, Option.map_map,
    Function.comp_def, blind]

end Rules

namespace Indexed

variable {d : RuleDef} {r : RuleId} {f : RuleDef → RuleDef} {text : String} {content : List SetMember}

/-- A new rule whose name and whose mark have led nowhere. -/
theorem push (h : g.Indexed) (name : ∀ n, d.givenName = some n → g.ruleNamed? n = none)
    (mark : ∀ u, d.tolerantFor = some u → g.wrapper? u = none) : (g.push d).Indexed where
  name {n r} := by
    rw [← bind_givenName_eq_some_iff]
    refine found_iff_of_new (h.name.trans bind_givenName_eq_some_iff.symm) name (bind_rule?_size _) (fun k => ?_)
      (bind_rule?_push RuleDef.givenName)
    exact Index.find?_enter ..
  registered := h.registered
  text := h.text
  set := h.set
  wrapper {u r} :=
    found_iff_of_new h.wrapper mark (bind_rule?_size _) (fun k => Index.find?_enter ..)
      (bind_rule?_push RuleDef.tolerantFor)

theorem pushWrapper (h : g.Indexed) {u : Usage} (missing : g.wrapper? u = none) :
    (g.push (g.wrapperDef u)).Indexed := by
  apply h.push
  · rintro n ⟨⟩
  · rintro u' ⟨⟩
    exact missing

theorem pushText (h : g.Indexed) (given : text.isEmpty = false) (missing : g.terminal? text = none) :
    (g.pushText text).Indexed where
  name := h.name
  registered {other t} := by
    have absent : g.terminals.find? text = none := (terminal?_of_missing given missing g).symm.trans missing
    exact found_iff_of_new h.registered (by rintro _ ⟨⟩; exact absent) (registeredText?_size g)
      (find?_terminals_pushText g text) (registeredText?_pushText g text)
  text :=
    found_iff_of_new h.text (by rintro _ ⟨⟩; exact missing) ((terminalText?_ofText _).trans (registeredText?_size g))
      (terminal?_pushText given missing) (terminalText?_pushText g text)
  set := h.set
  wrapper := h.wrapper

theorem pushSet (h : g.Indexed) (missing : g.setWith? content = none) : (g.pushSet content).Indexed where
  name := h.name
  registered := h.registered
  text := h.text
  set :=
    found_iff_of_new h.set (by rintro _ ⟨⟩; exact missing) (by simp [set?]) (setWith?_pushSet g content)
      (set?_pushSet g content)
  wrapper := h.wrapper

/-- What neither the tables nor the indexes hold has no part in this. -/
theorem of_eq (h : g.Indexed) (start : Option RuleId) (userData : Index UserKey Datum) :
    Indexed { g with start := start, userData := userData } :=
  ⟨h.name, h.registered, h.text, h.set, h.wrapper⟩

/-- Tables in which rules have the same keys. -/
theorem withTables (h : g.Indexed) {tables : Tables}
    (same : tables.rules.map RuleDef.keys = g.rules.map RuleDef.keys) : Indexed { g with toTables := tables } := by
  have kept {κ : Type} (part : Option String × Option Usage → Option κ) (r : RuleId) :
      (g.rule? r).bind (part ∘ RuleDef.keys) = (rule? { g with toTables := tables } r).bind (part ∘ RuleDef.keys) := by
    have entries : (tables.rules[r.index]?).map RuleDef.keys = (g.rules[r.index]?).map RuleDef.keys := by
      simpa using congrArg (·[r.index]?) same
    rw [← Option.bind_map, ← Option.bind_map, rule?, rule?, entries]
  have names {name : String} {r : RuleId} := Eq.congr_left (z := some name) (kept Prod.fst r)
  exact
    { name := h.name.trans (bind_givenName_eq_some_iff.symm.trans (names.trans bind_givenName_eq_some_iff))
      registered := h.registered
      text := h.text
      set := h.set
      wrapper := fun {u w} => h.wrapper.trans (Eq.congr_left (kept Prod.snd w)) }

theorem mapRule (h : g.Indexed) (kept : ∀ d, (f d).keys = d.keys) : (g.mapRule r f).Indexed :=
  h.withTables (map_rules_mapRule kept r)

theorem reanalyze (h : g.Indexed) : g.reanalyze.Indexed := h.withTables (map_rules_reanalyze fun _ _ _ => rfl)

/-- The two rules that repairs are made of have no name that an author gave, and stand for no usage. -/
theorem repairsOnly (tolerant : Bool) : (repairsOnly tolerant).Indexed := by
  have keyless {κ : Type} {k : κ} (part : Option String × Option Usage → Option κ) (blank : part (none, none) = none)
      (r : RuleId) : ((Grammar.repairsOnly tolerant).rule? r).bind (part ∘ RuleDef.keys) ≠ some k := by
    intro found
    obtain ⟨_ | _ | i⟩ := r
    · cases blank.symm.trans found
    · cases blank.symm.trans found
    · cases found
  refine ⟨fun {name r} => ?_, fun {text t} => ?_, fun {text t} => ?_, fun {content s} => ?_, fun {u w} => ?_⟩
  · rw [← bind_givenName_eq_some_iff]
    exact iff_of_false (by simp [ruleNamed?, Grammar.repairsOnly]) (keyless Prod.fst rfl r)
  · simp [registeredText?, Grammar.repairsOnly]
  · rw [terminalText?_eq_some_iff]
    unfold terminal?
    split
    case h_1 none => simp [none, String.ext_iff, Grammar.repairsOnly]
    case h_2 c one =>
      obtain rfl : text = c.toString := String.ext_iff.mpr (by simpa using one)
      simp [eq_comm, Grammar.repairsOnly]
    case h_3 notNone notOne =>
      have apart (c : Char) : text ≠ String.singleton c := fun same => notOne c (by simp [same])
      simp [apart, Grammar.repairsOnly]
  · simp [setWith?, set?, Grammar.repairsOnly]
  · exact iff_of_false (by simp [wrapper?, Grammar.repairsOnly]) (keyless Prod.snd rfl w)

end Indexed

end Grammar

end Earley
