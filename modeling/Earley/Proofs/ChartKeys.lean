import Earley.Forest.Builder
import Earley.Proofs.Derivation

/-!
# What keys stand for

The keys that can come up in a state, and the trees of what lies behind an item. A step of an item adds the trees
of what it steps over, and an item at its end gives the tree of its target.
-/

namespace Earley

namespace GroupDef

/-- The count that stands for `n` repetitions. -/
def clamp (d : GroupDef) (n : Nat) : Nat := if d.isUnbounded then Min.min n (Max.max d.min.toNat 1) else n

@[simp] theorem clamp_zero (d : GroupDef) : d.clamp 0 = 0 := by
  unfold clamp
  split <;> simp

theorem nextCount_clamp {d : GroupDef} {n : Nat} (more : d.canRepeat (d.clamp n) = true) :
    d.nextCount (d.clamp n) = d.clamp (n + 1) := by
  have least := d.min.toNat_lt
  have most := d.max.toNat_lt
  unfold nextCount clamp
  dsimp only
  split
  case isTrue => omega
  case isFalse bounded =>
    have : n < d.max.toNat := by simpa [canRepeat, clamp, bounded] using more
    omega

theorem isSatisfied_clamp {d : GroupDef} {n : Nat} : d.isSatisfied (d.clamp n) = true ↔ d.min.toNat ≤ n := by
  unfold isSatisfied clamp
  simp only [decide_eq_true_eq]
  split <;> omega

theorem nextCount_le_countBound {d : GroupDef} {count : Nat} (more : d.canRepeat count = true) :
    d.nextCount count ≤ d.countBound := by
  unfold nextCount countBound
  dsimp only
  split
  case isTrue => omega
  case isFalse bounded =>
    have : count < d.max.toNat := by simpa [canRepeat, bounded] using more
    omega

/-- A group stops counting where no bound depends on the count any more. -/
theorem nextCount_clamp_eq_iff {d : GroupDef} {n : Nat} (more : d.canRepeat (d.clamp n) = true) :
    d.nextCount (d.clamp n) = d.clamp n ↔ d.isUnbounded = true ∧ Max.max d.min.toNat 1 ≤ n := by
  rw [nextCount_clamp more]
  unfold clamp
  split
  case isTrue unbounded => simp only [unbounded, true_and]; omega
  case isFalse bounded => simp [bounded]

theorem admits_of_clamp {d : GroupDef} {n : Nat} (counted : d.clamp n ≤ d.countBound)
    (enough : d.isSatisfied (d.clamp n) = true) : d.Admits n := by
  refine ⟨isSatisfied_clamp.mp enough, ?_⟩
  unfold clamp countBound at counted
  split at counted
  · exact .inl ‹_›
  · exact .inr counted

end GroupDef

namespace Chart

def Target.part : Target → Part
  | .rule r => .symbol (.rule r)
  | .group k => .symbol (.group k)
  | .iteration k => .iteration k

def Operation.part? : Operation → Option Part
  | .predict target => some target.part
  | .passEmpty => some (.symbol .empty)
  | .scan u => some (.symbol (.usage u))
  | .complete _ => none

theorem Operation.part?_before (owner : Owner) (s : Option Symbol) : (before owner s).part? = s.map Part.symbol := by
  rcases s with _ | ⟨_ | _ | _ | _⟩ <;> rfl

def Owner.Walks (g : Grammar) : Owner → Prop
  | .rule r p => p < (g.productions r).length
  | .iteration k => ∃ d, g.group? k = some d
  | .group _ => False

theorem Owner.Walks.production {g : Grammar} {r : RuleId} {n : Nat} (h : (Owner.rule r n).Walks g) :
    ∃ d, g.rule? r = some d ∧ d.productions[n]? = some (g.symbolsOf (.rule r n)) := by
  have bound : n < (g.productions r).length := h
  cases known : g.rule? r with
  | none => simp [Grammar.productions, known] at bound
  | some d =>
    refine ⟨d, rfl, ?_⟩
    have bound : n < d.productions.length := by simpa [Grammar.productions, known] using bound
    simp [Grammar.symbolsOf, Grammar.productions, known, bound]

theorem walks_of_chosen {g : Grammar} {r : RuleId} {d : RuleDef} {n : Nat} {production : Production}
    (known : g.rule? r = some d) (chosen : d.productions[n]? = some production) :
    (Owner.rule r n).Walks g ∧ g.symbolsOf (.rule r n) = production := by
  constructor
  · simpa [Owner.Walks, Grammar.productions, known] using (List.getElem?_eq_some_iff.mp chosen).1
  · simp [Grammar.symbolsOf, Grammar.productions, known, List.getD_eq_getElem?_getD, chosen]

theorem symbolsOf_iteration {g : Grammar} {k : GroupId} {d : GroupDef} (known : g.group? k = some d) :
    g.symbolsOf (.iteration k) = d.production := by
  simp [Grammar.symbolsOf, known]

/-- The key of the item that a derivation with an item of the given key began with. -/
def firstKey (g : Grammar) (key : ItemKey) : ItemKey :=
  if key.dot = 0 ∧ key.count = 0 then key
  else match key.owner with
    | .group k => ⟨.group k, 0, key.origin, 0, .predict (.iteration k)⟩
    | owner => g.dottedKey owner 0 key.origin

inductive ItemKey.Valid (g : Grammar) (j : Nat) : ItemKey → Prop where
  | dotted {owner : Owner} {dot origin : Nat} (walks : owner.Walks g) (place : dot ≤ (g.symbolsOf owner).length)
      (begun : origin ≤ j) : Valid g j (g.dottedKey owner dot origin)
  | group {k : GroupId} {d : GroupDef} {origin count : Nat} {key : ItemKey} (known : g.group? k = some d)
      (counted : count ≤ d.countBound) (begun : origin ≤ j) (member : key ∈ Grammar.groupKeys k d origin count) :
      Valid g j key

theorem ItemKey.Valid.origin_le {g : Grammar} {j : Nat} {key : ItemKey} (h : key.Valid g j) : key.origin ≤ j := by
  cases h with
  | dotted _ _ begun => exact begun
  | group _ _ begun member =>
    unfold Grammar.groupKeys at member
    rcases List.mem_append.mp member with inside | inside <;> split at inside <;> simp_all

/-- A group item goes on where it may repeat, and completes where it is satisfied. -/
theorem mem_groupKeys {k : GroupId} {d : GroupDef} {origin count : Nat} {key : ItemKey} :
    key ∈ Grammar.groupKeys k d origin count ↔
      (d.canRepeat count = true ∧ key = ⟨.group k, 0, origin, count, .predict (.iteration k)⟩) ∨
      (d.isSatisfied count = true ∧ key = ⟨.group k, 0, origin, count, .complete (.group k)⟩) := by
  unfold Grammar.groupKeys
  by_cases more : d.canRepeat count = true <;> by_cases done : d.isSatisfied count = true <;> simp [more, done]

/-- Trees of what lies behind an item of state number `j`, and their penalty. -/
def Behind (g : Grammar) (input : List Token) (key : ItemKey) (j : Nat) (ts : List Tree) (p : Penalty) : Prop :=
  match key.owner with
  | .group k => ∃ d, g.group? k = some d ∧ key.count = d.clamp ts.length ∧
      g.Parses input (List.replicate ts.length (.iteration k)) key.origin j ts p
  | owner => g.Parses input (((g.symbolsOf owner).take key.dot).map .symbol) key.origin j ts p

variable {g : Grammar} {input : List Token}

theorem behind_dotted {owner : Owner} (walks : owner.Walks g) {dot origin j : Nat} {ts : List Tree} {p : Penalty} :
    Behind g input (g.dottedKey owner dot origin) j ts p ↔
      g.Parses input (((g.symbolsOf owner).take dot).map .symbol) origin j ts p := by
  cases owner with
  | group k => exact walks.elim
  | _ => rfl

theorem nextKeys_dotted {owner : Owner} (walks : owner.Walks g) (dot origin : Nat) :
    g.nextKeys (g.dottedKey owner dot origin) = [g.dottedKey owner (dot + 1) origin] := by
  cases owner with
  | group k => exact walks.elim
  | _ => rfl

theorem isSaturated_dotted {owner : Owner} (walks : owner.Walks g) (dot origin : Nat) :
    g.isSaturated (g.dottedKey owner dot origin) = false := by
  cases owner with
  | group k => exact walks.elim
  | _ => rfl

theorem part?_dotted (owner : Owner) (dot origin : Nat) :
    (g.dottedKey owner dot origin).op.part? = (g.symbolsOf owner)[dot]?.map .symbol :=
  Operation.part?_before owner _

/-- An item that is done has walked along all symbols of its production. -/
theorem complete_dotted {owner : Owner} {dot origin : Nat} {target : Target} (place : dot ≤ (g.symbolsOf owner).length)
    (done : (g.dottedKey owner dot origin).op = .complete target) :
    dot = (g.symbolsOf owner).length ∧ owner.target = target := by
  have none : (g.dottedKey owner dot origin).op.part? = none := by rw [done]; rfl
  rw [part?_dotted, Option.map_eq_none_iff, List.getElem?_eq_none_iff] at none
  have finished := Nat.le_antisymm place none
  subst finished
  exact ⟨rfl, by simpa [Grammar.dottedKey, Operation.before] using done⟩

/-- A prediction starts from nothing, in the state it is made in. -/
theorem behind_opening {target : Target} {j : Nat} {key : ItemKey} (member : key ∈ g.openingKeys target j) :
    Behind g input key j [] 0 := by
  unfold Grammar.openingKeys at member
  split at member
  · obtain ⟨p, -, rfl⟩ := List.mem_map.mp member
    exact .nil
  · split at member
    case h_1 k d known =>
      rcases mem_groupKeys.mp member with ⟨-, rfl⟩ | ⟨-, rfl⟩ <;> exact ⟨d, known, by simp, .nil⟩
    case h_2 => simp at member
  · rw [List.mem_singleton.mp member]
    exact .nil

theorem valid_opening {target : Target} {j : Nat} {key : ItemKey}
    (known : ∀ k, target = .iteration k → ∃ d, g.group? k = some d) (member : key ∈ g.openingKeys target j) :
    key.Valid g j := by
  unfold Grammar.openingKeys at member
  split at member
  · obtain ⟨p, inside, rfl⟩ := List.mem_map.mp member
    exact .dotted (List.mem_range.mp inside) (Nat.zero_le _) (Nat.le_refl _)
  · split at member
    case h_1 k d found => exact .group found (Nat.zero_le _) (Nat.le_refl _) member
    case h_2 => simp at member
  · rw [List.mem_singleton.mp member]
    exact .dotted (known _ rfl) (Nat.zero_le _) (Nat.le_refl _)

theorem origin_opening {target : Target} {j : Nat} {key : ItemKey} (member : key ∈ g.openingKeys target j) :
    key.origin = j ∧ key.dot = 0 ∧ key.count = 0 := by
  unfold Grammar.openingKeys at member
  split at member
  · obtain ⟨p, -, rfl⟩ := List.mem_map.mp member
    exact ⟨rfl, rfl, rfl⟩
  · split at member
    case h_1 => rcases mem_groupKeys.mp member with ⟨-, rfl⟩ | ⟨-, rfl⟩ <;> exact ⟨rfl, rfl, rfl⟩
    case h_2 => simp at member
  · rw [List.mem_singleton.mp member]
    exact ⟨rfl, rfl, rfl⟩

/-- An item that has something to step over steps to a key that can come up. -/
theorem ItemKey.Valid.next {i j : Nat} {key key' : ItemKey} {part : Part} (h : key.Valid g i) (le : i ≤ j)
    (steps : key.op.part? = some part) (member : key' ∈ g.nextKeys key) : key'.Valid g j := by
  cases h with
  | @dotted owner dot origin walks place begun =>
    rw [nextKeys_dotted walks] at member
    rw [part?_dotted] at steps
    obtain ⟨s, here, -⟩ := Option.map_eq_some_iff.mp steps
    rw [List.mem_singleton.mp member]
    exact .dotted walks (List.getElem?_eq_some_iff.mp here).1 (Nat.le_trans begun le)
  | @group k d origin count key known counted begun inside =>
    rcases mem_groupKeys.mp inside with ⟨more, rfl⟩ | ⟨-, rfl⟩
    · simp only [Grammar.nextKeys, known] at member
      exact .group known (GroupDef.nextCount_le_countBound more) (Nat.le_trans begun le) member
    · simp [Operation.part?] at steps

theorem next_origin {i : Nat} {key key' : ItemKey} (h : key.Valid g i) (member : key' ∈ g.nextKeys key) :
    key'.origin = key.origin ∧ ¬ (key'.dot = 0 ∧ key'.count = 0) := by
  cases h with
  | dotted walks =>
    rw [nextKeys_dotted walks] at member
    rw [List.mem_singleton.mp member]
    exact ⟨rfl, by simp [Grammar.dottedKey]⟩
  | @group k d origin count key known counted begun inside =>
    have positive : d.nextCount count ≠ 0 := by
      unfold GroupDef.nextCount
      dsimp only
      split <;> omega
    rcases mem_groupKeys.mp inside with ⟨-, rfl⟩ | ⟨-, rfl⟩ <;> simp only [Grammar.nextKeys, known] at member <;>
      rcases mem_groupKeys.mp member with ⟨-, rfl⟩ | ⟨-, rfl⟩ <;> simp [positive]

/-- A step leads to a key of the same derivation. -/
theorem firstKey_next {i : Nat} {key key' : ItemKey} {part : Part} (h : key.Valid g i)
    (steps : key.op.part? = some part) (member : key' ∈ g.nextKeys key) : firstKey g key' = firstKey g key := by
  rw [firstKey, if_neg (next_origin h member).2, (next_origin h member).1]
  cases h with
  | @dotted owner dot origin walks place begun =>
    rw [nextKeys_dotted walks] at member
    rw [List.mem_singleton.mp member, firstKey]
    cases owner with
    | group k => exact walks.elim
    | _ =>
      by_cases first : dot = 0
      · rw [if_pos ⟨first, rfl⟩, first]
        rfl
      · rw [if_neg fun both => first both.1]
        rfl
  | @group k d origin count key known counted begun inside =>
    rcases mem_groupKeys.mp inside with ⟨more, rfl⟩ | ⟨-, rfl⟩
    · simp only [Grammar.nextKeys, known] at member
      have owner : key'.owner = .group k := by
        rcases mem_groupKeys.mp member with ⟨-, rfl⟩ | ⟨-, rfl⟩ <;> rfl
      rw [owner, firstKey]
      by_cases first : count = 0
      · rw [if_pos ⟨rfl, first⟩, first]
      · rw [if_neg fun both => first both.2]
    · simp [Operation.part?] at steps

/-- Stepping over a part adds its trees. -/
theorem Behind.next {i m j : Nat} {key key' : ItemKey} {part : Part} {ts us : List Tree} {p q : Penalty}
    (valid : key.Valid g i) (h : Behind g input key m ts p) (steps : key.op.part? = some part)
    (crossed : g.Parses input [part] m j us q) (member : key' ∈ g.nextKeys key) :
    Behind g input key' j (ts ++ us) (p + q) := by
  cases valid with
  | @dotted owner dot origin walks place begun =>
    rw [nextKeys_dotted walks] at member
    rw [part?_dotted] at steps
    obtain ⟨s, here, rfl⟩ := Option.map_eq_some_iff.mp steps
    rw [List.mem_singleton.mp member, behind_dotted walks]
    rw [behind_dotted walks] at h
    rw [List.take_add_one, here, List.map_append]
    exact h.append crossed
  | @group k d origin count key known counted begun inside =>
    rcases mem_groupKeys.mp inside with ⟨more, rfl⟩ | ⟨-, rfl⟩
    · cases steps
      obtain ⟨d', known', clamped, parsed⟩ := h
      cases known.symm.trans known'
      dsimp only at clamped
      obtain ⟨t, rfl⟩ : ∃ t, us = [t] := by
        cases crossed with
        | iteration _ _ rest => cases rest; exact ⟨_, rfl⟩
      have parsed' := parsed.append crossed
      rw [show [Target.part (.iteration k)] = List.replicate 1 (Part.iteration k) from rfl,
        List.replicate_append_replicate] at parsed'
      have count' : d.nextCount count = d.clamp (ts ++ [t]).length := by
        rw [clamped, GroupDef.nextCount_clamp (clamped ▸ more), List.length_append, List.length_singleton]
      simp only [Grammar.nextKeys, known] at member
      rcases mem_groupKeys.mp member with ⟨-, rfl⟩ | ⟨-, rfl⟩ <;>
        exact ⟨d, known, count', by simpa using parsed'⟩
    · simp [Operation.part?] at steps

def nodeOf (g : Grammar) (key : ItemKey) (j : Nat) (p : Penalty) (ts : List Tree) : Tree :=
  .node key.owner.nodeKind ⟨key.origin, j⟩ (p + g.targetPenalty key.owner.target) ts

/-- At its end an item gives the tree of its target. -/
theorem Behind.complete {i j : Nat} {key : ItemKey} {target : Target} {ts : List Tree} {p : Penalty}
    (valid : key.Valid g i) (h : Behind g input key j ts p) (done : key.op = .complete target) :
    key.owner.target = target ∧
      g.Parses input [target.part] key.origin j [nodeOf g key j p ts] (p + g.targetPenalty target) := by
  cases valid with
  | @dotted owner dot origin walks place begun =>
    obtain ⟨rfl, rfl⟩ := complete_dotted place done
    rw [behind_dotted walks, List.take_length] at h
    refine ⟨rfl, ?_⟩
    cases owner with
    | group k => exact walks.elim
    | rule r n =>
      obtain ⟨d, known, chosen⟩ := walks.production
      simpa [nodeOf, Grammar.targetPenalty, Grammar.rulePenalty, known, Grammar.dottedKey, Owner.nodeKind,
        Owner.target, Target.part] using Grammar.Parses.rule known chosen h .nil
    | iteration k =>
      obtain ⟨d, known⟩ := walks
      rw [symbolsOf_iteration known] at h
      simpa [nodeOf, Grammar.targetPenalty, Grammar.dottedKey, Owner.nodeKind, Owner.target, Target.part] using
        Grammar.Parses.iteration known h .nil
  | @group k d origin count key known counted begun inside =>
    rcases mem_groupKeys.mp inside with ⟨-, rfl⟩ | ⟨enough, rfl⟩
    · cases done
    · cases done
      obtain ⟨d', known', clamped, parsed⟩ := h
      cases known.symm.trans known'
      dsimp only at clamped
      have admitted : d.Admits ts.length := GroupDef.admits_of_clamp (clamped ▸ counted) (clamped ▸ enough)
      refine ⟨rfl, ?_⟩
      simpa [nodeOf, Grammar.targetPenalty, Owner.nodeKind, Owner.target, Target.part] using
        Grammar.Parses.group known admitted parsed .nil

end Chart

end Earley
