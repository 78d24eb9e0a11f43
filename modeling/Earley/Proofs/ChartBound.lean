import Earley.Proofs.ChartClosure
import Mathlib.Data.List.Perm.Subperm

/-!
# Closing ends with everything served

A state has no room for more items than there are keys, and serving goes on for that many. So every item of a
closed state has been served.
-/

namespace Earley

/-- Lists of known lengths, one for each place of a list, joined. -/
theorem length_flatMap_zipIdx {α β : Type} {measure : α → Nat} {f : α × Nat → List β}
    (each : ∀ a i, (f (a, i)).length = measure a) (as : List α) (n : Nat) :
    ((as.zipIdx n).flatMap f).length = total measure as := by
  induction as generalizing n with
  | nil => rfl
  | cons a as ih => simp [each, ih]

namespace Chart

def dottedKeys (g : Grammar) (owner : Owner) (length origin : Nat) : List ItemKey :=
  (List.range (length + 1)).map fun dot => g.dottedKey owner dot origin

def ruleKeys (g : Grammar) (r : RuleId) (d : RuleDef) (origin : Nat) : List ItemKey :=
  d.productions.zipIdx.flatMap fun (production, n) => dottedKeys g (.rule r n) production.length origin

def countedKeys (k : GroupId) (d : GroupDef) (origin : Nat) : List ItemKey :=
  (List.range (d.countBound + 1)).flatMap fun count =>
    [⟨.group k, 0, origin, count, .predict (.iteration k)⟩, ⟨.group k, 0, origin, count, .complete (.group k)⟩]

def keysAt (g : Grammar) (j : Nat) : List ItemKey :=
  (List.range (j + 1)).flatMap fun origin =>
    (g.rules.toList.zipIdx.flatMap fun (d, r) => ruleKeys g ⟨r⟩ d origin) ++
      g.groups.toList.zipIdx.flatMap fun (d, k) =>
        dottedKeys g (.iteration ⟨k⟩) d.production.length origin ++ countedKeys ⟨k⟩ d origin

theorem length_dottedKeys (g : Grammar) (owner : Owner) (length origin : Nat) :
    (dottedKeys g owner length origin).length = length + 1 := by
  simp [dottedKeys]

theorem length_countedKeys (k : GroupId) (d : GroupDef) (origin : Nat) :
    (countedKeys k d origin).length = 2 * (d.countBound + 1) := by
  rw [countedKeys, List.length_flatMap]
  simp [Nat.mul_comm]

theorem length_keysAt (g : Grammar) (j : Nat) : (keysAt g j).length = g.keyBound j := by
  have rules (origin : Nat) : (g.rules.toList.zipIdx.flatMap fun (d, r) => ruleKeys g ⟨r⟩ d origin).length
      = total (·.keyBound) g.rules.toList :=
    length_flatMap_zipIdx (fun d r => length_flatMap_zipIdx (fun production n => length_dottedKeys ..) _ _) _ _
  have groups (origin : Nat) : (g.groups.toList.zipIdx.flatMap fun (d, k) =>
      dottedKeys g (.iteration ⟨k⟩) d.production.length origin ++ countedKeys ⟨k⟩ d origin).length
        = total (·.keyBound) g.groups.toList :=
    length_flatMap_zipIdx (fun d k => by
      rw [List.length_append, length_dottedKeys, length_countedKeys, GroupDef.keyBound]) _ _
  rw [keysAt, List.length_flatMap]
  simp [rules, groups, Grammar.keyBound, Nat.mul_comm]

variable {g : Grammar}

theorem mem_dottedKeys {owner : Owner} {length dot origin : Nat} (place : dot ≤ length) :
    g.dottedKey owner dot origin ∈ dottedKeys g owner length origin :=
  List.mem_map.mpr ⟨dot, by simp; omega, rfl⟩

theorem mem_keysAt {j : Nat} {key : ItemKey} (h : key.Valid g j) : key ∈ keysAt g j := by
  have known := h.origin_le
  refine List.mem_flatMap.mpr ⟨key.origin, by simp; omega, ?_⟩
  cases h with
  | @dotted owner dot origin walks place begun =>
    cases owner with
    | group k => exact walks.elim
    | rule r n =>
      obtain ⟨d, known, chosen⟩ := walks.production
      refine List.mem_append_left _ (List.mem_flatMap.mpr ⟨(d, r.index), ?_, ?_⟩)
      · simpa [List.mem_zipIdx_iff_getElem?, Grammar.rule?] using known
      · exact List.mem_flatMap.mpr ⟨(_, n), List.mem_zipIdx_iff_getElem?.mpr chosen, mem_dottedKeys place⟩
    | iteration k =>
      obtain ⟨d, known⟩ := walks
      have symbols := symbolsOf_iteration known
      refine List.mem_append_right _ (List.mem_flatMap.mpr ⟨(d, k.index), ?_, ?_⟩)
      · simpa [List.mem_zipIdx_iff_getElem?, Grammar.group?] using known
      · exact List.mem_append_left _ (mem_dottedKeys (symbols ▸ place))
  | @group k d origin count key known counted begun member =>
    refine List.mem_append_right _ (List.mem_flatMap.mpr ⟨(d, k.index), ?_, List.mem_append_right _ ?_⟩)
    · simpa [List.mem_zipIdx_iff_getElem?, Grammar.group?] using known
    · refine List.mem_flatMap.mpr ⟨count, by simp; omega, ?_⟩
      rcases mem_groupKeys.mp member with ⟨-, rfl⟩ | ⟨-, rfl⟩ <;> simp

theorem State.Coherent.nodup_keys {s : State} (h : s.Coherent) : (s.items.toList.map (·.key)).Nodup := by
  rw [List.nodup_iff_pairwise_ne, List.pairwise_map, List.pairwise_iff_getElem]
  intro i j hi hj less same
  have first : s.items[i]? = some s.items.toList[i] := by simp at hi; simp [hi]
  have second : s.items[j]? = some s.items.toList[j] := by simp at hj; simp [hj]
  exact absurd (h.unique first second same) (Nat.ne_of_lt less)

variable {input : List Token} {past : Array State} {s : State}

/-- A state holds no more items than there are keys. -/
theorem Growing.size_le (h : Growing g input past s) : s.items.size ≤ g.keyBound past.size := by
  have inside : s.items.toList.map (·.key) ⊆ keysAt g past.size := by
    intro key member
    obtain ⟨item, present, rfl⟩ := List.mem_map.mp member
    obtain ⟨i, found⟩ := List.mem_iff_getElem?.mp present
    rw [Array.getElem?_toList] at found
    exact mem_keysAt (h.items found).key
  have := (h.coherent.nodup_keys.subperm inside).length_le
  rw [length_keysAt] at this
  simpa using this

def ServedBelow (g : Grammar) (past : Array State) (s : State) (n : Nat) : Prop :=
  ∀ (i : Nat) (item : Item), i < n → s.items[i]? = some item → Served g past past.size s i item.key

theorem Growing.serveFrom (analyzed : g.Analyzed) (old : PastValid g input past) (h : Growing g input past s)
    {fuel i : Nat} (below : ServedBelow g past s i) (enough : g.keyBound past.size ≤ fuel + i) :
    GrownFrom g input past s (Chart.serveFrom g past fuel s i) ∧
      ∀ n, ServedBelow g past (Chart.serveFrom g past fuel s i) n := by
  induction fuel generalizing s i with
  | zero =>
    refine ⟨h.refl, fun n m item _ found => below m item ?_ found⟩
    have room := h.size_le
    have inside : m < s.items.size := (Array.getElem?_eq_some_iff.mp found).1
    omega
  | succ fuel ih =>
    unfold Chart.serveFrom
    split
    case isTrue inside =>
      obtain ⟨grown, served⟩ := h.serve analyzed old (Array.getElem?_eq_getElem inside)
      have below' : ServedBelow g past (Chart.serve g past s i) (i + 1) := by
        intro m item less found
        obtain ⟨item', found', grows⟩ := grown.more.item (Array.getElem?_eq_getElem (show m < s.items.size by omega))
        cases found.symm.trans found'
        rw [grows.key]
        rcases Nat.lt_succ_iff_lt_or_eq.mp less with earlier | rfl
        · exact (below m _ earlier (Array.getElem?_eq_getElem _)).mono grown.more
        · exact served
      obtain ⟨rest, all⟩ := ih grown.growing below' (by omega)
      exact ⟨grown.trans rest, all⟩
    case isFalse outside =>
      refine ⟨h.refl, fun n m item _ found => below m item ?_ found⟩
      have := (Array.getElem?_eq_some_iff.mp found).1
      omega

/-- Closing a state serves all its items. -/
theorem Growing.close (analyzed : g.Analyzed) (old : PastValid g input past) (h : Growing g input past s) :
    GrownFrom g input past s (Chart.close g past s) ∧ ∀ n, ServedBelow g past (Chart.close g past s) n :=
  h.serveFrom analyzed old (fun i _ less => absurd less (Nat.not_lt_zero i)) (Nat.le_add_right _ _)

end Chart

end Earley
