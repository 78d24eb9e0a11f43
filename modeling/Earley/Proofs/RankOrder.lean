import Earley.Symbol
import Mathlib.Data.List.Sort

/-!
# Sorting by rank

Sorting by rank gives a list without repetitions whose ranks increase. Such a list is determined by its elements, so
lists with the same elements are sorted to the same list.
-/

namespace Earley

theorem rankLt_iff {a b : Nat × Nat} : rankLt a b = true ↔ a.1 < b.1 ∨ a.1 = b.1 ∧ a.2 < b.2 := by
  simp [rankLt]

theorem rankLt_trans {a b c : Nat × Nat} (first : rankLt a b = true) (second : rankLt b c = true) :
    rankLt a c = true := by
  rw [rankLt_iff] at *
  omega

theorem rankLt_irrefl (a : Nat × Nat) : ¬ rankLt a a = true := by
  rw [rankLt_iff]
  omega

theorem rankLt_of_not_rankLt {a b : Nat × Nat} (notLess : ¬ rankLt a b = true) (differ : a ≠ b) :
    rankLt b a = true := by
  rw [rankLt_iff] at *
  have apart : a.1 ≠ b.1 ∨ a.2 ≠ b.2 := by
    by_cases first : a.1 = b.1
    · exact .inr fun second => differ (Prod.ext first second)
    · exact .inl first
  omega

section Sorting

variable {α : Type} {rank : α → Nat × Nat}

def Ascending (rank : α → Nat × Nat) (as : List α) : Prop := as.Pairwise fun a b => rankLt (rank a) (rank b) = true

theorem mem_of_mem_insertByRank {a x : α} {as : List α} (member : x ∈ insertByRank rank a as) : x = a ∨ x ∈ as := by
  induction as with
  | nil => exact .inl (List.mem_singleton.mp member)
  | cons b rest ih =>
    unfold insertByRank at member
    split at member
    · exact List.mem_cons.mp member
    · split at member
      · exact .inr member
      · rcases List.mem_cons.mp member with first | later
        · exact .inr (List.mem_cons.mpr (.inl first))
        · exact (ih later).imp_right (List.mem_cons_of_mem b)

theorem mem_insertByRank_of_mem {a x : α} {as : List α} (member : x ∈ as) : x ∈ insertByRank rank a as := by
  induction as with
  | nil => simp at member
  | cons b rest ih =>
    unfold insertByRank
    split
    · exact List.mem_cons_of_mem a member
    · split
      · exact member
      · rcases List.mem_cons.mp member with first | later
        · exact List.mem_cons.mpr (.inl first)
        · exact List.mem_cons_of_mem b (ih later)

/-- What is inserted is there in the end, unless another element has its rank. -/
theorem mem_insertByRank_self (injective : ∀ {a b}, rank a = rank b → a = b) (a : α) (as : List α) :
    a ∈ insertByRank rank a as := by
  induction as with
  | nil => exact List.mem_singleton.mpr rfl
  | cons b rest ih =>
    unfold insertByRank
    split
    · exact List.mem_cons_self ..
    · split
      case isTrue same => exact List.mem_cons.mpr (.inl (injective same))
      case isFalse => exact List.mem_cons_of_mem b ih

theorem Ascending.insert {as : List α} (h : Ascending rank as) (a : α) : Ascending rank (insertByRank rank a as) := by
  induction as with
  | nil => exact List.pairwise_singleton ..
  | cons b rest ih =>
    obtain ⟨below, others⟩ := List.pairwise_cons.mp h
    unfold insertByRank
    split
    case isTrue less =>
      refine List.pairwise_cons.mpr ⟨fun x member => ?_, h⟩
      rcases List.mem_cons.mp member with rfl | later
      · exact less
      · exact rankLt_trans less (below x later)
    case isFalse notLess =>
      split
      case isTrue => exact h
      case isFalse differ =>
        refine List.pairwise_cons.mpr ⟨fun x member => ?_, ih others⟩
        rcases mem_of_mem_insertByRank member with rfl | later
        · exact rankLt_of_not_rankLt notLess differ
        · exact below x later

theorem ascending_sortByRank (rank : α → Nat × Nat) (as : List α) : Ascending rank (sortByRank rank as) := by
  induction as with
  | nil => exact .nil
  | cons a as ih => exact ih.insert a

theorem mem_sortByRank (injective : ∀ {a b}, rank a = rank b → a = b) {x : α} {as : List α} :
    x ∈ sortByRank rank as ↔ x ∈ as := by
  induction as with
  | nil => exact Iff.rfl
  | cons a as ih =>
    constructor
    · intro member
      rcases mem_of_mem_insertByRank member with rfl | later
      · exact List.mem_cons_self ..
      · exact List.mem_cons_of_mem a (ih.mp later)
    · intro member
      rcases List.mem_cons.mp member with rfl | later
      · exact mem_insertByRank_self injective _ _
      · exact mem_insertByRank_of_mem (ih.mpr later)

/-- Ascending lists are determined by their elements. -/
theorem Ascending.eq_of_mem_iff {as bs : List α} (h : Ascending rank as) (k : Ascending rank bs)
    (same : ∀ x, x ∈ as ↔ x ∈ bs) : as = bs := by
  let less (a b : α) : Prop := rankLt (rank a) (rank b) = true
  have irrefl : Std.Irrefl less := ⟨fun a => rankLt_irrefl (rank a)⟩
  have antisymm : Std.Antisymm less :=
    ⟨fun a b first second => absurd (rankLt_trans first second) (rankLt_irrefl (rank a))⟩
  exact List.Pairwise.eq_of_mem_iff (r := less) h k same

end Sorting

theorem CharClass.all_rank (k : CharClass) : all[k.rank]? = some k := by
  cases k <;> rfl

theorem CharClass.rank_injective {j k : CharClass} (same : j.rank = k.rank) : j = k := by
  have found := all_rank j
  rw [same, all_rank k] at found
  exact (Option.some.inj found).symm

theorem Usage.rank_injective {u v : Usage} (same : u.rank = v.rank) : u = v := by
  cases u with
  | terminal t =>
    cases v with
    | terminal t' => exact congrArg terminal (congrArg TerminalId.mk (Prod.mk.inj same).2)
    | _ => cases same
  | any =>
    cases v with
    | any => rfl
    | _ => cases same
  | charClass j =>
    cases v with
    | charClass k => exact congrArg charClass (CharClass.rank_injective (Prod.mk.inj same).2)
    | _ => cases same
  | set i =>
    cases v with
    | set j => exact congrArg set (congrArg SetId.mk (Prod.mk.inj same).2)
    | _ => cases same

theorem SetMember.rank_injective {m n : SetMember} (same : m.toUsage.rank = n.toUsage.rank) : m = n := by
  have member := m.ofSymbol?_toUsage
  rw [Usage.rank_injective same, n.ofSymbol?_toUsage] at member
  exact (Option.some.inj member).symm

end Earley
