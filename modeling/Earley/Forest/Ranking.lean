import Earley.Penalty

/-!
# Ranking

Merging lists that are sorted by penalty. Where penalties are equal, the elements of the first list come
first.
-/

namespace Earley.Forest

/-- Whether every element costs at most as much as those after it. -/
def Ranked (cost : α → Penalty) (as : List α) : Prop := as.Pairwise fun a b => cost a ≤ cost b

/-- Puts an element before the first that costs as much or more; `rest` is what comes after it, merged
with what is left. -/
def mergeHead (cost : α → Penalty) (a : α) (rest : List α → List α) : List α → List α
  | [] => a :: rest []
  | b :: bs => if cost a ≤ cost b then a :: rest (b :: bs) else b :: mergeHead cost a rest bs

def merge (cost : α → Penalty) : List α → List α → List α
  | [], bs => bs
  | a :: as, bs => mergeHead cost a (merge cost as) bs

/-- The cheapest `limit` elements of two sorted lists. -/
def cheapest (cost : α → Penalty) (limit : Nat) (as bs : List α) : List α := (merge cost as bs).take limit

variable {cost : α → Penalty}

theorem mergeHead_perm {a : α} {rest : List α → List α} {as : List α} (h : ∀ bs, (rest bs).Perm (as ++ bs))
    (bs : List α) : (mergeHead cost a rest bs).Perm (a :: as ++ bs) := by
  induction bs with
  | nil => exact (h []).cons a
  | cons b bs ih =>
    unfold mergeHead
    split
    · exact (h (b :: bs)).cons a
    · exact (ih.cons b).trans List.perm_middle.symm

/-- Merging loses nothing and adds nothing. -/
theorem merge_perm (as bs : List α) : (merge cost as bs).Perm (as ++ bs) := by
  induction as generalizing bs with
  | nil => exact .refl _
  | cons a as ih => exact mergeHead_perm ih bs

theorem mergeHead_ranked {a : α} {rest : List α → List α} {as : List α}
    (perm : ∀ bs, (rest bs).Perm (as ++ bs)) (ranked : ∀ bs, Ranked cost bs → Ranked cost (rest bs))
    (least : ∀ c ∈ as, cost a ≤ cost c) (bs : List α) (h : Ranked cost bs) :
    Ranked cost (mergeHead cost a rest bs) := by
  induction bs with
  | nil =>
    refine List.pairwise_cons.mpr ⟨fun c hc => ?_, ranked [] h⟩
    exact least c (by simpa using (perm []).mem_iff.mp hc)
  | cons b bs ih =>
    obtain ⟨hb, hbs⟩ := List.pairwise_cons.mp h
    unfold mergeHead
    split
    case isTrue le =>
      refine List.pairwise_cons.mpr ⟨fun c hc => ?_, ranked (b :: bs) h⟩
      rcases List.mem_append.mp ((perm (b :: bs)).mem_iff.mp hc) with inside | outside
      · exact least c inside
      · rcases List.mem_cons.mp outside with rfl | later
        · exact le
        · exact Nat.le_trans le (hb c later)
    case isFalse lt =>
      refine List.pairwise_cons.mpr ⟨fun c hc => ?_, ih hbs⟩
      have below : cost b ≤ cost a := Nat.le_of_lt (Nat.lt_of_not_le lt)
      rcases List.mem_append.mp ((mergeHead_perm perm bs).mem_iff.mp hc) with inside | outside
      · rcases List.mem_cons.mp inside with rfl | later
        · exact below
        · exact Nat.le_trans below (least c later)
      · exact hb c outside

/-- Merging sorted lists gives a sorted list. -/
theorem merge_ranked {as bs : List α} (ha : Ranked cost as) (hb : Ranked cost bs) :
    Ranked cost (merge cost as bs) := by
  induction as generalizing bs with
  | nil => exact hb
  | cons a as ih =>
    obtain ⟨least, has⟩ := List.pairwise_cons.mp ha
    exact mergeHead_ranked (merge_perm as) (fun _ h => ih has h) least bs hb

theorem cheapest_ranked {limit : Nat} {as bs : List α} (ha : Ranked cost as) (hb : Ranked cost bs) :
    Ranked cost (cheapest cost limit as bs) :=
  (merge_ranked ha hb).sublist (List.take_sublist _ _)

end Earley.Forest
