/-!
# Totals

The sum of a measure over a list.
-/

namespace Earley

def total (measure : α → Nat) : List α → Nat
  | [] => 0
  | a :: as => measure a + total measure as

@[simp] theorem total_nil (measure : α → Nat) : total measure [] = 0 := rfl

@[simp] theorem total_cons (measure : α → Nat) (a : α) (as : List α) :
    total measure (a :: as) = measure a + total measure as := rfl

theorem total_append (measure : α → Nat) (as bs : List α) :
    total measure (as ++ bs) = total measure as + total measure bs := by
  induction as with
  | nil => simp
  | cons a as ih => simp [ih, Nat.add_assoc]

theorem total_map (measure : β → Nat) (f : α → β) (as : List α) :
    total measure (as.map f) = total (fun a => measure (f a)) as := by
  induction as with
  | nil => rfl
  | cons a as ih => simp only [List.map_cons, total_cons, ih]

/-- Replacing an element by one that measures less lowers the total. -/
theorem total_set_lt (measure : α → Nat) (as : List α) (i : Nat) (new : α) (hi : i < as.length)
    (h : measure new < measure as[i]) : total measure (as.set i new) < total measure as := by
  induction as generalizing i with
  | nil => simp at hi
  | cons a as ih =>
    cases i with
    | zero => simpa using h
    | succ i => simpa using ih i (by simpa using hi) (by simpa using h)

end Earley
