/-!
# Penalties

A penalty is a number below `2 ^ 32`. Sums and multiples stop at the greatest penalty, so adding never
wraps and never lowers a cost.
-/

namespace Earley

structure Penalty where
  value : Nat
  le_greatest : value ≤ 4294967295
  deriving DecidableEq

namespace Penalty

def greatest : Penalty := ⟨4294967295, Nat.le_refl _⟩

def ofNat (n : Nat) : Penalty := ⟨min n 4294967295, Nat.min_le_right _ _⟩

instance (n : Nat) : OfNat Penalty n := ⟨ofNat n⟩

instance : Inhabited Penalty := ⟨0⟩

instance : LE Penalty := ⟨fun a b => a.value ≤ b.value⟩

instance : LT Penalty := ⟨fun a b => a.value < b.value⟩

instance (a b : Penalty) : Decidable (a ≤ b) := inferInstanceAs (Decidable (a.value ≤ b.value))

instance (a b : Penalty) : Decidable (a < b) := inferInstanceAs (Decidable (a.value < b.value))

instance : Min Penalty := ⟨fun a b => if a ≤ b then a else b⟩

instance : Add Penalty := ⟨fun a b => ofNat (a.value + b.value)⟩

def times (p : Penalty) (count : Nat) : Penalty := ofNat (p.value * count)

theorem ext {a b : Penalty} (h : a.value = b.value) : a = b := by
  cases a; cases b; cases h; rfl

theorem le_def {a b : Penalty} : a ≤ b ↔ a.value ≤ b.value := Iff.rfl

theorem lt_def {a b : Penalty} : a < b ↔ a.value < b.value := Iff.rfl

@[simp] theorem value_ofNat (n : Nat) : (ofNat n).value = min n 4294967295 := rfl

@[simp] theorem value_zero : (0 : Penalty).value = 0 := rfl

@[simp] theorem value_add (a b : Penalty) : (a + b).value = min (a.value + b.value) 4294967295 := rfl

@[simp] theorem value_times (p : Penalty) (count : Nat) :
    (p.times count).value = min (p.value * count) 4294967295 := rfl

@[simp] theorem zero_add (a : Penalty) : 0 + a = a := by
  apply ext
  have := a.le_greatest
  simp; omega

@[simp] theorem add_zero (a : Penalty) : a + 0 = a := by
  apply ext
  have := a.le_greatest
  simp; omega

theorem add_comm (a b : Penalty) : a + b = b + a := by
  apply ext
  simp [Nat.add_comm]

theorem add_assoc (a b c : Penalty) : a + b + c = a + (b + c) := by
  apply ext
  simp; omega

theorem add_le_add {a b c d : Penalty} (h : a ≤ c) (k : b ≤ d) : a + b ≤ c + d := by
  simp only [le_def, value_add] at *
  omega

theorem le_add_right (a b : Penalty) : a ≤ a + b := by
  have := a.le_greatest
  simp only [le_def, value_add]
  omega

theorem eq_zero_of_le {a : Penalty} (le : a ≤ 0) : a = 0 := ext (Nat.le_zero.mp le)

theorem add_eq_zero_iff {a b : Penalty} : a + b = 0 ↔ a = 0 ∧ b = 0 := by
  constructor
  · intro free
    have sum : (a + b).value = 0 := by rw [free]; rfl
    rw [value_add] at sum
    exact ⟨ext (by simp only [value_zero]; omega), ext (by simp only [value_zero]; omega)⟩
  · rintro ⟨rfl, rfl⟩
    rfl

theorem times_succ (p : Penalty) (count : Nat) : p.times (count + 1) = p.times count + p := by
  apply ext
  have := p.le_greatest
  simp [Nat.mul_succ]; omega

end Penalty

end Earley
