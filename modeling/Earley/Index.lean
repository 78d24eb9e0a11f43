import Std.Data.TreeMap

/-!
# Indexes

A finite map. Keys have addresses, numbers that tell most of them apart; the entries of one address are
searched in turn. Main statement: what is found after an insertion (`find?_insert`).
-/

namespace Earley

/-- Keys with a number that tells most of them apart. -/
class Addressed (κ : Type) where
  address : κ → Nat

structure Index (κ ν : Type) where
  entries : Std.TreeMap Nat (List (κ × ν))

namespace Index

def empty : Index κ ν := ⟨∅⟩

variable [DecidableEq κ]

def search (k : κ) : List (κ × ν) → Option ν
  | [] => none
  | e :: rest => if e.1 = k then some e.2 else search k rest

def put (k : κ) (v : ν) : List (κ × ν) → List (κ × ν)
  | [] => [(k, v)]
  | e :: rest => if e.1 = k then (k, v) :: rest else e :: put k v rest

theorem search_put (k other : κ) (v : ν) (entries : List (κ × ν)) :
    search other (put k v entries) = if k = other then some v else search other entries := by
  induction entries with
  | nil => simp [put, search]
  | cons e rest ih =>
    by_cases here : e.1 = k
    · by_cases same : k = other <;> simp [put, search, here, same]
    · by_cases same : e.1 = other
      · subst same
        simp [put, search, here, Ne.symm here]
      · simp [put, search, here, same, ih]

variable [Addressed κ]

def entriesNear (m : Index κ ν) (k : κ) : List (κ × ν) := m.entries.getD (Addressed.address k) []

def find? (m : Index κ ν) (k : κ) : Option ν := search k (m.entriesNear k)

def insert (m : Index κ ν) (k : κ) (v : ν) : Index κ ν :=
  ⟨m.entries.insert (Addressed.address k) (put k v (m.entriesNear k))⟩

@[simp] theorem find?_empty (k : κ) : (empty : Index κ ν).find? k = none := by
  simp [find?, entriesNear, empty, search]

theorem find?_insert (m : Index κ ν) (k other : κ) (v : ν) :
    (m.insert k v).find? other = if k = other then some v else m.find? other := by
  by_cases near : Addressed.address k = Addressed.address other
  · simp [find?, entriesNear, insert, near, search_put]
  · have differs : k ≠ other := fun h => near (h ▸ rfl)
    simp [find?, entriesNear, insert, Std.TreeMap.getD_insert, near, differs]

/-- The index with a value under a key, if there is a key. -/
def enter (m : Index κ ν) (k? : Option κ) (v : ν) : Index κ ν :=
  match k? with
  | some k => m.insert k v
  | none => m

theorem find?_enter (m : Index κ ν) (k? : Option κ) (other : κ) (v : ν) :
    (m.enter k? v).find? other = if k? = some other then some v else m.find? other := by
  cases k? with
  | none => rfl
  | some k => simp [enter, find?_insert]

end Index

end Earley
