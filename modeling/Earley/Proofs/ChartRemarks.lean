import Earley.Chart.Schedule
import Earley.Proofs.ChartClosure

/-!
# What serving an item records

Whatever order items arrive in, serving an item of a given key records the same about the items of the state: no
remark is ever taken back, and the new ones depend on the key and on which keys earlier states hold, not on
positions. References are read by a naming that stays the same while the state grows.
-/

namespace Earley.Chart

variable {name : ItemRef → Option Place}

def Cause.Gives (name : ItemRef → Option Place) : Cause → Remark → Prop
  | _, .present => True
  | .predicted ref, .predictor place => place = name ref
  | .advanced l _ _, .link previous consumed => previous = name l.previous ∧ consumed = l.child.consumed name
  | _, _ => False

theorem mem_pushNew [BEq α] [LawfulBEq α] {xs : Array α} {x y : α} : y ∈ pushNew xs x ↔ y ∈ xs ∨ y = x := by
  unfold pushNew
  split
  case isTrue present =>
    have known : x ∈ xs := by simpa using present
    exact ⟨.inl, fun h => h.elim id fun same => same ▸ known⟩
  case isFalse => exact Array.mem_push

theorem mem_foldl_pushNew [BEq α] [LawfulBEq α] {xs : Array α} {ys : List α} {y : α} :
    y ∈ ys.foldl pushNew xs ↔ y ∈ xs ∨ y ∈ ys := by
  induction ys generalizing xs with
  | nil => simp
  | cons x ys ih => simp only [List.foldl_cons, ih, mem_pushNew, List.mem_cons, or_assoc]

namespace Item

theorem notes_arrive {key : ItemKey} {here : ItemRef} {cause : Cause} {r : Remark} :
    (arrive key here cause).Notes name r ↔ cause.Gives name r := by
  cases r <;> cases cause <;> simp [arrive, Notes, Cause.Gives]

theorem notes_rearrive {item : Item} {cause : Cause} {r : Remark} :
    (item.rearrive cause).Notes name r ↔ item.Notes name r ∨ cause.Gives name r := by
  cases cause with
  | initial => cases r <;> simp [rearrive, Notes, Cause.Gives]
  | predicted ref => cases r <;> simp [rearrive, Notes, Cause.Gives, mem_pushNew, or_and_right, exists_or]
  | advanced l penalty start =>
    simp only [rearrive]
    split
    case isTrue present =>
      have known : l ∈ item.links := by simpa using present
      cases r <;> simp only [Notes, Cause.Gives, or_false, or_self]
      rename_i previous consumed
      exact ⟨.inl, fun h => h.elim id fun same => ⟨l, known, same⟩⟩
    case isFalse => cases r <;> simp [Notes, Cause.Gives, or_and_right, exists_or]

theorem notes_notePredicted {item : Item} {refs : List ItemRef} {r : Remark} :
    (item.notePredicted refs).Notes name r ↔ item.Notes name r ∨ ∃ ref ∈ refs, r = .predicted (name ref) := by
  cases r <;> simp [notePredicted, Notes, mem_foldl_pushNew, or_and_right, exists_or]

theorem notes_noteCompleted {item : Item} {refs : List ItemRef} {r : Remark} :
    (item.noteCompleted refs).Notes name r ↔ item.Notes name r ∨ ∃ ref ∈ refs, r = .completed (name ref) := by
  cases r <;> simp [noteCompleted, Notes, mem_foldl_pushNew, or_and_right, exists_or]

end Item

namespace State

def Records (name : ItemRef → Option Place) (s : State) (key : ItemKey) (r : Remark) : Prop :=
  ∃ (i : Nat) (item : Item), s.items[i]? = some item ∧ item.key = key ∧ item.Notes name r

theorem records_present {s : State} {key : ItemKey} : s.Records name key .present ↔ s.Holds key := by
  simp [Records, Holds, Item.Notes]

theorem not_records_entered {token : Option Token} {key : ItemKey} {r : Remark} :
    ¬ (entered token).Records name key r := by
  simp [Records, entered]

theorem records_push {s : State} {item : Item} {key : ItemKey} {r : Remark} :
    (s.push item).Records name key r ↔ s.Records name key r ∨ key = item.key ∧ item.Notes name r := by
  constructor
  · rintro ⟨i, other, found, rfl, notes⟩
    rw [getElem?_push] at found
    split at found
    · cases found
      exact .inr ⟨rfl, notes⟩
    · exact .inl ⟨i, other, found, rfl, notes⟩
  · rintro (⟨i, other, found, same, notes⟩ | ⟨rfl, notes⟩)
    · have bound := (Array.getElem?_eq_some_iff.mp found).1
      exact ⟨i, other, by rw [getElem?_push, if_neg (Nat.ne_of_lt bound)]; exact found, same, notes⟩
    · exact ⟨s.items.size, item, by rw [getElem?_push, if_pos rfl], rfl, notes⟩

/-- A change of one item that adds remarks. -/
theorem records_mapItem {s : State} {i : Nat} {item : Item} {f : Item → Item} {more : Remark → Prop}
    (found : s.items[i]? = some item) (same : (f item).key = item.key)
    (notes : ∀ r, (f item).Notes name r ↔ item.Notes name r ∨ more r) {key : ItemKey} {r : Remark} :
    (s.mapItem i f).Records name key r ↔ s.Records name key r ∨ key = item.key ∧ more r := by
  have here : (s.mapItem i f).items[i]? = some (f item) := by rw [getElem?_mapItem, if_pos rfl, found]; rfl
  constructor
  · rintro ⟨k, other, found', rfl, noted⟩
    by_cases at' : i = k
    · subst at'
      cases here.symm.trans found'
      rcases (notes r).mp noted with old | new
      · exact .inl ⟨i, item, found, same.symm, old⟩
      · exact .inr ⟨same, new⟩
    · rw [getElem?_mapItem, if_neg at'] at found'
      exact .inl ⟨k, other, found', rfl, noted⟩
  · rintro (⟨k, other, found', rfl, noted⟩ | ⟨rfl, new⟩)
    · by_cases at' : i = k
      · subst at'
        cases found.symm.trans found'
        exact ⟨i, f item, here, same, (notes r).mpr (.inl noted)⟩
      · exact ⟨k, other, by rw [getElem?_mapItem, if_neg at']; exact found', rfl, noted⟩
    · exact ⟨i, f item, here, same, (notes r).mpr (.inr new)⟩

theorem records_add {s : State} (h : s.Coherent) {j : Nat} {cause : Cause} {added key : ItemKey} {r : Remark} :
    (s.add j cause added).1.Records name key r ↔ s.Records name key r ∨ key = added ∧ cause.Gives name r := by
  rcases add_cases h j cause added with ⟨i, item, found, rfl, result⟩ | ⟨new, result⟩
  · rw [result]
    exact records_mapItem found (item.grows_rearrive cause).key fun r => Item.notes_rearrive
  · rw [result, records_push, Item.key_arrive, Item.notes_arrive]

/-- Adding keys keeps a state coherent and loses nothing. -/
theorem addAll_coherent {s : State} (h : s.Coherent) (j : Nat) (cause : Cause) (keys : List ItemKey) :
    (s.addAll j cause keys).1.Coherent ∧ s.Extends (s.addAll j cause keys).1 := by
  induction keys generalizing s with
  | nil => exact ⟨h, .refl s⟩
  | cons key keys ih =>
    have added := add_added h j cause key
    obtain ⟨coherent, more⟩ := ih added.coherent
    exact ⟨coherent, added.more.trans more⟩

theorem records_addAll {s : State} (h : s.Coherent) {j : Nat} {cause : Cause} {keys : List ItemKey} {key : ItemKey}
    {r : Remark} : (s.addAll j cause keys).1.Records name key r ↔
      s.Records name key r ∨ key ∈ keys ∧ cause.Gives name r := by
  induction keys generalizing s with
  | nil => simp [addAll]
  | cons added keys ih =>
    simp only [addAll, ih (add_added h j cause added).coherent, records_add h, List.mem_cons, or_and_right, or_assoc]

structure Named (name : ItemRef → Option Place) (j : Nat) (s : State) : Prop where
  place : ∀ {i : Nat} {item : Item}, s.items[i]? = some item → name ⟨j, i⟩ = some ⟨j, item.key⟩

theorem Named.before {j : Nat} {s s' : State} (h : s'.Named name j) (more : s.Extends s') : s.Named name j := by
  refine ⟨fun found => ?_⟩
  obtain ⟨item', found', grows⟩ := more.item found
  rw [h.place found', grows.key]

/-- Adding keys answers with the items that have them. -/
theorem map_name_addAll {s : State} (h : s.Coherent) {j : Nat} {cause : Cause} {keys : List ItemKey}
    (named : (s.addAll j cause keys).1.Named name j) :
    (s.addAll j cause keys).2.map name = keys.map fun key => some ⟨j, key⟩ := by
  induction keys generalizing s with
  | nil => rfl
  | cons key keys ih =>
    have added := add_added h j cause key
    simp only [addAll, List.map_cons] at named ⊢
    generalize s.add j cause key = result at *
    obtain ⟨item, found, rfl, -⟩ := added.noted
    obtain ⟨item', found', grows⟩ := (addAll_coherent added.coherent j cause keys).2.item found
    have first : name result.2 = some ⟨j, item.key⟩ := by
      rw [← grows.key, ← named.place found', ← added.state]
    rw [first, ih added.coherent named]

end State

def Place.StepsTo (g : Grammar) (j : Nat) (place : Place) (key : ItemKey) : Prop :=
  ¬ (place.state = j ∧ g.isSaturated place.key) ∧ key ∈ g.nextKeys place.key

def Place.Sends (g : Grammar) (j : Nat) (place : Place) (consumed : Consumed) (key : ItemKey) (r : Remark) : Prop :=
  place.StepsTo g j key ∧ (r = .present ∨ r = .link (some place) consumed)

def Place.Resumes (g : Grammar) (j : Nat) (place : Place) (completed key : ItemKey) (r : Remark) : Prop :=
  place.Sends g j (.completed (some ⟨j, completed⟩)) key r ∨
    key = completed ∧ ∃ k, place.StepsTo g j k ∧ r = .completed (some ⟨j, k⟩)

/-- What serving an item of state number `j` records, where `holds` tells the places of earlier states. -/
def Due (g : Grammar) (holds : Place → Prop) (j : Nat) (served key : ItemKey) (r : Remark) : Prop :=
  match served.op with
  | .predict target =>
    key ∈ g.openingKeys target j ∧ (r = .present ∨ r = .predictor (some ⟨j, served⟩)) ∨
      key = served ∧ (∃ k ∈ g.openingKeys target j, r = .predicted (some ⟨j, k⟩)) ∨
      (g.targetNullCost target).isSome ∧ Place.Sends g j ⟨j, served⟩ (.null target) key r
  | .passEmpty => Place.Sends g j ⟨j, served⟩ .empty key r
  | .scan _ => False
  | .complete target => ∃ waiter, holds ⟨served.origin, waiter⟩ ∧ waiter.op = .predict target ∧
      Place.Resumes g j ⟨served.origin, waiter⟩ served key r

def HoldsAt (states : Array State) (place : Place) : Prop :=
  ∃ s, states[place.state]? = some s ∧ s.Holds place.key

section Steps

variable {g : Grammar} {past : Array State} {s : State} {key : ItemKey} {r : Remark}

theorem advance_coherent (h : s.Coherent) (j : Nat) (ref : ItemRef) (item : Item) (child : Child) (cost : Penalty) :
    (advance g j s ref item child cost).1.Coherent ∧ s.Extends (advance g j s ref item child cost).1 := by
  unfold advance
  split
  · exact ⟨h, .refl s⟩
  · exact State.addAll_coherent h ..

/-- Moving an item on records its links at the items after it. -/
theorem records_advance (h : s.Coherent) {j : Nat} {ref : ItemRef} {item : Item} {child : Child} {cost : Penalty}
    (here : name ref = some ⟨ref.state, item.key⟩) :
    (advance g j s ref item child cost).1.Records name key r ↔ s.Records name key r ∨
      Place.Sends g j ⟨ref.state, item.key⟩ (child.consumed name) key r := by
  unfold advance Place.Sends Place.StepsTo
  split
  case isTrue stuck => simp [stuck]
  case isFalse free =>
    rw [State.records_addAll h]
    cases r <;> simp [free, Cause.Gives, here]

/-- Moving an item on answers with the items after it. -/
theorem mem_name_advance (h : s.Coherent) {j : Nat} {ref : ItemRef} {item : Item} {child : Child} {cost : Penalty}
    (named : (advance g j s ref item child cost).1.Named name j) {place : Option Place} :
    (∃ ref' ∈ (advance g j s ref item child cost).2, place = name ref') ↔
      ∃ k, Place.StepsTo g j ⟨ref.state, item.key⟩ k ∧ place = some ⟨j, k⟩ := by
  unfold advance Place.StepsTo at *
  split
  case isTrue stuck => simp [stuck]
  case isFalse free =>
    simp only [free, not_false_eq_true, true_and] at named ⊢
    simp only [eq_comm (a := place), ← List.mem_map, State.map_name_addAll h named]

/-- Notes on an item lose nothing. -/
theorem mapItem_note_extends {f : Item → Item} (i : Nat) (same : ∀ item : Item, (f item).key = item.key ∧
      (f item).start = item.start ∧ (f item).links = item.links) : s.Extends (s.mapItem i f) :=
  State.mapItem_extends s i fun item =>
    ⟨(same item).1, (same item).2.1, fun member => by rw [(same item).2.2]; exact member⟩

/-- Adding keys that an item predicts, and noting them at the item. -/
theorem records_opened (h : s.Coherent) {i j : Nat} {item : Item} {keys : List ItemKey}
    (found : s.items[i]? = some item) (named : (s.addAll j (.predicted ⟨j, i⟩) keys).1.Named name j) :
    ((s.addAll j (.predicted ⟨j, i⟩) keys).1.mapItem i
        (·.notePredicted (s.addAll j (.predicted ⟨j, i⟩) keys).2)).Records name key r ↔
      s.Records name key r ∨ key ∈ keys ∧ (r = .present ∨ r = .predictor (some ⟨j, item.key⟩)) ∨
        key = item.key ∧ ∃ k ∈ keys, r = .predicted (some ⟨j, k⟩) := by
  obtain ⟨item', found', grows⟩ := (State.addAll_coherent h j (.predicted ⟨j, i⟩) keys).2.item found
  have here : name ⟨j, i⟩ = some ⟨j, item.key⟩ := by rw [named.place found', grows.key]
  have gives : (Cause.predicted ⟨j, i⟩).Gives name r ↔ r = .present ∨ r = .predictor (some ⟨j, item.key⟩) := by
    cases r <;> simp [Cause.Gives, here]
  have places : (∃ ref ∈ (s.addAll j (.predicted ⟨j, i⟩) keys).2, r = .predicted (name ref)) ↔
      ∃ k ∈ keys, r = .predicted (some ⟨j, k⟩) := by
    have lists := congrArg (fun places => r ∈ places.map Remark.predicted) (State.map_name_addAll h named)
    simpa [eq_comm (a := r)] using lists
  rw [State.records_mapItem found' rfl fun r => Item.notes_notePredicted, State.records_addAll h, gives, places,
    grows.key, or_assoc]

theorem records_predict (h : s.Coherent) {i j : Nat} {item : Item} {target : Target} {holds : Place → Prop}
    (found : s.items[i]? = some item) (op : item.key.op = .predict target)
    (named : (predict g j s ⟨j, i⟩ item target).Named name j) :
    (predict g j s ⟨j, i⟩ item target).Records name key r ↔
      s.Records name key r ∨ Due g holds j item.key key r := by
  obtain ⟨coherent, more⟩ := State.addAll_coherent h j (.predicted ⟨j, i⟩) (g.openingKeys target j)
  have noted := mapItem_note_extends i (s := (s.addAll j (.predicted ⟨j, i⟩) (g.openingKeys target j)).1)
    (f := (·.notePredicted (s.addAll j (.predicted ⟨j, i⟩) (g.openingKeys target j)).2)) fun _ => ⟨rfl, rfl, rfl⟩
  simp only [Due, op]
  simp only [predict] at named ⊢
  split at named
  case h_1 cost null =>
    have still := coherent.mapItem i (f := (·.notePredicted (s.addAll j (.predicted ⟨j, i⟩) (g.openingKeys target j)).2))
      fun _ => rfl
    have later := (advance_coherent (g := g) still j ⟨j, i⟩ item (.null target) cost).2
    have here : name ⟨j, i⟩ = some ⟨j, item.key⟩ :=
      (named.before ((more.trans noted).trans later)).place found
    simp only [null, Option.isSome_some, true_and]
    rw [records_advance still here, records_opened h found (named.before (noted.trans later)), or_assoc, or_assoc]
    rfl
  case h_2 null =>
    simp only [null, Option.isSome_none, Bool.false_eq_true, false_and, or_false]
    exact records_opened h found (named.before noted)

/-- Moving on one item that waited, and noting it at the completed item. -/
theorem records_resume (h : s.Coherent) {i j w origin : Nat} {cost : Penalty} {opened : State} {waiter item : Item}
    (found : s.items[i]? = some item) (waits : opened.items[w]? = some waiter) (there : opened.Named name origin)
    (named : (resume g j ⟨j, i⟩ cost origin opened s w).Named name j) :
    (resume g j ⟨j, i⟩ cost origin opened s w).Records name key r ↔
      s.Records name key r ∨ Place.Resumes g j ⟨origin, waiter.key⟩ item.key key r := by
  simp only [resume, waits] at named ⊢
  obtain ⟨coherent, more⟩ := advance_coherent (g := g) h j ⟨origin, w⟩ waiter (.completed ⟨j, i⟩) cost
  obtain ⟨item', found', grows⟩ := more.item found
  have named := named.before (mapItem_note_extends i fun _ => ⟨rfl, rfl, rfl⟩)
  have here : name ⟨j, i⟩ = some ⟨j, item.key⟩ := by rw [named.place found', grows.key]
  have places : (∃ ref ∈ (advance g j s ⟨origin, w⟩ waiter (.completed ⟨j, i⟩) cost).2, r = .completed (name ref)) ↔
      ∃ k, Place.StepsTo g j ⟨origin, waiter.key⟩ k ∧ r = .completed (some ⟨j, k⟩) := by
    cases r <;> simp [mem_name_advance h named]
  rw [State.records_mapItem found' rfl fun r => Item.notes_noteCompleted, records_advance h (there.place waits), places,
    grows.key, or_assoc]
  simp only [Child.consumed, here, Place.Resumes]

theorem resume_coherent (h : s.Coherent) (j : Nat) (ref : ItemRef) (cost : Penalty) (origin : Nat) (opened : State)
    (w : Nat) : (resume g j ref cost origin opened s w).Coherent ∧
      s.Extends (resume g j ref cost origin opened s w) := by
  unfold resume
  split
  case h_1 waiter _ =>
    obtain ⟨coherent, more⟩ := advance_coherent (g := g) h j ⟨origin, w⟩ waiter (.completed ref) cost
    exact ⟨coherent.mapItem _ fun _ => rfl, more.trans (mapItem_note_extends _ fun _ => ⟨rfl, rfl, rfl⟩)⟩
  case h_2 => exact ⟨h, .refl s⟩

theorem resumeAll_coherent (h : s.Coherent) (j : Nat) (ref : ItemRef) (cost : Penalty) (origin : Nat) (opened : State)
    (ws : List Nat) : (ws.foldl (resume g j ref cost origin opened) s).Coherent ∧
      s.Extends (ws.foldl (resume g j ref cost origin opened) s) := by
  induction ws generalizing s with
  | nil => exact ⟨h, .refl s⟩
  | cons w ws ih =>
    obtain ⟨coherent, more⟩ := resume_coherent (g := g) h j ref cost origin opened w
    obtain ⟨coherent', more'⟩ := ih coherent
    exact ⟨coherent', more.trans more'⟩

theorem records_resumeAll (h : s.Coherent) {i j origin : Nat} {cost : Penalty} {opened : State} {item : Item}
    {ws : List Nat} (found : s.items[i]? = some item)
    (waits : ∀ w ∈ ws, ∃ waiter, opened.items[w]? = some waiter) (there : opened.Named name origin)
    (named : (ws.foldl (resume g j ⟨j, i⟩ cost origin opened) s).Named name j) :
    (ws.foldl (resume g j ⟨j, i⟩ cost origin opened) s).Records name key r ↔ s.Records name key r ∨
      ∃ w ∈ ws, ∃ waiter, opened.items[w]? = some waiter ∧ Place.Resumes g j ⟨origin, waiter.key⟩ item.key key r := by
  induction ws generalizing s item with
  | nil => simp
  | cons w ws ih =>
    obtain ⟨⟨waiter, here⟩, others⟩ := List.forall_mem_cons.mp waits
    obtain ⟨coherent, more⟩ := resume_coherent (g := g) h j ⟨j, i⟩ cost origin opened w
    obtain ⟨item', found', grows⟩ := more.item found
    have later := (resumeAll_coherent (g := g) coherent j ⟨j, i⟩ cost origin opened ws).2
    simp only [List.foldl_cons] at named ⊢
    rw [ih coherent found' others named, records_resume h found here there (named.before later), grows.key, or_assoc]
    simp [here]

theorem records_complete (old : ∀ {j : Nat} {s : State}, past[j]? = some s → s.Coherent ∧ s.Named name j)
    (h : s.Coherent) {i : Nat} {item : Item} {target : Target} (found : s.items[i]? = some item)
    (op : item.key.op = .complete target)
    (named : (complete g past s ⟨past.size, i⟩ item target).Named name past.size) :
    (complete g past s ⟨past.size, i⟩ item target).Records name key r ↔
      s.Records name key r ∨ Due g (HoldsAt past) past.size item.key key r := by
  simp only [Due, op]
  unfold complete at named ⊢
  split at named
  case h_1 opened state =>
    obtain ⟨coherent, there⟩ := old state
    have waits {w : Nat} : w ∈ opened.waiters target ↔ _ := coherent.mem_waiters
    rw [records_resumeAll h found (fun w member => (waits.mp member).imp fun _ both => both.1) there named]
    apply or_congr_right
    constructor
    · rintro ⟨w, member, waiter, place, resumes⟩
      obtain ⟨waiter', place', predicts⟩ := waits.mp member
      cases place.symm.trans place'
      exact ⟨waiter.key, ⟨opened, state, w, waiter, place, rfl⟩, predicts, resumes⟩
    · rintro ⟨key, ⟨opened', state', w, waiter, place, rfl⟩, predicts, resumes⟩
      cases state.symm.trans state'
      exact ⟨w, waits.mpr ⟨waiter, place, predicts⟩, waiter, place, resumes⟩
  case h_2 state =>
    have nothing (waiter : ItemKey) : ¬ HoldsAt past ⟨item.key.origin, waiter⟩ := by
      rintro ⟨opened, state', -⟩
      cases state.symm.trans state'
    simp [nothing]

/-- Serving an item records just what is due. -/
theorem records_serve (old : ∀ {j : Nat} {s : State}, past[j]? = some s → s.Coherent ∧ s.Named name j)
    (h : s.Coherent) {i : Nat} {item : Item} (found : s.items[i]? = some item)
    (named : (serve g past s i).Named name past.size) :
    (serve g past s i).Records name key r ↔
      s.Records name key r ∨ Due g (HoldsAt past) past.size item.key key r := by
  simp only [serve, found] at named ⊢
  cases op : item.key.op with
  | predict target =>
    simp only [op] at named ⊢
    exact records_predict h found op named
  | passEmpty =>
    simp only [op] at named ⊢
    obtain ⟨-, more⟩ := advance_coherent (g := g) h past.size ⟨past.size, i⟩ item .empty 0
    rw [records_advance h ((named.before more).place found)]
    simp only [Due, op, Child.consumed]
  | scan u => simp [Due, op]
  | complete target =>
    simp only [op] at named ⊢
    exact records_complete old h found op named

end Steps

end Earley.Chart
