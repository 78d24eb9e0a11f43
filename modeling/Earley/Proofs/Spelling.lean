import Earley.Grammar.Spelling
import Earley.Proofs.Reachable

/-!
# Spelling ends

A group is made of symbols that are there already, so the groups inside it are older than it is. This holds after any
history of construction, since nothing changes the production of a group, and it is why every symbol can be spelled out
(`spelling_ends`).
-/

namespace Earley.Grammar

variable {g : Grammar}

def Nested (g : Grammar) : Prop :=
  ∀ k d, g.group? k = some d → ∀ j, .group j ∈ d.production → j.index < k.index

theorem Scoped.nested (h : g.Scoped) : g.Nested := fun _ _ known _ member => h.group known member

theorem intercalate_cons (between first : String) (others : List String) :
    between.intercalate (first :: others) = first ++ String.join (others.map (between ++ ·)) := by
  induction others generalizing first with
  | nil => simp
  | cons second others ih => simp [ih second, String.append_assoc]

/-- Symbols after the first, each after a blank. -/
theorem spell_rest {text : GroupId → String} {ss : Production}
    (each : ∀ s ∈ ss, ∀ out, g.spellSymbol out s = some (out ++ g.symbolWith text s)) (out : String) (n : Nat) :
    (ss.zipIdx (n + 1)).foldlM (fun out (s, i) => g.spellSymbol (if 0 < i then out ++ " " else out) s) out =
      some (out ++ String.join (ss.map fun s => " " ++ g.symbolWith text s)) := by
  induction ss generalizing out n with
  | nil => simp
  | cons s ss ih =>
    obtain ⟨here, later⟩ := List.forall_mem_cons.mp each
    rw [List.zipIdx_cons, List.foldlM_cons]
    simp [here, ih later, String.append_assoc]

/-- A production is spelled out if all its symbols are. -/
theorem spellProduction_eq {text : GroupId → String} {p : Production}
    (each : ∀ s ∈ p, ∀ out, g.spellSymbol out s = some (out ++ g.symbolWith text s)) (out : String) :
    g.spellProduction out p = some (out ++ g.productionWith text p) := by
  cases p with
  | nil =>
    rw [spellProduction]
    rfl
  | cons s ss =>
    obtain ⟨here, later⟩ := List.forall_mem_cons.mp each
    rw [spellProduction]
    have rest := spell_rest later (out ++ g.symbolWith text s) 0
    simpa [here, productionWith, intercalate_cons, String.append_assoc, Function.comp_def] using rest

theorem spellSymbol_eq {text : GroupId → String} {s : Symbol}
    (group : ∀ k, s = .group k → ∀ out, g.spellSymbol out (.group k) = some (out ++ text k)) (out : String) :
    g.spellSymbol out s = some (out ++ g.symbolWith text s) := by
  cases s with
  | group k => exact group k rfl out
  | _ => rw [spellSymbol]; rfl

/-- A group is spelled out, at any depth that allows for the groups older than it. -/
theorem spellSymbol_group_eq (nested : g.Nested) {depth : Nat} {k : GroupId}
    (enough : ∀ d, g.group? k = some d → k.index < depth) (out : String) :
    g.spellSymbol out (.group k) = some (out ++ g.groupText depth k) := by
  induction depth generalizing k out with
  | zero =>
    cases known : g.group? k with
    | some d => exact absurd (enough d known) (Nat.not_lt_zero _)
    | none =>
      rw [spellSymbol]
      simp only [known]
      rfl
  | succ depth ih =>
    cases known : g.group? k with
    | none =>
      rw [spellSymbol]
      simp only [known, groupText]
    | some d =>
      have inside : ∀ out, g.spellProduction out d.production =
          some (out ++ g.productionWith (g.groupText depth) d.production) := by
        refine spellProduction_eq fun s member => spellSymbol_eq ?_
        rintro j rfl out
        refine ih (fun _ _ => ?_) out
        exact Nat.lt_of_lt_of_le (nested k d known j member) (Nat.le_of_lt_succ (enough d known))
      rw [spellSymbol]
      simp only [known, inside, groupText]
      simp [String.append_assoc]

/-- It takes the order of the groups: a group that is its own production is never spelled out. What would be written
for it holds what is written for it inside, which would have to be shorter. -/
theorem spellSymbol_eq_none {k : GroupId} {d : GroupDef} (known : g.group? k = some d)
    (itself : d.production = [.group k]) (out : String) : g.spellSymbol out (.group k) = none := by
  have inside (out : String) : g.spellSymbol out (.group k) =
      (g.spellSymbol (out ++ "(") (.group k)).map (· ++ ")" ++ d.suffix) := by
    conv => lhs; rw [spellSymbol]
    simp only [known]
    rw [spellProduction, itself]
    cases inner : g.spellSymbol (out ++ "(") (.group k) <;> simp [inner]
  have never (n : Nat) : ∀ out t, g.spellSymbol out (.group k) = some t → t.length = n → False := by
    induction n using Nat.strongRecOn with
    | ind n ih =>
      intro out t spelled size
      rw [inside] at spelled
      obtain ⟨t', spelled', rfl⟩ := Option.map_eq_some_iff.mp spelled
      refine ih t'.length ?_ (out ++ "(") t' spelled' rfl
      simp only [String.length_append] at size
      have : ")".length = 1 := rfl
      omega
  exact Option.eq_none_iff_forall_not_mem.mpr fun t spelled => never t.length out t spelled rfl

end Earley.Grammar

namespace Earley

/-- Whatever an author has done, a group has only older groups inside it, so every symbol and every production is
spelled out, with identifiers that name nothing by their labels. -/
theorem Reachable.spelling_ends (g : Grammar) (reachable : Reachable g) :
    (∀ k d, g.group? k = some d → ∀ j, .group j ∈ d.production → j.index < k.index) ∧
    ∀ out, (∀ s, g.spellSymbol out s = some (out ++ g.symbolText s)) ∧
      ∀ p, g.spellProduction out p = some (out ++ g.productionText p) := by
  have nested := reachable.inScope.nested
  have symbol (s : Symbol) (out : String) : g.spellSymbol out s = some (out ++ g.symbolText s) := by
    refine Grammar.spellSymbol_eq ?_ out
    rintro k rfl out
    exact Grammar.spellSymbol_group_eq nested (fun d known => (Array.getElem?_eq_some_iff.mp known).1) out
  exact ⟨nested, fun out => ⟨fun s => symbol s out, fun p => Grammar.spellProduction_eq (fun s _ => symbol s) out⟩⟩

/-- A list of letters and lists, where a group inside another stands in a rule that mentions itself. -/
def listGrammar : Grammar :=
  let calls : List Call := [.rule "list", .group [.usage (.terminal (.ofChar 'a'))] 0 1,
    .group [.group ⟨0⟩, .rule ⟨2⟩] 2 0, .addProduction ⟨2⟩ [.group ⟨1⟩, .group ⟨0⟩]]
  calls.foldl (fun g c => c.after g) (.empty false)

theorem listGrammar_spelled :
    listGrammar.spellSymbol "" (.group ⟨1⟩) = some "(('a')? list)\x7b2,\x7d" ∧
      listGrammar.spellSymbol "no " (.group ⟨2⟩) = some "no GroupId(2)" := by
  have reachable : Reachable listGrammar := reachable_foldl (.empty false) _
  obtain ⟨-, spelled⟩ := Reachable.spelling_ends listGrammar reachable
  refine ⟨((spelled "").1 (.group ⟨1⟩)).trans ?_, ((spelled "no ").1 (.group ⟨2⟩)).trans ?_⟩
  · decide +kernel
  · decide +kernel

end Earley
