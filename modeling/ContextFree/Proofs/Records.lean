import ContextFree.Log.Narration

namespace ContextFree.Log

/-- There is no warning among the records. -/
def Minor (records : List Record) : Prop :=
  ∀ r ∈ records, r.level ≠ .warn

@[simp] theorem minor_nil : Minor [] :=
  List.forall_mem_nil _

@[simp] theorem minor_cons {r : Record} {rest : List Record} :
    Minor (r :: rest) ↔ r.level ≠ .warn ∧ Minor rest :=
  List.forall_mem_cons

@[simp] theorem minor_append {first second : List Record} :
    Minor (first ++ second) ↔ Minor first ∧ Minor second :=
  List.forall_mem_append

@[simp] theorem minor_map {α : Type} {f : α → Record} {xs : List α} :
    Minor (xs.map f) ↔ ∀ x ∈ xs, (f x).level ≠ .warn :=
  List.forall_mem_map

@[simp] theorem minor_flatMap {α : Type} {f : α → List Record} {xs : List α} :
    Minor (xs.flatMap f) ↔ ∀ x ∈ xs, Minor (f x) := by
  simp only [Minor, List.mem_flatMap]
  exact ⟨fun minor x member r inner => minor r ⟨x, member, inner⟩,
    fun minor r ⟨x, member, inner⟩ => minor x member r inner⟩

@[simp] theorem minor_rounds (component : Component) (subject : String) (n : Nat) :
    Minor (rounds component subject n) := by
  simp [rounds]

theorem minor_ofBuild (spec : Spec) : Minor (ofBuild spec) := by
  refine minor_append.mpr ⟨?_, ?_⟩
  · simp
  · split <;> simp

theorem minor_ofEpsilonSearch (g : Grammar) : Minor (ofEpsilonSearch g) := by
  simp [ofEpsilonSearch, nullableRounds]

theorem minor_ofUnitFree (g out : Grammar) : Minor (ofUnitFree g out) := by
  simp [ofUnitFree]

theorem minor_ofUseful (g out : Grammar) : Minor (ofUseful g out) := by
  rw [ofUseful, ofNonGenerating, ofUnreachable]
  split <;> simp

theorem minor_ofIsolation (isolation : Isolation) : Minor (ofIsolation isolation) := by
  simp [ofIsolation, ofMinted]

theorem minor_ofBinarization (split : Binarization) : Minor (ofBinarization split) := by
  simp [ofBinarization, ofMinted]

theorem minor_ofPasses (passes : Passes) : Minor (ofPasses passes) := by
  simp [ofPasses, ofEpsilonFree, afterStage, counts, minor_ofUnitFree, minor_ofUseful, minor_ofIsolation,
    minor_ofBinarization]

/-- No part of a conversion warns. -/
theorem minor_ofConversion (g : Grammar) (options : Options) : Minor (ofConversion g options) := by
  rw [ofConversion]
  split
  · exact minor_nil
  · refine minor_append.mpr ⟨minor_rounds _ _ _, ?_⟩
    split
    · exact minor_nil
    · refine minor_append.mpr ⟨minor_cons.mpr ⟨Level.noConfusion, minor_ofEpsilonSearch g⟩, ?_⟩
      split
      · exact minor_nil
      · exact minor_ofPasses _

theorem select_append (threshold : Option Level) (first second : List Record) :
    select threshold (first ++ second) = select threshold first ++ select threshold second :=
  List.filter_append first second

/-- Without warnings nothing is printed of what is below them. -/
theorem Minor.select_eq_nil {records : List Record} (minor : Minor records) : select (some .warn) records = [] := by
  refine List.filter_eq_nil_iff.mpr fun r member => ?_
  have notWarning := minor r member
  cases level : r.level with
  | warn => exact absurd level notWarning
  | info | debug | trace => simp [passes, level, Level.rank]

end ContextFree.Log
