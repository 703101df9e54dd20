import ContextFree.Proofs.Flags
import ContextFree.Proofs.WellFormed

namespace ContextFree

/-- The text of the grammar that is converted and of what each pass makes of it. -/
def Passes.dump (g : Grammar) (passes : Passes) : String :=
  s!"Original grammar:\n{g.render}\n" ++
    s!"After eliminating ε-productions:\n{passes.epsilonFree.render}\n" ++
    s!"After eliminating unit productions:\n{passes.unitFree.render}\n" ++
    s!"After eliminating useless symbols:\n{passes.useful.render}\n" ++
    s!"After isolating terminals:\n{passes.isolation.grammar.render}\n" ++
    s!"After binarizing productions:\n{passes.binarization.grammar.render}\n"

namespace CommandLine

/-! ### The printed records -/

section

variable {r : Report} {filter : Filter} {threshold : Option Log.Level}

theorem Report.outcome_of_ok {stdout : String} (result : r.result = .ok stdout) : r.outcome filter threshold =
    ⟨0, stdout, filter.notice ++ Log.render 0 (r.records.filter (filter.prints threshold))⟩ := by
  simp only [outcome, result]

theorem Report.outcome_of_error {failure : Failure} (result : r.result = .error failure) : r.outcome filter threshold =
    ⟨1, "", filter.notice ++ Log.render 0 (r.records.filter (filter.prints threshold)) ++ failure.render⟩ := by
  simp only [outcome, result]

end

section

variable {libraries : Libraries} {environment : Environment} {arguments first : List String} {a : Arguments}
  {text : String}

theorem run_of_found (asked : libraries.parse arguments = .found a) : libraries.run environment arguments =
    (report a environment.read).outcome (libraries.filter environment) a.threshold := by
  rw [Libraries.run, asked]

theorem filter_of_unset (unset : environment.filters = none) : libraries.filter environment = ⟨"", Log.passes⟩ := by
  rw [Libraries.filter, unset]

end

/-! ### Stages -/

/-- A report with the same log that fails alike, or prints some text in front. -/
structure Report.Prepends (front : String → Prop) (r longer : Report) : Prop where
  records : longer.records = r.records
  result : (∃ failure, r.result = .error failure ∧ longer.result = .error failure) ∨
    ∃ stdout text, front text ∧ r.result = .ok stdout ∧ longer.result = .ok (text ++ stdout)

theorem Report.Prepends.outcome {front : String → Prop} {r longer : Report} (prepends : r.Prepends front longer)
    (filter : Filter) (threshold : Option Log.Level) :
    (longer.outcome filter threshold).code = (r.outcome filter threshold).code ∧
      (longer.outcome filter threshold).stderr = (r.outcome filter threshold).stderr ∧
        ((longer.outcome filter threshold).stdout = (r.outcome filter threshold).stdout ∧
            (r.outcome filter threshold).code = 1 ∨
          ∃ text, front text ∧
            (longer.outcome filter threshold).stdout = text ++ (r.outcome filter threshold).stdout) := by
  obtain ⟨records, ⟨failure, failed, again⟩ | ⟨stdout, text, isFront, plain, more⟩⟩ := prepends
  · rw [Report.outcome_of_error failed, Report.outcome_of_error again, records]
    exact ⟨rfl, rfl, .inl ⟨rfl, rfl⟩⟩
  · rw [Report.outcome_of_ok plain, Report.outcome_of_ok more, records]
    exact ⟨rfl, rfl, .inr ⟨text, isFront, rfl⟩⟩

section

variable {libraries : Libraries} (environment : Environment)

end

end CommandLine

end ContextFree
