import ContextFree.Proofs.Emptiness
import ContextFree.Proofs.Records
import ContextFree.Proofs.Verbosity

namespace ContextFree.CommandLine

variable {path text stdout : String} {a : Arguments} {read : String → Except FileError String} {g : Grammar}
  {options : Options} {c : Conversion}

/-- Of a conversion nothing but its own warning has the importance of one. -/
theorem select_reportConversion (converted : g.convert options = .ok c) :
    Log.select (some .warn) (reportConversion g options).records =
      if c.grammar.isEmptyLanguage then [⟨.warn, .program, "The grammar generates the empty language"⟩] else [] := by
  simp only [reportConversion, converted]
  rw [Log.select_append, (Log.minor_ofConversion g options).select_eq_nil, List.nil_append]
  split <;> rfl

/-- A text that leads to success describes a grammar that can be converted. -/
theorem reportText_eq_ok (succeeded : (reportText path text options).result = .ok stdout) :
    ∃ spec g c, Spec.ofText text = .ok spec ∧ spec.build = .ok g ∧ g.convert options = .ok c ∧
      (reportText path text options).records =
        Log.ofBuild spec ++
          ⟨.info, .program, s!"Read grammar from `{path}`"⟩ :: (reportConversion g options).records := by
  cases parsed : Spec.ofText text with
  | error e => simp [reportText, parsed] at succeeded
  | ok spec =>
    cases built : spec.build with
    | error e => simp [reportText, parsed, built] at succeeded
    | ok g =>
      cases converted : g.convert options with
      | error e => simp [reportText, parsed, built, reportConversion, converted] at succeeded
      | ok c => exact ⟨spec, g, c, rfl, built, converted, by simp [reportText, parsed, built]⟩

theorem report_eq_ok (succeeded : (report a read).result = .ok stdout) :
    ∃ options path text, a.options = .ok options ∧ a.path = some path ∧ read path = .ok text ∧
      report a read = reportText path text options := by
  cases chosen : a.options with
  | error failure => simp [report, chosen] at succeeded
  | ok options =>
    cases named : a.path with
    | none => simp [report, chosen, named] at succeeded
    | some path =>
      cases found : read path with
      | error e => simp [report, chosen, named, found] at succeeded
      | ok text => exact ⟨options, path, text, rfl, rfl, found, by simp [report, chosen, named, found]⟩

/-- Of a report of success nothing has the importance of a warning but that of an empty language. -/
theorem select_report (succeeded : (report a read).result = .ok stdout) :
    ∃ path text spec g c options, a.path = some path ∧ read path = .ok text ∧ Spec.ofText text = .ok spec ∧
      spec.build = .ok g ∧ g.convert options = .ok c ∧ Log.select (some .warn) (report a read).records =
        if c.grammar.isEmptyLanguage then [⟨.warn, .program, "The grammar generates the empty language"⟩] else [] := by
  obtain ⟨options, path, text, _, named, found, same⟩ := report_eq_ok succeeded
  rw [same] at succeeded ⊢
  obtain ⟨spec, g, c, parsed, built, converted, records⟩ := reportText_eq_ok succeeded
  refine ⟨path, text, spec, g, c, options, named, found, parsed, built, converted, ?_⟩
  rw [records, Log.select_append, (Log.minor_ofBuild spec).select_eq_nil, List.nil_append]
  exact select_reportConversion converted

theorem Report.outcome_eq_ok {r : Report} {filter : Filter} {threshold : Option Log.Level}
    (succeeded : (r.outcome filter threshold).code = 0) : ∃ stdout, r.result = .ok stdout ∧
      (r.outcome filter threshold).stderr =
        filter.notice ++ Log.render 0 (r.records.filter (filter.prints threshold)) := by
  cases result : r.result with
  | error failure => simp [outcome, result] at succeeded
  | ok stdout => exact ⟨stdout, rfl, by simp [outcome, result]⟩

/-- The grammar that a conversion leaves has no production for the start symbol exactly if the given
one has no word, and a run that is asked for no more than warnings has one exactly then. What is written of
the log is all that a run writes there. -/
theorem warns_iff_empty {libraries : Libraries} (lawful : libraries.Lawful) :
    (∀ (g : Grammar) (options : Options) (c : Conversion), g.convert options = .ok c →
      (c.grammar.isEmptyLanguage = true ↔ ∀ word, ¬ g.Accepts word) ∧
        (c.grammar.isEmptyLanguage = true → c.grammar = .ofStart g.start)) ∧
    ∀ (environment : Environment) (arguments : List String) (a : Arguments),
      libraries.parse arguments = .found a → (libraries.run environment arguments).code = 0 →
      Flag.verbose.count arguments = 0 → Flag.quiet.count arguments = 0 →
      ∃ path text spec g records, a.path = some path ∧ environment.read path = .ok text ∧
        Spec.ofText text = .ok spec ∧ spec.build = .ok g ∧
        ((∀ word, ¬ g.Accepts word) →
          Log.select (some .warn) records = [⟨.warn, .program, "The grammar generates the empty language"⟩]) ∧
        ((∃ word, g.Accepts word) → Log.select (some .warn) records = []) ∧
        (libraries.run environment arguments).stderr = (libraries.filter environment).notice ++
          Log.render 0 (records.filter ((libraries.filter environment).prints (some .warn))) ∧
        (environment.filters = none →
          ((∀ word, ¬ g.Accepts word) → (libraries.run environment arguments).stderr =
            " WARN  chomsky > The grammar generates the empty language\n") ∧
          ((∃ word, g.Accepts word) → (libraries.run environment arguments).stderr = "")) := by
  refine ⟨fun g options c => Grammar.isEmptyLanguage_of_convert, ?_⟩
  intro environment arguments a asked succeeded noVerbose noQuiet
  rw [run_of_found asked, lawful.threshold_eq_warn asked noVerbose noQuiet] at succeeded ⊢
  obtain ⟨stdout, result, stderr⟩ := Report.outcome_eq_ok succeeded
  obtain ⟨path, text, spec, g, c, options, named, found, parsed, built, converted, warning⟩ := select_report result
  obtain ⟨empty, _⟩ := Grammar.isEmptyLanguage_of_convert converted
  have loud : (∀ word, ¬ g.Accepts word) → Log.select (some .warn) (report a environment.read).records =
      [⟨.warn, .program, "The grammar generates the empty language"⟩] := by
    intro none
    rw [warning, if_pos (empty.mpr none)]
  have still : (∃ word, g.Accepts word) → Log.select (some .warn) (report a environment.read).records = [] := by
    intro ⟨word, accepts⟩
    rw [warning, if_neg fun reported => empty.mp reported word accepts]
  refine ⟨path, text, spec, g, _, named, found, parsed, built, loud, still, stderr, fun unset => ?_⟩
  have selected : ((report a environment.read).outcome (libraries.filter environment) (some .warn)).stderr =
      Log.render 0 (Log.select (some .warn) (report a environment.read).records) := by
    rw [stderr, filter_of_unset unset, String.empty_append]
    rfl
  rw [selected]
  refine ⟨fun none => ?_, fun some => ?_⟩
  · rw [loud none]
    decide +kernel
  · rw [still some]
    rfl

/-- A text whose only production never comes to an end. -/
def barren : String := "nonterminals: S\nterminals: a\nstart: S\nS -> S a\n"

theorem barren_warns : ∃ g c, Grammar.convert g {} = .ok c ∧ c.grammar = .ofStart g.start ∧
    (∀ word, ¬ g.Accepts word) ∧
      (run ["grammar"] fun _ => .ok barren).stderr = " WARN  chomsky > The grammar generates the empty language\n" := by
  obtain ⟨left, warned⟩ := warns_iff_empty standard_lawful
  obtain ⟨_, _, spec, g, _, _, found, parsed, built, _, _, _, all⟩ := warned ⟨fun _ => .ok barren, none⟩
    ["grammar"] { path := some "grammar" } (by decide +kernel) (by decide +kernel) (by decide +kernel)
    (by decide +kernel)
  obtain rfl := Except.ok.inj found
  have described : Spec.ofText barren = .ok ⟨["S"], ["a"], "S", [⟨"S", [["S", "a"]]⟩]⟩ := by decide +kernel
  obtain rfl := Except.ok.inj (described.symm.trans parsed)
  have evaluated : (Spec.build ⟨["S"], ["a"], "S", [⟨"S", [["S", "a"]]⟩]⟩ >>= fun g =>
      (·.grammar.isEmptyLanguage) <$> g.convert {}) = .ok true := by decide +kernel
  rw [built] at evaluated
  obtain ⟨c, converted, empty⟩ := map_eq_ok_iff.mp evaluated
  obtain ⟨reported, only⟩ := left g {} c converted
  have none := reported.mp empty
  exact ⟨g, c, converted, only empty, none, (all rfl).1 none⟩

end ContextFree.CommandLine
