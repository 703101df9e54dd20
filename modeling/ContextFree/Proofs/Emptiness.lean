import ContextFree.Proofs.Stages
import ContextFree.Proofs.Usefulness

namespace ContextFree

namespace Grammar

variable {g : Grammar}

theorem isEmptyLanguage_iff : g.isEmptyLanguage = true ↔ ∀ p ∈ g.productions, p.lhs ≠ g.start := by
  simp [isEmptyLanguage, productionsOf]

theorem Uses.exists_accepts {p : Production} (used : g.Uses p) (stored : p ∈ g.productions) :
    ∃ word, g.Accepts word := by
  obtain ⟨before, after, word, derivation, yields⟩ := used
  exact ⟨word, derivation.trans (.step (.apply before after stored) yields.derives)⟩

/-- A start symbol with productions has a word, if no production is there for nothing. -/
theorem Trim.isEmptyLanguage_iff (trim : g.Trim) : g.isEmptyLanguage = true ↔ ∀ word, ¬ g.Accepts word := by
  refine Grammar.isEmptyLanguage_iff.trans ⟨fun none word accepts => ?_, fun empty p stored _ => ?_⟩
  · obtain ⟨rhs, stored, _⟩ := yields_nonterminal_iff.mp (generates_iff_yields.mp accepts)
    exact none _ stored rfl
  · obtain ⟨word, accepts⟩ := (trim.used p stored).exists_accepts stored
    exact empty word accepts

/-- Where there is no word, nothing but the start symbol is needed. -/
theorem Tidy.eq_ofStart (tidy : g.Tidy) (empty : ∀ word, ¬ g.Accepts word) : g = ofStart g.start := by
  have none : ∀ p, p ∉ g.productions := by
    intro p stored
    obtain ⟨word, accepts⟩ := (tidy.used p stored).exists_accepts stored
    exact empty word accepts
  refine ext_mem (fun a => ?_) (fun t => ?_) (fun p => ?_) rfl
  · rw [ofStart, FiniteSet.mem_singleton_iff]
    constructor
    · intro declared
      refine Classical.byContradiction fun different => ?_
      obtain ⟨p, stored, _⟩ := tidy.defined a declared different
      exact none p stored
    · intro same
      exact same ▸ tidy.start
  · rw [tidy.letters t]
    simp [none, ofStart]
  · simp [none, ofStart]

end Grammar

/-- The grammar that is left tells by its start symbol whether the given one has a word. -/
theorem Grammar.isEmptyLanguage_of_convert {g : Grammar} {options : Options} {c : Conversion}
    (converted : g.convert options = .ok c) :
    (c.grammar.isEmptyLanguage = true ↔ ∀ word, ¬ g.Accepts word) ∧
      (c.grammar.isEmptyLanguage = true → c.grammar = ofStart g.start) := by
  obtain ⟨formed, passes, result, same, _⟩ := convert_eq_ok converted
  have ran := ran_of_runPasses result
  have tidy : c.grammar.Tidy := same ▸ ran.binarization_tidy formed
  have start : c.grammar.start = g.start := same ▸ ran.binarization_start formed
  have accepts : ∀ word, c.grammar.Accepts word ↔ g.Accepts word := by
    intro word
    rw [same]
    exact ran.binarization_accepts_iff formed
  have empty : c.grammar.isEmptyLanguage = true ↔ ∀ word, ¬ g.Accepts word :=
    tidy.isEmptyLanguage_iff.trans (forall_congr' fun word => not_congr (accepts word))
  refine ⟨empty, fun found => ?_⟩
  rw [← start]
  exact tidy.eq_ofStart (tidy.isEmptyLanguage_iff.mp found)

end ContextFree
