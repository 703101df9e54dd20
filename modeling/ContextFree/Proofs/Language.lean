import ContextFree.Proofs.NormalForm

namespace ContextFree

namespace Passes.Ran

variable {g : Grammar} {options : Options} {passes : Passes} (ran : passes.Ran g options) (formed : g.WellFormed)
include ran formed

theorem start_mem_useful : g.start ∈ passes.useful.nonterminals := by
  have declared := (ran.useful_wellFormed formed).start
  rwa [ran.useful_start] at declared

theorem generates_of_binarization {a : Name} (declared : a ∈ passes.useful.nonterminals) {word : List Name}
    (generates : passes.binarization.grammar.Generates a word) : g.Generates a word :=
  ran.derives_of_useful ((ran.generates_iff_useful formed declared).mp generates)

theorem binarization_start_epsilon_iff :
    ⟨g.start, []⟩ ∈ passes.binarization.grammar.productions ↔ g.Accepts [] := by
  constructor
  · intro stored
    exact ran.generates_of_binarization formed (ran.start_mem_useful formed) (Grammar.derives_of_mem stored)
  · intro accepts
    have useful := (ran.start_epsilon_iff formed).mpr accepts
    obtain ⟨short, binarization⟩ := ran.exists_binarization_abbreviated formed
    exact binarization.epsilon _ ((ran.isolation_abbreviated formed).epsilon _ useful rfl) rfl

theorem solid_generates_iff {a : Name} (declared : a ∈ passes.useful.nonterminals) {word : List Name} :
    passes.binarization.grammar.solid.Generates a word ↔ word ≠ [] ∧ g.Generates a word := by
  constructor
  · intro solid
    have whole : passes.binarization.grammar.Generates a word := solid.of_solid
    refine ⟨fun empty => ?_, ran.generates_of_binarization formed declared whole⟩
    subst empty
    have noForm := (Grammar.generates_iff_yields.mp solid).eq_nil
    cases noForm
  · intro found
    obtain ⟨nonempty, generates⟩ := found
    exact ran.solid_generates formed declared nonempty generates

end Passes.Ran

namespace Grammar

variable {g : Grammar} {options : Options} {c : Conversion}

/-- A conversion keeps the language, the empty word included. -/
theorem convert_accepts_iff (converted : g.convert options = .ok c) (word : List Name) :
    c.grammar.Accepts word ↔ g.Accepts word := by
  obtain ⟨formed, passes, result, same, _⟩ := convert_eq_ok converted
  have ran := ran_of_runPasses result
  have declared := ran.start_mem_useful formed
  rw [same, Accepts, ran.binarization_start formed]
  constructor
  · exact ran.generates_of_binarization formed declared
  · intro accepts
    by_cases empty : word = []
    · subst empty
      have stored := (ran.binarization_start_epsilon_iff formed).mpr accepts
      exact derives_of_mem stored
    · have solid := ran.solid_generates formed declared empty accepts
      exact solid.mono fun p stored => (mem_solid.mp stored).1

theorem nested_accepts_iff : ∃ c, nested.convert {} = .ok c ∧
    ∀ word, c.grammar.Accepts word ↔ nested.Accepts word := by
  obtain ⟨c, converted⟩ := nested_converts
  exact ⟨c, converted, convert_accepts_iff converted⟩

/-- The grammar less the ε-production of its start symbol, if it has one. -/
def withoutStartEpsilon (g : Grammar) : Grammar :=
  { g with productions := g.productions.erase ⟨g.start, []⟩ }

theorem mem_withoutStartEpsilon {p : Production} :
    p ∈ g.withoutStartEpsilon.productions ↔ p ≠ ⟨g.start, []⟩ ∧ p ∈ g.productions := by
  unfold withoutStartEpsilon
  rw [Std.ExtTreeSet.mem_erase, Ne, Std.LawfulEqCmp.compare_eq_iff_eq, Ne, eq_comm]

/-- Where only the start symbol has an ε-production, the grammar without it is the one without any. -/
theorem generates_withoutStartEpsilon_iff (only : ∀ p ∈ g.productions, p.rhs = [] → p.lhs = g.start) {a : Name}
    {word : List Name} : g.withoutStartEpsilon.Generates a word ↔ g.solid.Generates a word := by
  have same : ∀ p ∈ g.productions, p = ⟨g.start, []⟩ ↔ p.rhs = [] := by
    intro p stored
    refine ⟨fun epsilon => congrArg Production.rhs epsilon, fun empty => ?_⟩
    rw [← only p stored empty, ← empty]
  constructor
  · intro generates
    refine generates.mono fun p member => ?_
    obtain ⟨different, stored⟩ := mem_withoutStartEpsilon.mp member
    exact mem_solid.mpr ⟨stored, fun empty => different ((same p stored).mpr empty)⟩
  · intro generates
    refine generates.mono fun p member => ?_
    obtain ⟨stored, nonempty⟩ := mem_solid.mp member
    exact mem_withoutStartEpsilon.mpr ⟨fun epsilon => nonempty ((same p stored).mp epsilon), stored⟩

/-- In Chomsky normal form no other production is an ε-production. -/
theorem withoutStartEpsilon_generates_iff (normal : ∀ p ∈ g.productions, p.isNormal g.start = true) {a : Name}
    {word : List Name} : g.withoutStartEpsilon.Generates a word ↔ g.solid.Generates a word := by
  refine generates_withoutStartEpsilon_iff fun p stored empty => ?_
  exact congrArg Production.lhs (Production.eq_epsilon_of_isNormal (normal p stored) empty)

/-- A conversion keeps the non-empty words of every nonterminal that is left once useless symbols
are gone, and they can be derived without the ε-production of the start symbol. That production is
there exactly for the empty word. -/
theorem convert_generates_iff (converted : g.convert options = .ok c) :
    ∃ passes, g.runPasses options = .ok passes ∧ c.grammar = passes.binarization.grammar ∧
      (options.keepStages = true → (.useful, passes.useful) ∈ c.stages) ∧ g.start ∈ passes.useful.nonterminals ∧
      (∀ a ∈ passes.useful.nonterminals, ∀ word,
        c.grammar.withoutStartEpsilon.Generates a word ↔ word ≠ [] ∧ g.Generates a word) ∧
      (⟨c.grammar.start, []⟩ ∈ c.grammar.productions ↔ g.Accepts []) := by
  obtain ⟨formed, passes, result, same, stages⟩ := convert_eq_ok converted
  have ran := ran_of_runPasses result
  have normal : ∀ p ∈ c.grammar.productions, p.isNormal c.grammar.start = true :=
    same ▸ ran.binarization_isNormal formed
  refine ⟨passes, result, same, fun keep => ?_, ran.start_mem_useful formed, fun a declared word => ?_, ?_⟩
  · rw [stages, if_pos keep, Passes.stages]
    simp
  · rw [withoutStartEpsilon_generates_iff normal, same]
    exact ran.solid_generates_iff formed declared
  · rw [same, ran.binarization_start formed]
    exact ran.binarization_start_epsilon_iff formed

theorem nested_generates_iff : ∃ c passes, nested.convert {} = .ok c ∧ nested.runPasses {} = .ok passes ∧
    "S" ∈ passes.useful.nonterminals ∧
    (∀ word, c.grammar.withoutStartEpsilon.Generates "S" word ↔ word ≠ [] ∧ nested.Generates "S" word) ∧
    ∀ a ∈ passes.useful.nonterminals, ∀ word,
      c.grammar.withoutStartEpsilon.Generates a word ↔ word ≠ [] ∧ nested.Generates a word := by
  obtain ⟨c, converted⟩ := nested_converts
  obtain ⟨passes, ran, _, _, declared, words, _⟩ := convert_generates_iff converted
  exact ⟨c, passes, converted, ran, declared, words "S" declared, words⟩

end Grammar

end ContextFree
