import ContextFree.Proofs.Language
import ContextFree.Proofs.Operation

namespace ContextFree.Grammar

theorem withoutEpsilon_accepts_iff {g out : Grammar} (ran : g.withoutEpsilon = .ok out) {word : List Name} :
    out.Accepts word ↔ g.Accepts word := by
  have start := withoutEpsilon_start ran
  constructor
  · intro accepts
    rw [Accepts, start] at accepts
    exact derives_of_withoutEpsilon ran accepts
  · intro accepts
    by_cases empty : word = []
    · subst empty
      exact derives_of_mem ((start_epsilon_iff ran).mpr accepts)
    · rw [Accepts, start]
      exact (withoutEpsilon_solid_generates ran empty accepts).of_solid

/-- Without the ε-production of the start symbol a nonterminal keeps exactly its non-empty words. -/
theorem withoutEpsilon_generates_iff {g out : Grammar} (ran : g.withoutEpsilon = .ok out) {a : Name}
    {word : List Name} : out.withoutStartEpsilon.Generates a word ↔ word ≠ [] ∧ g.Generates a word := by
  rw [generates_withoutStartEpsilon_iff fun p => rhs_eq_nil_of_mem_withoutEpsilon ran]
  constructor
  · intro solid
    refine ⟨fun empty => ?_, derives_of_withoutEpsilon ran solid.of_solid⟩
    subst empty
    have noForm := (generates_iff_yields.mp solid).eq_nil
    cases noForm
  · intro found
    obtain ⟨nonempty, generates⟩ := found
    exact withoutEpsilon_solid_generates ran nonempty generates

/-- Productions for the empty word can be dropped without a change to the non-empty words of any
nonterminal, declared or not. The start symbol keeps one such production if it derives the empty
word, and no other nonterminal needs that production for a word of its own. -/
theorem withoutEpsilon_words {g out : Grammar} (ran : g.withoutEpsilon = .ok out) :
    (∀ a word, word ≠ [] → (out.Generates a word ↔ g.Generates a word)) ∧
      (∀ a word, out.withoutStartEpsilon.Generates a word ↔ word ≠ [] ∧ g.Generates a word) ∧
      out.start = g.start ∧ (out.Accepts [] ↔ g.Accepts []) ∧ ∀ p ∈ out.productions, p.rhs = [] → p.lhs = g.start := by
  refine ⟨fun a word nonempty => ⟨derives_of_withoutEpsilon ran, fun generates => ?_⟩,
    fun a word => withoutEpsilon_generates_iff ran, withoutEpsilon_start ran, withoutEpsilon_accepts_iff ran,
    fun p stored empty => ?_⟩
  · exact (withoutEpsilon_solid_generates ran nonempty generates).of_solid
  · rw [← withoutEpsilon_start ran]
    exact rhs_eq_nil_of_mem_withoutEpsilon ran stored empty

/-- Short right-hand sides have few nullable positions. -/
theorem exists_withoutEpsilon_of_short {g : Grammar}
    (short : g.productions.toList.all (·.rhs.length ≤ expansionCap) = true) : ∃ out, g.withoutEpsilon = .ok out := by
  have short : ∀ p ∈ g.productions, p.rhs.length ≤ min expansionCap expansionCap := by simpa using short
  exact exists_withoutEpsilon (checkExpansion_of_short short)

/-- A grammar whose start symbol can be erased, doubles itself and mentions a nonterminal that is
not declared. -/
def doubling : Grammar :=
  (ofStart "S").after [.declareTerminal "a", .addProduction ⟨"S", []⟩, .addProduction ⟨"S", [.terminal "a"]⟩,
    .addProduction ⟨"S", [.nonterminal "S", .nonterminal "S"]⟩,
    .addProduction ⟨"S", [.nonterminal "B", .nonterminal "S"]⟩]

theorem doubling_words : ∃ out, doubling.withoutEpsilon = .ok out ∧ out.Accepts [] ∧
    out.withoutStartEpsilon.Generates "S" ["a", "a"] := by
  obtain ⟨out, ran⟩ : ∃ out, doubling.withoutEpsilon = .ok out := exists_withoutEpsilon_of_short (by decide +kernel)
  have erasing : ⟨"S", []⟩ ∈ doubling.productions := by decide +kernel
  have letter : ⟨"S", [.terminal "a"]⟩ ∈ doubling.productions := by decide +kernel
  have twice : ⟨"S", [.nonterminal "S", .nonterminal "S"]⟩ ∈ doubling.productions := by decide +kernel
  have both : doubling.Generates "S" ["a", "a"] :=
    (derives_of_mem twice).trans ((derives_of_mem letter).append (derives_of_mem letter))
  obtain ⟨_, solid, _, empty, _⟩ := withoutEpsilon_words ran
  exact ⟨out, ran, empty.mpr (derives_of_mem erasing), (solid "S" ["a", "a"]).mpr ⟨by simp, both⟩⟩

/-- The words of the start symbol, the empty one included: it is kept by an ε-production that is
left to the start symbol alone. -/
theorem withoutUnits_accepts_iff {g out : Grammar} (ran : g.withoutEpsilon = .ok out) (coherent : g.Coherent)
    {word : List Name} : out.withoutUnits.Accepts word ↔ g.Accepts word := by
  rw [Accepts, withoutUnits_start_eq ran]
  constructor
  · exact derives_of_withoutUnits_withoutEpsilon ran
  · intro accepts
    by_cases empty : word = []
    · subst empty
      exact derives_of_mem ((withoutUnits_start_epsilon_iff ran coherent).mpr accepts)
    · exact (withoutUnits_solid_generates ran coherent empty accepts).of_solid

/-- Unit productions can be replaced after ε-productions without a change to the words of the
start symbol or to the non-empty words of any other nonterminal. By itself the replacement keeps
less, since it drops ε-productions, but it never adds a word. -/
theorem withoutUnits_words : (∀ g out : Grammar, g.Built → g.withoutEpsilon = .ok out →
    (∀ p ∈ out.withoutUnits.productions, (∀ a, p.rhs ≠ [.nonterminal a]) ∧ (p.rhs = [] → p.lhs = g.start)) ∧
      out.withoutUnits.start = g.start ∧ (∀ word, out.withoutUnits.Accepts word ↔ g.Accepts word) ∧
        ∀ a word, word ≠ [] → (out.withoutUnits.Generates a word ↔ g.Generates a word)) ∧
    ∀ (h : Grammar) (a : Name) (word : List Name), h.withoutUnits.Generates a word → h.Generates a word := by
  constructor
  · intro g out built ran
    have coherent := built.coherent
    refine ⟨fun p => withoutUnits_shape ran, withoutUnits_start_eq ran, ?_, ?_⟩
    · exact fun word => withoutUnits_accepts_iff ran coherent
    · intro a word nonempty
      refine ⟨derives_of_withoutUnits_withoutEpsilon ran, fun generates => ?_⟩
      exact (withoutUnits_solid_generates ran coherent nonempty generates).of_solid
  · exact fun h a word => derives_of_withoutUnits

/-- A grammar with a cycle of unit productions through its start symbol, which can be erased. -/
def circular : Grammar :=
  (ofStart "S").after [.declareNonterminal "A", .declareTerminal "a", .addProduction ⟨"S", []⟩,
    .addProduction ⟨"S", [.nonterminal "A"]⟩, .addProduction ⟨"S", [.nonterminal "A", .nonterminal "A"]⟩,
    .addProduction ⟨"A", [.nonterminal "S"]⟩, .addProduction ⟨"A", [.terminal "a"]⟩]

theorem circular_words : ∃ out, circular.withoutEpsilon = .ok out ∧ out.withoutUnits.Accepts [] ∧
    out.withoutUnits.Generates "A" ["a", "a"] := by
  have built : circular.Built := ⟨_, _, .ofStart _, rfl⟩
  obtain ⟨out, ran⟩ : ∃ out, circular.withoutEpsilon = .ok out := exists_withoutEpsilon_of_short (by decide +kernel)
  have erasing : ⟨"S", []⟩ ∈ circular.productions := by decide +kernel
  have letter : ⟨"A", [.terminal "a"]⟩ ∈ circular.productions := by decide +kernel
  have back : ⟨"A", [.nonterminal "S"]⟩ ∈ circular.productions := by decide +kernel
  have twice : ⟨"S", [.nonterminal "A", .nonterminal "A"]⟩ ∈ circular.productions := by decide +kernel
  have erased : circular.Accepts [] := derives_of_mem erasing
  have both : circular.Generates "A" ["a", "a"] :=
    ((derives_of_mem back).trans (derives_of_mem twice)).trans ((derives_of_mem letter).append (derives_of_mem letter))
  obtain ⟨_, _, accepts, generates⟩ := withoutUnits_words.1 circular out built ran
  exact ⟨out, ran, (accepts []).mpr erased, (generates "A" ["a", "a"] (by simp)).mpr both⟩

/-- Isolation and binarization keep the words of every nonterminal that there was before, the empty word
included, with productions of any shape and from whatever state of the supply the new names come. -/
theorem Built.isolation_binarization_words {g : Grammar} (built : g.Built)
    (mentioned : ∀ p ∈ g.productions, ∀ a, .nonterminal a ∈ p.rhs → a ∈ g.nonterminals)
    (supply : NameSupply) (stem : String) : ∀ a ∈ g.nonterminals, ∀ word,
      ((g.isolateTerminals supply stem).grammar.Generates a word ↔ g.Generates a word) ∧
        ((g.binarize supply).grammar.Generates a word ↔ g.Generates a word) := by
  have closed : g.Closed := ⟨built.coherent, mentioned⟩
  have isolated := isolateTerminals_abbreviated closed supply stem
  obtain ⟨splits, listed, chained⟩ := exists_chained g supply
  have binarized := abbreviated_of_chained listed chained closed
  intro a declared word
  exact ⟨isolated.generates_iff built.coherent declared, binarized.generates_iff built.coherent declared⟩

/-- Brackets, of which the closing one is not declared. The grammar is recursive and has an ε-production and
a unit production. -/
def bracketed : Grammar :=
  (ofStart "S").after [.declareNonterminal "B", .declareTerminal "(", .addProduction ⟨"S", []⟩,
    .addProduction ⟨"S", [.nonterminal "B"]⟩,
    .addProduction ⟨"B", [.terminal "(", .nonterminal "S", .terminal ")", .nonterminal "S"]⟩]

/-- The supply has been in use, and its stem and the stem for terminals make names that are taken. -/
theorem bracketed_words : bracketed.Built ∧ ∃ isolated binarized,
    isolated = (bracketed.isolateTerminals ⟨"B", 3⟩ "").grammar ∧ binarized = (bracketed.binarize ⟨"", 5⟩).grammar ∧
      isolated.Generates "S" [] ∧ isolated.Generates "B" ["(", ")"] ∧ ¬ isolated.Generates "B" [] ∧
      binarized.Generates "S" [] ∧ binarized.Generates "B" ["(", ")"] ∧ ¬ binarized.Generates "B" [] := by
  have built : bracketed.Built := ⟨_, _, .ofStart _, rfl⟩
  have known : bracketed.productions.toList.all (·.rhs.all (·.within true bracketed.nonterminals)) = true := by
    decide +kernel
  have mentioned : ∀ p ∈ bracketed.productions, ∀ a, .nonterminal a ∈ p.rhs → a ∈ bracketed.nonterminals := by
    intro p stored a member
    have inside := List.all_eq_true.mp known p (Std.ExtTreeSet.mem_toList.mpr stored)
    exact List.all_eq_true.mp inside _ member
  have start : "S" ∈ bracketed.nonterminals := by decide +kernel
  have declared : "B" ∈ bracketed.nonterminals := by decide +kernel
  have erasing : ⟨"S", []⟩ ∈ bracketed.productions := by decide +kernel
  have pair : ⟨"B", [.terminal "(", .nonterminal "S", .terminal ")", .nonterminal "S"]⟩ ∈ bracketed.productions := by
    decide +kernel
  have erased : bracketed.Generates "S" [] := derives_of_mem erasing
  have inner := (Derives.refl [.terminal "("]).append (erased.append ((Derives.refl [.terminal ")"]).append erased))
  have word : bracketed.Generates "B" ["(", ")"] := (derives_of_mem pair).trans inner
  have solid : ¬ bracketed.Generates "B" [] := by
    rw [← mem_nullable_iff_generates]
    decide +kernel
  have isolated := built.isolation_binarization_words mentioned ⟨"B", 3⟩ ""
  have binarized := built.isolation_binarization_words mentioned ⟨"", 5⟩ ""
  refine ⟨built, _, _, rfl, rfl, (isolated "S" start []).1.mpr erased, (isolated "B" declared _).1.mpr word, ?_,
    (binarized "S" start []).2.mpr erased, (binarized "B" declared _).2.mpr word, ?_⟩
  · exact mt (isolated "B" declared []).1.mp solid
  · exact mt (binarized "B" declared []).2.mp solid

end ContextFree.Grammar
