import ContextFree.Conversion
import ContextFree.Proofs.Binarization
import ContextFree.Proofs.EpsilonFree
import ContextFree.Proofs.Isolation
import ContextFree.Proofs.UnitFree
import ContextFree.Proofs.Useful

namespace ContextFree

/-- Each pass ran on what the pass before it left. -/
structure Passes.Ran (passes : Passes) (g : Grammar) (options : Options) : Prop where
  epsilonFree : g.withoutEpsilon = .ok passes.epsilonFree
  unitFree : passes.unitFree = passes.epsilonFree.withoutUnits
  useful : passes.useful = passes.unitFree.withoutUseless
  isolation : passes.isolation = passes.useful.isolateTerminals (.ofStem options.freshPrefix) options.terminalPrefix
  binarization : passes.binarization = passes.isolation.grammar.binarize passes.isolation.supply

namespace Grammar

variable {g : Grammar} {options : Options} {passes : Passes}

theorem ran_of_runPasses (result : g.runPasses options = .ok passes) : passes.Ran g options := by
  obtain ⟨epsilonFree, first, rest⟩ := bind_eq_ok_iff.mp result
  have same := Except.ok.inj rest
  subst same
  constructor
  case epsilonFree => exact first
  -- The projections are reduced before the sides are compared, or the passes would be unfolded.
  all_goals dsimp only

theorem convert_eq_ok {c : Conversion} (converted : g.convert options = .ok c) :
    g.WellFormed ∧ ∃ passes, g.runPasses options = .ok passes ∧ c.grammar = passes.binarization.grammar ∧
      c.stages = if options.keepStages then passes.stages else [] := by
  obtain ⟨_, checked, rest⟩ := bind_eq_ok_iff.mp converted
  obtain ⟨_, _, rest⟩ := bind_eq_ok_iff.mp rest
  obtain ⟨passes, ran, result⟩ := bind_eq_ok_iff.mp rest
  cases result
  exact ⟨check_eq_ok_iff.mp checked, passes, ran, rfl, rfl⟩

theorem limited_of_convert {c : Conversion} (converted : g.convert options = .ok c) :
    g.checkExpansion options.maxNullable = .ok () := by
  obtain ⟨_, _, rest⟩ := bind_eq_ok_iff.mp converted
  obtain ⟨_, limited, _⟩ := bind_eq_ok_iff.mp rest
  exact limited

theorem exists_convert (formed : g.WellFormed) (limited : g.checkExpansion options.maxNullable = .ok ()) :
    ∃ c, g.convert options = .ok c := by
  obtain ⟨epsilonFree, first⟩ := exists_withoutEpsilon limited
  obtain ⟨passes, ran⟩ : ∃ passes, g.runPasses options = .ok passes :=
    ⟨_, bind_eq_ok_iff.mpr ⟨epsilonFree, first, rfl⟩⟩
  refine ⟨⟨passes.binarization.grammar, if options.keepStages then passes.stages else []⟩, ?_⟩
  refine bind_eq_ok_iff.mpr ⟨(), check_eq_ok_iff.mpr formed, ?_⟩
  refine bind_eq_ok_iff.mpr ⟨(), limited, ?_⟩
  exact bind_eq_ok_iff.mpr ⟨passes, ran, rfl⟩

end Grammar

namespace Passes.Ran

variable {g : Grammar} {options : Options} {passes : Passes} (ran : passes.Ran g options) (formed : g.WellFormed)
include ran formed

theorem epsilonFree_wellFormed : passes.epsilonFree.WellFormed :=
  formed.withoutEpsilon ran.epsilonFree

theorem unitFree_wellFormed : passes.unitFree.WellFormed := by
  rw [ran.unitFree]
  exact (ran.epsilonFree_wellFormed formed).withoutUnits

theorem useful_wellFormed : passes.useful.WellFormed := by
  rw [ran.useful]
  exact (ran.unitFree_wellFormed formed).withoutUseless

theorem isolation_wellFormed : passes.isolation.grammar.WellFormed := by
  rw [ran.isolation]
  exact (ran.useful_wellFormed formed).isolateTerminals _ _

theorem binarization_wellFormed : passes.binarization.grammar.WellFormed := by
  rw [ran.binarization]
  exact (ran.isolation_wellFormed formed).binarize _

theorem isolation_abbreviated :
    Grammar.Abbreviated passes.useful passes.isolation.grammar passes.isolation.abbreviations := by
  rw [ran.isolation]
  exact Grammar.isolateTerminals_abbreviated (ran.useful_wellFormed formed).toClosed _ _

theorem exists_binarization_abbreviated :
    ∃ short, Grammar.Abbreviated passes.isolation.grammar passes.binarization.grammar short := by
  rw [ran.binarization]
  obtain ⟨splits, listed, chained⟩ := Grammar.exists_chained passes.isolation.grammar passes.isolation.supply
  exact ⟨_, Grammar.abbreviated_of_chained listed chained (ran.isolation_wellFormed formed).toClosed⟩

omit formed in
theorem useful_start : passes.useful.start = g.start := by
  have start := Grammar.withoutEpsilon_start ran.epsilonFree
  rw [ran.useful, ran.unitFree]
  exact start

theorem binarization_start : passes.binarization.grammar.start = g.start := by
  obtain ⟨short, abbreviated⟩ := ran.exists_binarization_abbreviated formed
  rw [abbreviated.start, (ran.isolation_abbreviated formed).start, ran.useful_start]

omit formed in
/-- After the pass for unit productions there are none, and only the start symbol has an
ε-production. -/
theorem useful_shape {p : Production} (stored : p ∈ passes.useful.productions) :
    (∀ a, p.rhs ≠ [.nonterminal a]) ∧ (p.rhs = [] → p.lhs = g.start) := by
  have useful : p ∈ passes.unitFree.productions := by
    rw [ran.useful] at stored
    exact Grammar.mem_of_mem_withoutUseless stored
  rw [ran.unitFree] at useful
  exact Grammar.withoutUnits_shape ran.epsilonFree useful

omit formed in
theorem derives_of_useful {form last : List Symbol} (derivation : passes.useful.Derives form last) :
    g.Derives form last := by
  rw [ran.useful, ran.unitFree] at derivation
  have unitFree := Grammar.derives_of_withoutUseless derivation
  exact Grammar.derives_of_withoutUnits_withoutEpsilon ran.epsilonFree unitFree

/-- The passes that name parts of right-hand sides change the words of no nonterminal that is
left before them. -/
theorem generates_iff_useful {a : Name} (declared : a ∈ passes.useful.nonterminals) {word : List Name} :
    passes.binarization.grammar.Generates a word ↔ passes.useful.Generates a word := by
  have isolation := ran.isolation_abbreviated formed
  obtain ⟨short, binarization⟩ := ran.exists_binarization_abbreviated formed
  have kept := (isolation.nonterminals a).mpr (.inl declared)
  exact (binarization.generates_iff (ran.isolation_wellFormed formed).toCoherent kept).trans
    (isolation.generates_iff (ran.useful_wellFormed formed).toCoherent declared)

/-- A non-empty word of a nonterminal that is left has a derivation without ε-productions, even
where the start symbol could be erased. -/
theorem solid_generates {a : Name} (declared : a ∈ passes.useful.nonterminals) {word : List Name}
    (nonempty : word ≠ []) (generates : g.Generates a word) :
    passes.binarization.grammar.solid.Generates a word := by
  obtain ⟨short, binarization⟩ := ran.exists_binarization_abbreviated formed
  refine binarization.solid_derives ((ran.isolation_abbreviated formed).solid_derives ?_)
  have unitFree := Grammar.withoutUnits_solid_generates ran.epsilonFree formed.toCoherent nonempty generates
  rw [ran.useful, ran.unitFree] at declared ⊢
  exact (Grammar.withoutUseless_solid_yields declared (Grammar.generates_iff_yields.mp unitFree)).derives

/-- The start symbol has an ε-production exactly if it derives the empty word. -/
theorem start_epsilon_iff : ⟨g.start, []⟩ ∈ passes.useful.productions ↔ g.Accepts [] := by
  have start := Grammar.withoutEpsilon_start ran.epsilonFree
  rw [← Grammar.withoutUnits_start_epsilon_iff ran.epsilonFree formed.toCoherent, ran.useful, ran.unitFree]
  refine ⟨Grammar.mem_of_mem_withoutUseless, fun stored => ?_⟩
  have declared := (Grammar.Coherent.withoutUseless passes.epsilonFree.withoutUnits).start
  change passes.epsilonFree.start ∈ _ at declared
  rw [start] at declared
  exact Grammar.mem_withoutUseless_of_yields stored declared .nil

end Passes.Ran

/-- A grammar whose start symbol can be erased and also stands on a right-hand side. -/
def Grammar.nested : Grammar where
  nonterminals := .ofList ["S", "A"]
  terminals := .ofList ["a"]
  productions := .ofList [Production.mk "S" [.terminal "a", .nonterminal "S", .nonterminal "S"], ⟨"S", []⟩,
    ⟨"S", [.nonterminal "A"]⟩, ⟨"A", [.terminal "a"]⟩]
  start := "S"

theorem Grammar.nested_converts : ∃ c, nested.convert {} = .ok c := by
  have checked : nested.check = .ok () := by decide +kernel
  have short : ∀ p ∈ nested.productions, p.rhs.length ≤ min 16 expansionCap := by simp [nested, expansionCap]
  exact exists_convert (check_eq_ok_iff.mp checked) (checkExpansion_of_short short)

end ContextFree
