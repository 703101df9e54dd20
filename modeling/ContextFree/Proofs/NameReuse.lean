import ContextFree.Proofs.NewNames

namespace ContextFree

namespace Grammar

variable {g h k : Grammar} {names more : List Name}

theorem Adds.usesName_iff (adds : g.Adds h names) {a : Name} :
    h.usesName a = true ↔ g.usesName a = true ∨ a ∈ names := by
  simp only [usesName, adds.terminals, Bool.or_eq_true, Std.ExtTreeSet.contains_iff_mem, adds.nonterminals, or_assoc]

theorem Adds.unused (adds : g.Adds h names) {a : Name} (unused : h.usesName a = false) :
    g.usesName a = false ∧ a ∉ names := by
  rwa [← Bool.not_eq_true, adds.usesName_iff, not_or, Bool.not_eq_true] at unused

theorem Adds.trans (first : g.Adds h names) (second : h.Adds k more) : g.Adds k (names ++ more) where
  terminals := second.terminals.trans first.terminals
  nonterminals a := by
    rw [second.nonterminals, first.nonterminals, List.mem_append, or_assoc]
  distinct := by
    refine List.nodup_append.mpr ⟨first.distinct, second.distinct, fun a member b isLater same => ?_⟩
    exact (first.unused (second.fresh b isLater)).2 (same ▸ member)
  fresh a member := by
    rcases List.mem_append.mp member with early | late
    · exact first.fresh a early
    · exact (first.unused (second.fresh a late)).1

/-- Each nonterminal of one grammar is a nonterminal of the other as well, or nothing there has its
name. -/
def Avoids (h g : Grammar) : Prop :=
  ∀ a ∈ h.nonterminals, a ∈ g.nonterminals ∨ g.usesName a = false

end Grammar

namespace Passes.Ran

variable {g : Grammar} {options : Options} {passes : Passes} (ran : passes.Ran g options) (formed : g.WellFormed)
include ran formed

/-- The passes that add symbols look at what the passes that drop symbols have left. -/
theorem exists_useful_adds : ∃ names, passes.useful.Adds passes.binarization.grammar names := by
  obtain ⟨own, -, -, -, isolated⟩ := ran.exists_isolation_adds formed
  obtain ⟨pairs, -, binarized⟩ :=
    Grammar.exists_adds_binarize (ran.isolation_wellFormed formed).toClosed passes.isolation.supply
  rw [← ran.binarization] at binarized
  exact ⟨_, isolated.trans binarized⟩

/-- A terminal of the language keeps its name to itself, since it is never dropped. -/
theorem ne_of_mem_word {a : Name} (declared : a ∈ passes.binarization.grammar.nonterminals) {word : List Name}
    (accepts : g.Accepts word) {t : Name} (member : t ∈ word) : a ≠ t := by
  rintro rfl
  have letter := (ran.mem_binarization_terminals_iff formed).mpr ⟨word, accepts, member⟩
  exact (ran.binarization_wellFormed formed).disjoint a letter declared

end Passes.Ran

namespace Grammar

/-- A grammar with a terminal that no production mentions, under a name like those of a supply. -/
def spare : Grammar where
  nonterminals := .ofList ["S"]
  terminals := .ofList ["a", "X0"]
  productions := .ofList [Production.mk "S" [.nonterminal "S", .nonterminal "S", .nonterminal "S"],
    ⟨"S", [.terminal "a"]⟩]
  start := "S"

/-- The spare terminal is dropped before any name is looked for, and the first name that is needed
is free then. -/
theorem dropped_name_returns : ¬ ∀ (g : Grammar) (options : Options) (c : Conversion),
    g.convert options = .ok c → c.grammar.Avoids g := by
  intro law
  have returned : (spare.convert {}).toOption.map (·.grammar.nonterminals.contains "X0") = some true := by
    decide +kernel
  obtain ⟨c, converted, declared⟩ := Option.map_eq_some_iff.mp returned
  have result : spare.convert {} = .ok c := by
    cases outcome : spare.convert {} with
    | error fault => simp [outcome, Except.toOption] at converted
    | ok d => simpa [outcome, Except.toOption] using converted
  rcases law spare {} c result "X0" (Std.ExtTreeSet.contains_iff_mem.mp declared) with old | unused
  · exact absurd old (by decide +kernel)
  · exact absurd unused (by decide +kernel)

variable {g : Grammar} {options : Options} {c : Conversion}

/-- New nonterminals never have the name of a nonterminal or of a terminal of the language. What is
left of the grammar without its useless symbols is all that the names are compared with. -/
theorem names_apart_of_convert (converted : g.convert options = .ok c) :
    (∀ a ∈ c.grammar.nonterminals, a ∈ g.nonterminals ∨
      a ∉ g.nonterminals ∧ ∀ t ∈ g.terminals, (∃ word, g.Accepts word ∧ t ∈ word) → a ≠ t) ∧
    ((∀ t ∈ g.terminals, ∃ word, g.Accepts word ∧ t ∈ word) → c.grammar.Avoids g) ∧
    ∃ passes names, g.runPasses options = .ok passes ∧ (∀ a ∈ passes.useful.nonterminals, a ∈ g.nonterminals) ∧
      (∀ t, t ∈ passes.useful.terminals ↔ ∃ word, g.Accepts word ∧ t ∈ word) ∧
      passes.useful.Adds c.grammar names := by
  obtain ⟨formed, passes, result, same, _⟩ := convert_eq_ok converted
  have ran := ran_of_runPasses result
  have apart : ∀ a ∈ c.grammar.nonterminals, ∀ t ∈ g.terminals, (∃ word, g.Accepts word ∧ t ∈ word) → a ≠ t := by
    intro a declared t _ found
    obtain ⟨word, accepts, member⟩ := found
    exact ran.ne_of_mem_word formed (same ▸ declared) accepts member
  refine ⟨fun a declared => ?_, fun allOccur a declared => ?_, ?_⟩
  · by_cases old : a ∈ g.nonterminals
    · exact .inl old
    · exact .inr ⟨old, apart a declared⟩
  · by_cases old : a ∈ g.nonterminals
    · exact .inl old
    · refine .inr (usesName_eq_false_iff.mpr ⟨fun letter => ?_, old⟩)
      exact apart a declared a letter (allOccur a letter) rfl
  · obtain ⟨names, adds⟩ := ran.exists_useful_adds formed
    refine ⟨passes, names, result, ran.mem_of_mem_useful_nonterminals formed, fun t => ?_, same ▸ adds⟩
    rw [← ran.binarization_terminals formed]
    exact ran.mem_binarization_terminals_iff formed

theorem nested_names_apart : ∃ c, nested.convert {} = .ok c ∧ c.grammar.Avoids nested := by
  obtain ⟨c, converted⟩ := nested_converts
  obtain ⟨-, avoids, -⟩ := names_apart_of_convert converted
  refine ⟨c, converted, avoids fun t letter => ?_⟩
  obtain rfl : "a" = t := by simpa [nested] using letter
  have unit : nested.Yields [.nonterminal "A"] ["a"] := .nonterminal (by simp [nested]) (.terminal .nil) .nil
  have accepts : nested.Yields [.nonterminal "S"] ["a"] := .nonterminal (by simp [nested]) unit .nil
  exact ⟨["a"], generates_iff_yields.mpr accepts, List.mem_singleton_self "a"⟩

end Grammar

end ContextFree
