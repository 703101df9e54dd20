import ContextFree.Proofs.Language
import ContextFree.Proofs.Limits
import ContextFree.Proofs.Pruning
import ContextFree.Proofs.Words

namespace ContextFree

namespace Grammar

variable {g h out : Grammar}

theorem withoutUseless_accepts_iff {word : List Name} : g.withoutUseless.Accepts word ↔ g.Accepts word :=
  withoutUnreachable_accepts_iff.trans withoutNonGenerating_generates_iff

theorem Abbreviated.accepts_iff {short : Abbreviations} (abbreviated : Abbreviated g h short) (coherent : g.Coherent)
    {word : List Name} : h.Accepts word ↔ g.Accepts word := by
  rw [Accepts, abbreviated.start]
  exact abbreviated.generates_iff coherent coherent.start

/-- One grammar declares the symbols of another and new nonterminals: as many as there are names,
and none of them in use before. -/
structure Adds (g h : Grammar) (names : List Name) : Prop where
  terminals : h.terminals = g.terminals
  nonterminals : ∀ a, a ∈ h.nonterminals ↔ a ∈ g.nonterminals ∨ a ∈ names
  distinct : names.Nodup
  fresh : ∀ a ∈ names, g.usesName a = false

theorem Abbreviated.adds {short : Abbreviations} (abbreviated : Abbreviated g h short) : g.Adds h short.names where
  terminals := abbreviated.terminals
  nonterminals := abbreviated.nonterminals
  distinct := abbreviated.distinct
  fresh := abbreviated.fresh

/-- Every symbol beyond two of a right-hand side costs a nonterminal. -/
theorem exists_adds_binarize (closed : g.Closed) (supply : NameSupply) : ∃ names,
    names.length = (g.productions.toList.flatMap fun p => p.rhs.drop 2).length ∧
      g.Adds (g.binarize supply).grammar names := by
  obtain ⟨splits, listed, chained⟩ := exists_chained g supply
  refine ⟨_, ?_, (abbreviated_of_chained listed chained closed).adds⟩
  have lengths : splits.map (fun split => split.names.length) =
      splits.map fun split => (split.production.rhs.drop 2).length :=
    List.map_congr_left fun split member => (chained.length split member).trans List.length_drop.symm
  rw [Binarization.names_abbreviations chained.length, ← listed, List.flatMap_map, List.length_flatMap,
    List.length_flatMap, lengths]

end Grammar

/-- What the first pass establishes and every later one keeps is so at every stage. -/
theorem Passes.forall_mem_stages {passes : Passes} (holds : Grammar → Prop) (epsilonFree : holds passes.epsilonFree)
    (unitFree : holds passes.epsilonFree → holds passes.unitFree) (useful : holds passes.unitFree → holds passes.useful)
    (isolation : holds passes.useful → holds passes.isolation.grammar)
    (binarization : holds passes.isolation.grammar → holds passes.binarization.grammar) :
    ∀ entry ∈ passes.stages, holds entry.2 := by
  intro entry member
  simp only [stages, List.mem_cons, List.not_mem_nil, or_false] at member
  rcases member with rfl | rfl | rfl | rfl | rfl
  · exact epsilonFree
  · exact unitFree epsilonFree
  · exact useful (unitFree epsilonFree)
  · exact isolation (useful (unitFree epsilonFree))
  · exact binarization (isolation (useful (unitFree epsilonFree)))

theorem Passes.binarization_mem_stages (passes : Passes) :
    (.binarization, passes.binarization.grammar) ∈ passes.stages := by
  simp [stages]

namespace Passes.Ran

variable {g : Grammar} {options : Options} {passes : Passes} (ran : passes.Ran g options) (formed : g.WellFormed)
include ran formed

theorem stage_wellFormed : ∀ entry ∈ passes.stages, entry.2.WellFormed :=
  forall_mem_stages Grammar.WellFormed (ran.epsilonFree_wellFormed formed) (fun _ => ran.unitFree_wellFormed formed)
    (fun _ => ran.useful_wellFormed formed) (fun _ => ran.isolation_wellFormed formed)
    fun _ => ran.binarization_wellFormed formed

theorem stage_start : ∀ entry ∈ passes.stages, entry.2.start = g.start := by
  refine forall_mem_stages (fun h => h.start = g.start) (Grammar.withoutEpsilon_start ran.epsilonFree)
    (fun kept => ?_) (fun _ => ran.useful_start) (fun kept => ?_) fun _ => ran.binarization_start formed
  · rw [ran.unitFree]
    exact kept
  · rw [(ran.isolation_abbreviated formed).start, kept]

theorem stage_accepts_iff {word : List Name} : ∀ entry ∈ passes.stages, entry.2.Accepts word ↔ g.Accepts word := by
  refine forall_mem_stages (fun h => h.Accepts word ↔ g.Accepts word)
    (Grammar.withoutEpsilon_accepts_iff ran.epsilonFree) (fun _ => ?_) (fun kept => ?_) (fun kept => ?_)
    fun kept => ?_
  · rw [ran.unitFree]
    exact Grammar.withoutUnits_accepts_iff ran.epsilonFree formed.toCoherent
  · rw [ran.useful]
    exact Grammar.withoutUseless_accepts_iff.trans kept
  · exact ((ran.isolation_abbreviated formed).accepts_iff (ran.useful_wellFormed formed).toCoherent).trans kept
  · obtain ⟨short, abbreviated⟩ := ran.exists_binarization_abbreviated formed
    exact (abbreviated.accepts_iff (ran.isolation_wellFormed formed).toCoherent).trans kept

theorem binarization_accepts_iff {word : List Name} : passes.binarization.grammar.Accepts word ↔ g.Accepts word :=
  ran.stage_accepts_iff formed (.binarization, passes.binarization.grammar) passes.binarization_mem_stages

/-- No pass makes a right-hand side with more nullable positions than there were. -/
theorem stage_limited {limit : Nat} (limited : g.checkExpansion limit = .ok ()) :
    ∀ entry ∈ passes.stages, entry.2.checkExpansion limit = .ok () := by
  refine forall_mem_stages (fun h => h.checkExpansion limit = .ok ())
    (Grammar.checkExpansion_withoutEpsilon ran.epsilonFree limited) (fun kept => ?_) (fun kept => ?_)
    (fun kept => ?_) fun kept => ?_
  · rw [ran.unitFree]
    exact Grammar.checkExpansion_withoutUnits kept
  · rw [ran.useful]
    exact Grammar.checkExpansion_withoutUseless kept
  · rw [ran.isolation]
    exact Grammar.checkExpansion_isolateTerminals (ran.useful_wellFormed formed).toClosed _ _ kept
  · rw [ran.binarization]
    exact Grammar.checkExpansion_binarize (ran.isolation_wellFormed formed).toClosed _ kept

omit formed in
theorem unitFree_nonterminals : passes.unitFree.nonterminals = g.nonterminals := by
  have kept := Grammar.withoutEpsilon_nonterminals ran.epsilonFree
  rw [ran.unitFree]
  exact kept

omit formed in
theorem unitFree_terminals : passes.unitFree.terminals = g.terminals := by
  have kept := Grammar.withoutEpsilon_terminals ran.epsilonFree
  rw [ran.unitFree]
  exact kept

/-- Each terminal inside a right-hand side gets a nonterminal of its own. -/
theorem exists_isolation_adds : ∃ own : List (Name × Name), (own.map Prod.fst).Nodup ∧
    (∀ t, t ∈ own.map Prod.fst ↔ ∃ p ∈ passes.useful.productions, 2 ≤ p.rhs.length ∧ .terminal t ∈ p.rhs) ∧
    (∀ t a, (t, a) ∈ own → ⟨a, [.terminal t]⟩ ∈ passes.isolation.grammar.productions) ∧
    passes.useful.Adds passes.isolation.grammar (own.map Prod.snd) := by
  have named : passes.isolation.Named passes.useful passes.useful.innerTerminals := by
    rw [ran.isolation]
    exact Grammar.isolateTerminals_named _ _ _
  refine ⟨passes.isolation.assigned, named.keysDistinct, fun t => ?_, fun t a member => ?_, ?_⟩
  · exact (named.keys t).trans Grammar.mem_innerTerminals
  · rw [ran.isolation] at member ⊢
    exact Grammar.own_mem_isolateTerminals member
  · rw [← Isolation.names_abbreviations]
    exact (ran.isolation_abbreviated formed).adds

end Passes.Ran

namespace Grammar

variable {g h : Grammar} {options : Options} {c : Conversion}

theorem stages_of_convert (converted : g.convert options = .ok c) (kept : options.keepStages = true) :
    ∃ passes, g.runPasses options = .ok passes ∧ c.stages = passes.stages := by
  obtain ⟨_, passes, result, _, stages⟩ := convert_eq_ok converted
  rw [if_pos kept] at stages
  exact ⟨passes, result, stages⟩

theorem nested_keeps_stages : ∃ c, nested.convert { keepStages := true } = .ok c := by
  obtain ⟨_, converted⟩ := nested_converts
  have limited : nested.checkExpansion 16 = .ok () := limited_of_convert converted
  exact exists_convert (convert_eq_ok converted).1 limited

/-- Whatever a conversion leaves behind can be converted again, under the same limit or a higher one,
and the language stays what it was. -/
theorem convert_stage_again (converted : g.convert options = .ok c)
    (left : (∃ stage, (stage, h) ∈ c.stages) ∨ h = c.grammar) {again : Options}
    (allowed : options.maxNullable ≤ again.maxNullable) :
    ∃ d, h.convert again = .ok d ∧ ∀ word, d.grammar.Accepts word ↔ g.Accepts word := by
  obtain ⟨formed, passes, result, same, stages⟩ := convert_eq_ok converted
  have ran := ran_of_runPasses result
  obtain ⟨stage, member⟩ : ∃ stage, (stage, h) ∈ passes.stages := by
    rcases left with ⟨stage, member⟩ | rfl
    · rw [stages] at member
      split at member
      · exact ⟨stage, member⟩
      · cases member
    · rw [same]
      exact ⟨_, passes.binarization_mem_stages⟩
  have stageFormed : h.WellFormed := ran.stage_wellFormed formed (stage, h) member
  have limited : h.checkExpansion again.maxNullable = .ok () :=
    checkExpansion_mono allowed (ran.stage_limited formed (limited_of_convert converted) (stage, h) member)
  obtain ⟨d, second⟩ := exists_convert stageFormed limited
  obtain ⟨_, more, secondResult, secondSame, _⟩ := convert_eq_ok second
  have secondRan := ran_of_runPasses secondResult
  refine ⟨d, second, fun word => ?_⟩
  rw [secondSame]
  exact (secondRan.binarization_accepts_iff stageFormed).trans (ran.stage_accepts_iff formed (stage, h) member)

theorem nested_stage_again : ∃ c, nested.convert { keepStages := true } = .ok c ∧ c.stages.length = 5 ∧
    ∀ entry ∈ c.stages, ∃ d : Conversion, entry.2.convert {} = .ok d ∧
      ∀ word, d.grammar.Accepts word ↔ nested.Accepts word := by
  obtain ⟨c, converted⟩ := nested_keeps_stages
  obtain ⟨passes, _, stages⟩ := stages_of_convert converted rfl
  refine ⟨c, converted, ?_, fun entry member => ?_⟩
  · rw [stages]
    rfl
  · exact convert_stage_again converted (.inl ⟨entry.1, member⟩) (Nat.le_refl 16)

/-- The passes keep the symbols, then drop some, then add nonterminals: one for each terminal inside
a right-hand side and one for each symbol that a right-hand side has too many. What each of them makes is kept. -/
theorem convert_stages_declare (converted : g.convert options = .ok c) (kept : options.keepStages = true) :
    ∃ passes, g.runPasses options = .ok passes ∧
      c.stages = [
        (.epsilonFree, passes.epsilonFree),
        (.unitFree, passes.unitFree),
        (.useful, passes.useful),
        (.isolation, passes.isolation.grammar),
        (.binarization, passes.binarization.grammar)] ∧
      (∀ entry ∈ c.stages, entry.2.check = .ok () ∧ entry.2.start = g.start) ∧
      (passes.epsilonFree.nonterminals = g.nonterminals ∧ passes.epsilonFree.terminals = g.terminals) ∧
      (passes.unitFree.nonterminals = g.nonterminals ∧ passes.unitFree.terminals = g.terminals) ∧
      ((∀ a ∈ passes.useful.nonterminals, a ∈ g.nonterminals) ∧ ∀ t ∈ passes.useful.terminals, t ∈ g.terminals) ∧
      (∃ own : List (Name × Name), (own.map Prod.fst).Nodup ∧
        (∀ t, t ∈ own.map Prod.fst ↔ ∃ p ∈ passes.useful.productions, 2 ≤ p.rhs.length ∧ .terminal t ∈ p.rhs) ∧
        (∀ t a, (t, a) ∈ own → ⟨a, [.terminal t]⟩ ∈ passes.isolation.grammar.productions) ∧
        passes.useful.Adds passes.isolation.grammar (own.map Prod.snd)) ∧
      ∃ names, names.length = (passes.isolation.grammar.productions.toList.flatMap fun p => p.rhs.drop 2).length ∧
        passes.isolation.grammar.Adds passes.binarization.grammar names := by
  obtain ⟨formed, _⟩ := convert_eq_ok converted
  obtain ⟨passes, result, stages⟩ := stages_of_convert converted kept
  have ran := ran_of_runPasses result
  have unitFormed := ran.unitFree_wellFormed formed
  refine ⟨passes, result, stages, fun entry member => ?_,
    ⟨withoutEpsilon_nonterminals ran.epsilonFree, withoutEpsilon_terminals ran.epsilonFree⟩,
    ⟨ran.unitFree_nonterminals, ran.unitFree_terminals⟩, ⟨?_, ?_⟩, ran.exists_isolation_adds formed, ?_⟩
  · rw [stages] at member
    exact ⟨check_eq_ok_iff.mpr (ran.stage_wellFormed formed entry member), ran.stage_start formed entry member⟩
  · rw [← ran.unitFree_nonterminals, ran.useful]
    exact unitFormed.nonterminals_withoutUseless
  · rw [← ran.unitFree_terminals, ran.useful]
    exact unitFormed.terminals_withoutUseless
  · rw [ran.binarization]
    exact exists_adds_binarize (ran.isolation_wellFormed formed).toClosed _

theorem nested_stages_declare : ∃ (c : Conversion) (passes : Passes),
    nested.convert { keepStages := true } = .ok c ∧
      c.stages.map Prod.fst = [.epsilonFree, .unitFree, .useful, .isolation, .binarization] ∧
      (.unitFree, passes.unitFree) ∈ c.stages ∧ passes.unitFree.nonterminals = .ofList ["S", "A"] ∧
      (.isolation, passes.isolation.grammar) ∈ c.stages ∧
      (∃ names, passes.useful.Adds passes.isolation.grammar names) ∧
      (.binarization, passes.binarization.grammar) ∈ c.stages ∧
      ∃ names, passes.isolation.grammar.Adds passes.binarization.grammar names := by
  obtain ⟨c, converted⟩ := nested_keeps_stages
  obtain ⟨passes, -, stages, -, -, ⟨declared, -⟩, -, ⟨_, -, -, -, isolated⟩, _, -, binarized⟩ :=
    convert_stages_declare converted rfl
  refine ⟨c, passes, converted, ?_, ?_, declared, ?_, ⟨_, isolated⟩, ?_, ⟨_, binarized⟩⟩
  · rw [stages]
    rfl
  all_goals simp [stages]

end Grammar

end ContextFree
