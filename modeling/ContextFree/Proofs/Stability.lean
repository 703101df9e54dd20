import ContextFree.Proofs.Saturation

namespace ContextFree

namespace Production

variable {start : Name} {p : Production} (normal : p.isNormal start = true)
include normal

theorem length_le_of_isNormal : p.rhs.length ≤ 2 := by
  rcases isNormal_iff.mp normal with rfl | ⟨t, single⟩ | ⟨a, b, pair⟩
  · simp
  · simp [single]
  · simp [pair]

theorem rhs_ne_unit_of_isNormal (a : Name) : p.rhs ≠ [.nonterminal a] := by
  rcases isNormal_iff.mp normal with rfl | ⟨t, single⟩ | ⟨b, c, pair⟩
  · simp
  · simp [single]
  · simp [pair]

theorem terminal_not_mem_of_isNormal (long : 2 ≤ p.rhs.length) (t : Name) : .terminal t ∉ p.rhs := by
  rcases isNormal_iff.mp normal with rfl | ⟨u, single⟩ | ⟨a, b, pair⟩
  · simp
  · simp [single] at long
  · simp [pair]

/-- What is left of a normal right-hand side is a single nonterminal if it is not all or nothing. -/
theorem eq_of_sublist_of_isNormal {variant : List Symbol} (sublist : variant.Sublist p.rhs)
    (nonempty : variant ≠ []) (noUnit : ∀ a, variant ≠ [.nonterminal a]) : variant = p.rhs := by
  have positive : 0 < variant.length := List.length_pos_iff.mpr nonempty
  refine sublist.eq_of_length_le ?_
  rcases isNormal_iff.mp normal with rfl | ⟨t, single⟩ | ⟨a, b, pair⟩
  · exact Nat.zero_le _
  · rw [single, List.length_singleton]
    exact positive
  · rw [pair, List.length_cons, List.length_singleton]
    by_cases one : variant.length = 1
    · obtain ⟨s, rfl⟩ := List.length_eq_one_iff.mp one
      have member : s ∈ p.rhs := sublist.subset (List.mem_singleton_self s)
      rw [pair] at member
      rcases List.mem_pair.mp member with rfl | rfl
      · exact absurd rfl (noUnit a)
      · exact absurd rfl (noUnit b)
    · omega

end Production

namespace Grammar

open Relation

variable {g out : Grammar} {options : Options} (normal : ∀ p ∈ g.productions, p.isNormal g.start = true)
include normal

/-- In Chomsky normal form nothing derives the empty word unless the start symbol has it for a
right-hand side. -/
theorem start_epsilon_of_yields_nil {form : List Symbol} (yields : g.Yields form []) (nonempty : form ≠ []) :
    ⟨g.start, []⟩ ∈ g.productions := by
  by_contra noEpsilon
  have solid : g.solid.Yields form [] := yields.mono fun p stored => by
    refine mem_solid.mpr ⟨stored, fun empty => noEpsilon ?_⟩
    rwa [← Production.eq_epsilon_of_isNormal (normal p stored) empty]
  exact nonempty solid.eq_nil

theorem start_mem_nullable_iff : g.start ∈ g.nullable ↔ ⟨g.start, []⟩ ∈ g.productions := by
  rw [mem_nullable_iff]
  constructor
  · intro yields
    exact start_epsilon_of_yields_nil normal yields (List.cons_ne_nil _ _)
  · intro stored
    exact .of_mem stored .nil

/-- The passes for ε and unit productions keep a saturated grammar as it is. -/
theorem Saturated.withoutUnits_eq_self (saturated : g.Saturated) (coherent : g.Coherent)
    (ran : g.withoutEpsilon = .ok out) : out.withoutUnits = g := by
  have sameStart : out.start = g.start := withoutEpsilon_start ran
  refine ext_mem (fun a => ?_) (fun t => ?_) (fun p => ?_) sameStart
  · change a ∈ out.nonterminals ↔ a ∈ g.nonterminals
    rw [withoutEpsilon_nonterminals ran]
  · change t ∈ out.terminals ↔ t ∈ g.terminals
    rw [withoutEpsilon_terminals ran]
  · rw [mem_withoutUnits, sameStart]
    constructor
    · intro found
      obtain ⟨b, pair, stored, noUnit, allowed⟩ := found
      rcases (mem_withoutEpsilon ran).mp stored with ⟨nonempty, q, inG, rfl, variant⟩ | ⟨epsilon, nullable⟩
      · have whole : p.rhs = q.rhs := Production.eq_of_sublist_of_isNormal (normal q inG)
          (sublist_of_mem_variants variant) nonempty noUnit
        have chain : ReflTransGen g.Leaves p.lhs q.lhs :=
          (chain_of_mem_unitPairs pair).lift id fun _ _ => (unitStep_withoutEpsilon_iff ran).mp
        exact saturated.of_chain chain nonempty (whole ▸ inG)
      · have empty : p.rhs = [] := congrArg Production.rhs epsilon
        have same : p = ⟨g.start, []⟩ := by
          rw [← allowed empty, ← empty]
        rw [same]
        exact (start_mem_nullable_iff normal).mp nullable
    · intro stored
      have declared : p.lhs ∈ out.nonterminals := withoutEpsilon_nonterminals ran ▸ coherent.heads p stored
      refine ⟨p.lhs, self_mem_unitPairs declared, (mem_withoutEpsilon ran).mpr ?_,
        Production.rhs_ne_unit_of_isNormal (normal p stored), fun empty => ?_⟩
      · by_cases empty : p.rhs = []
        · have same := Production.eq_epsilon_of_isNormal (normal p stored) empty
          refine .inr ⟨same, (start_mem_nullable_iff normal).mpr ?_⟩
          rwa [← same]
        · exact .inl ⟨empty, p, stored, rfl, self_mem_variants p.rhs⟩
      · exact congrArg Production.lhs (Production.eq_epsilon_of_isNormal (normal p stored) empty)

end Grammar

namespace Passes.Ran

variable {g : Grammar} {options : Options} {passes : Passes} (ran : passes.Ran g options)
include ran

/-- The last two passes have nothing to do in Chomsky normal form. -/
theorem binarization_eq_useful (normal : ∀ p ∈ passes.useful.productions, p.isNormal passes.useful.start = true) :
    passes.binarization.grammar = passes.useful := by
  have isolated : passes.isolation.grammar = passes.useful := by
    rw [ran.isolation, Grammar.isolateTerminals_eq_self]
    exact fun p stored => Production.terminal_not_mem_of_isNormal (normal p stored)
  rw [ran.binarization, isolated, Grammar.binarize_eq_self]
  exact fun p stored => Production.length_le_of_isNormal (normal p stored)

/-- Variants and copies of normal productions that are no unit productions are normal. -/
theorem useful_isNormal (normal : ∀ p ∈ g.productions, p.isNormal g.start = true) :
    ∀ p ∈ passes.useful.productions, p.isNormal passes.useful.start = true := by
  intro p stored
  obtain ⟨noUnit, atStart⟩ := ran.useful_shape stored
  rw [ran.useful_start, Production.isNormal_iff]
  by_cases empty : p.rhs = []
  · left
    rw [← atStart empty, ← empty]
  · right
    rw [ran.useful, ran.unitFree] at stored
    obtain ⟨b, original, _, inG, variant⟩ :=
      Grammar.exists_of_mem_withoutUseless_withoutUnits ran.epsilonFree stored empty
    have whole : p.rhs = original := Production.eq_of_sublist_of_isNormal (normal _ inG)
      (sublist_of_mem_variants variant) empty noUnit
    rcases Production.isNormal_iff.mp (normal _ inG) with epsilon | other
    · cases epsilon
      exact absurd whole empty
    · rwa [whole]

end Passes.Ran

namespace Grammar

variable {g : Grammar} {options : Options}

/-- A saturated grammar in Chomsky normal form loses what is useless, and that is all. -/
theorem Saturated.exists_convert (saturated : g.Saturated) (formed : g.WellFormed)
    (normal : ∀ p ∈ g.productions, p.isNormal g.start = true)
    (limited : g.checkExpansion options.maxNullable = .ok ()) :
    ∃ c, g.convert options = .ok c ∧ c.grammar = g.withoutUseless := by
  obtain ⟨c, converted⟩ := Grammar.exists_convert formed limited
  obtain ⟨_, passes, result, same, _⟩ := convert_eq_ok converted
  have ran := ran_of_runPasses result
  have kept : passes.unitFree = g := by
    rw [ran.unitFree]
    exact saturated.withoutUnits_eq_self normal formed.toCoherent ran.epsilonFree
  refine ⟨c, converted, ?_⟩
  rw [same, ran.binarization_eq_useful (ran.useful_isNormal normal), ran.useful, kept]

/-- A second conversion may add variants and copies that a nullable start symbol on right-hand
sides gives rise to. It leaves nothing of the kind to be added by a third. -/
theorem exists_convert_again (normal : ∀ p ∈ g.productions, p.isNormal g.start = true)
    {c : Conversion} (converted : g.convert options = .ok c) :
    ∃ d, c.grammar.convert options = .ok d ∧ d.grammar = c.grammar := by
  obtain ⟨_, passes, result, same, _⟩ := convert_eq_ok converted
  have ran := ran_of_runPasses result
  have usefulNormal := ran.useful_isNormal normal
  have useful : c.grammar = passes.epsilonFree.withoutUnits.withoutUseless := by
    rw [same, ran.binarization_eq_useful usefulNormal, ran.useful, ran.unitFree]
  have saturated : c.grammar.Saturated := useful ▸ withoutUseless_withoutUnits_saturated ran.epsilonFree
  have limited : c.grammar.checkExpansion options.maxNullable = .ok () := by
    have epsilonFree := checkExpansion_withoutEpsilon ran.epsilonFree (limited_of_convert converted)
    rw [useful]
    exact checkExpansion_withoutUseless (checkExpansion_withoutUnits epsilonFree)
  have tidy : c.grammar.Tidy := useful ▸ withoutUseless_tidy _
  obtain ⟨d, again, trimmed⟩ :=
    saturated.exists_convert (wellFormed_of_convert converted) (isNormal_of_convert converted) limited
  exact ⟨d, again, trimmed.trans tidy.withoutUseless_eq_self⟩

/-- From Chomsky normal form on one conversion is enough to find a grammar that conversion does not
change, so that from any grammar on two are. -/
theorem convert_stabilizes (options : Options) :
    (∀ (g : Grammar) (c : Conversion), g.check = .ok () → g.firstAbnormal? = none → g.convert options = .ok c →
      ∃ d, c.grammar.convert options = .ok d ∧ d.grammar = c.grammar) ∧
    ∀ (g : Grammar) (c d : Conversion), g.convert options = .ok c → c.grammar.convert options = .ok d →
      ∃ e, d.grammar.convert options = .ok e ∧ e.grammar = d.grammar := by
  constructor
  · intro g c _ normal converted
    exact exists_convert_again (firstAbnormal?_eq_none_iff.mp normal) converted
  · intro g c d first second
    exact exists_convert_again (isNormal_of_convert first) second

/-- A normal right-hand side has no more nullable positions than two, which the default allows. -/
theorem nested_stabilizes : ∃ c d e, nested.convert {} = .ok c ∧ c.grammar.check = .ok () ∧
    c.grammar.firstAbnormal? = none ∧ c.grammar.convert {} = .ok d ∧ d.grammar.convert {} = .ok e ∧
    e.grammar = d.grammar := by
  obtain ⟨c, first⟩ := nested_converts
  have formed := wellFormed_of_convert first
  have normal := isNormal_of_convert first
  have limited : c.grammar.checkExpansion ({} : Options).maxNullable = .ok () := by
    refine checkExpansion_of_short fun p stored => ?_
    have short := Production.length_le_of_isNormal (normal p stored)
    change _ ≤ min 16 20
    omega
  obtain ⟨d, second⟩ := exists_convert formed limited
  have checked : c.grammar.check = .ok () := check_eq_ok_iff.mpr formed
  have accepted : c.grammar.firstAbnormal? = none := firstAbnormal?_eq_none_iff.mpr normal
  obtain ⟨e, third, unchanged⟩ := (convert_stabilizes {}).1 c.grammar d checked accepted second
  exact ⟨c, d, e, first, checked, accepted, second, third, unchanged⟩

section

variable (normal : ∀ p ∈ g.productions, p.isNormal g.start = true)
include normal

/-- Only the start symbol derives the empty word if no right-hand side mentions it. -/
theorem eq_start_of_yields_nil (separate : ∀ p ∈ g.productions, .nonterminal g.start ∉ p.rhs) {form : List Symbol}
    (yields : g.Yields form []) : ∀ a, .nonterminal a ∈ form → a = g.start := by
  generalize empty : ([] : List Name) = word at yields
  induction yields with
  | nil => intro a member; cases member
  | terminal => cases empty
  | @nonterminal b rhs form inner word stored yields _ ihInner ihRest =>
    obtain ⟨rfl, rfl⟩ := List.append_eq_nil_iff.mp empty.symm
    intro a member
    rcases List.mem_cons.mp member with same | later
    · obtain rfl : a = b := Symbol.nonterminal.inj same
      rcases Production.isNormal_iff.mp (normal _ stored) with epsilon | ⟨t, rfl⟩ | ⟨c, d, rfl⟩
      · exact congrArg Production.lhs epsilon
      · cases yields
      · -- Both symbols of a pair would be the start symbol.
        have first : c = g.start := ihInner rfl c (by simp)
        exact absurd (by simp [first]) (separate _ stored)
    · exact ihRest rfl a later

/-- No symbol of a right-hand side can be left out where there is no ε-production, or where the
start symbol stands on no right-hand side. -/
theorem not_within_nullable
    (separate : (∀ p ∈ g.productions, p.rhs ≠ []) ∨ ∀ p ∈ g.productions, .nonterminal g.start ∉ p.rhs) :
    ∀ p ∈ g.productions, ∀ s ∈ p.rhs, s.within false g.nullable = false := by
  intro p stored s member
  cases s with
  | terminal t => rfl
  | nonterminal a =>
    rw [Symbol.within, ← Bool.not_eq_true, Std.ExtTreeSet.contains_iff_mem, mem_nullable_iff]
    intro yields
    rcases separate with noEpsilon | unmentioned
    · have epsilon := start_epsilon_of_yields_nil normal yields (List.cons_ne_nil _ _)
      exact noEpsilon _ epsilon rfl
    · have same : a = g.start := eq_start_of_yields_nil normal unmentioned yields a (List.mem_singleton_self _)
      exact unmentioned p stored (same ▸ member)

end

/-- Conversion only trims a grammar in Chomsky normal form whose start symbol cannot be erased
inside a right-hand side, and it leaves what it made itself as it is. -/
theorem convert_eq_withoutUseless (checked : g.check = .ok ()) (accepted : g.firstAbnormal? = none)
    (separate : (∀ p ∈ g.productions, p.rhs ≠ []) ∨ ∀ p ∈ g.productions, .nonterminal g.start ∉ p.rhs)
    (options : Options) :
    (∃ c, g.convert options = .ok c ∧ c.grammar = g.withoutUseless) ∧
      ∀ (origin : Grammar) (before : Options) (made : Conversion), origin.convert before = .ok made →
        made.grammar = g → ∃ c, g.convert options = .ok c ∧ c.grammar = g := by
  have formed := check_eq_ok_iff.mp checked
  have normal := firstAbnormal?_eq_none_iff.mp accepted
  have none := not_within_nullable normal separate
  have saturated : g.Saturated :=
    saturated_of_solid_rhs (fun p stored => Production.rhs_ne_unit_of_isNormal (normal p stored)) none
  have limited : g.checkExpansion options.maxNullable = .ok () := by
    refine checkExpansion_eq_ok_iff.mpr fun p stored => ?_
    have zero : nullablePositions g.nullable p.rhs = 0 := by
      refine List.countP_eq_zero.mpr fun s member => ?_
      rw [none p stored s member]
      exact Bool.false_ne_true
    omega
  have trimmed := saturated.exists_convert formed normal limited
  refine ⟨trimmed, fun origin before made converted same => ?_⟩
  obtain ⟨originFormed, passes, result, grammar, _⟩ := convert_eq_ok converted
  have tidy : g.Tidy := by
    rw [← same, grammar]
    exact (ran_of_runPasses result).binarization_tidy originFormed
  rwa [tidy.withoutUseless_eq_self] at trimmed

/-- A grammar in Chomsky normal form with a symbol that is of no use. -/
def paired : Grammar where
  nonterminals := .ofList ["S", "A", "B", "U"]
  terminals := .ofList ["a", "b", "u"]
  productions := .ofList [Production.mk "S" [], ⟨"S", [.nonterminal "A", .nonterminal "B"]⟩,
    ⟨"A", [.terminal "a"]⟩, ⟨"B", [.terminal "b"]⟩, ⟨"U", [.terminal "u"]⟩]
  start := "S"

/-- The second conversion is of a grammar that the first one made. -/
theorem paired_eq_withoutUseless : ∃ c d, paired.convert ⟨0, "", "", true⟩ = .ok c ∧
    c.grammar = paired.withoutUseless ∧ c.grammar.convert ⟨0, "S", "A", false⟩ = .ok d ∧ d.grammar = c.grammar := by
  have checked : paired.check = .ok () := by decide +kernel
  have accepted : paired.firstAbnormal? = none := by decide +kernel
  have separate : ∀ p ∈ paired.productions, .nonterminal "S" ∉ p.rhs := by simp [paired]
  obtain ⟨⟨c, first, trimmed⟩, _⟩ := convert_eq_withoutUseless checked accepted (.inr separate) ⟨0, "", "", true⟩
  have formed := wellFormed_of_convert first
  have normal := isNormal_of_convert first
  have stillSeparate : ∀ p ∈ c.grammar.productions, .nonterminal c.grammar.start ∉ p.rhs := by
    rw [trimmed]
    exact fun p stored => separate p (mem_of_mem_withoutUseless stored)
  obtain ⟨_, unchanged⟩ := convert_eq_withoutUseless (check_eq_ok_iff.mpr formed)
    (firstAbnormal?_eq_none_iff.mpr normal) (.inr stillSeparate) ⟨0, "S", "A", false⟩
  obtain ⟨d, second, same⟩ := unchanged paired ⟨0, "", "", true⟩ c first rfl
  exact ⟨c, d, first, trimmed, second, same⟩

end Grammar

end ContextFree
