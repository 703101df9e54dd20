import ContextFree.Proofs.Conversion

namespace ContextFree

theorem Production.isNormal_iff {start : Name} {p : Production} : p.isNormal start = true ↔
    p = ⟨start, []⟩ ∨ (∃ t, p.rhs = [.terminal t]) ∨ ∃ a b, p.rhs = [.nonterminal a, .nonterminal b] := by
  obtain ⟨lhs, rhs⟩ := p
  unfold isNormal
  split
  · rename_i empty
    obtain rfl : rhs = [] := empty
    simp
  · rename_i t single
    obtain rfl : rhs = [.terminal t] := single
    simp
  · rename_i a b pair
    obtain rfl : rhs = [.nonterminal a, .nonterminal b] := pair
    simp
  · rename_i notEmpty notSingle notPair
    constructor
    · intro normal
      cases normal
    · intro found
      rcases found with same | ⟨t, single⟩ | ⟨a, b, pair⟩
      · cases same
        exact absurd rfl notEmpty
      · exact absurd single (notSingle t)
      · exact absurd pair (notPair a b)

/-- Only the start symbol has an ε-production. -/
theorem Production.eq_epsilon_of_isNormal {start : Name} {p : Production} (normal : p.isNormal start = true)
    (empty : p.rhs = []) : p = ⟨start, []⟩ := by
  rcases isNormal_iff.mp normal with epsilon | ⟨t, single⟩ | ⟨a, b, pair⟩
  · exact epsilon
  · simp [empty] at single
  · simp [empty] at pair

theorem Grammar.firstAbnormal?_eq_none_iff {g : Grammar} :
    g.firstAbnormal? = none ↔ ∀ p ∈ g.productions, p.isNormal g.start = true := by
  simp [firstAbnormal?]

namespace Passes.Ran

variable {g : Grammar} {options : Options} {passes : Passes} (ran : passes.Ran g options)

include ran in
theorem isolation_shape {p : Production} (stored : p ∈ passes.isolation.grammar.productions) :
    p = ⟨g.start, []⟩ ∨ (∃ t, p.rhs = [.terminal t]) ∨
      2 ≤ p.rhs.length ∧ ∀ s ∈ p.rhs, ∃ a, s = .nonterminal a := by
  rw [ran.isolation] at stored
  rcases Grammar.exists_of_mem_isolateTerminals stored with ⟨useful, short⟩ | other
  · obtain ⟨noUnit, atStart⟩ := ran.useful_shape useful
    obtain ⟨lhs, rhs⟩ := p
    match rhs, short with
    | [], _ =>
      obtain rfl : lhs = g.start := atStart rfl
      exact .inl rfl
    | [.terminal t], _ => exact .inr (.inl ⟨t, rfl⟩)
    | [.nonterminal a], _ => exact absurd rfl (noUnit a)
  · exact .inr other

include ran in
/-- Splitting leaves pairs of nonterminals, and no shorter right-hand side is touched. -/
theorem binarization_isNormal (formed : g.WellFormed) :
    ∀ p ∈ passes.binarization.grammar.productions, p.isNormal passes.binarization.grammar.start = true := by
  intro p stored
  rw [Production.isNormal_iff, ran.binarization_start formed]
  rw [ran.binarization] at stored
  obtain ⟨q, isolated, split⟩ := Grammar.exists_of_mem_binarize stored
  have pair : p.rhs.length = 2 → (∀ s ∈ p.rhs, ∃ a, s = .nonterminal a) →
      ∃ a b, p.rhs = [.nonterminal a, .nonterminal b] := by
    intro count named
    obtain ⟨s, t, same⟩ := List.length_eq_two.mp count
    rw [same] at named ⊢
    obtain ⟨a, rfl⟩ := named s (by simp)
    obtain ⟨b, rfl⟩ := named t (by simp)
    exact ⟨a, b, rfl⟩
  rcases ran.isolation_shape isolated with rfl | ⟨t, single⟩ | ⟨long, named⟩
  · rcases split with ⟨_, rfl⟩ | ⟨long, _⟩
    · exact .inl rfl
    · simp at long
  · rcases split with ⟨_, rfl⟩ | ⟨long, _⟩
    · exact .inr (.inl ⟨t, single⟩)
    · simp [single] at long
  · refine .inr (.inr ?_)
    rcases split with ⟨short, rfl⟩ | ⟨_, count, inside⟩
    · exact pair (by omega) named
    · refine pair count fun s member => ?_
      rcases inside s member with old | isNew
      · exact named s old
      · exact isNew

end Passes.Ran

namespace Grammar

variable {g : Grammar} {options : Options} {c : Conversion}

theorem wellFormed_of_convert (converted : g.convert options = .ok c) : c.grammar.WellFormed := by
  obtain ⟨formed, passes, result, same, _⟩ := convert_eq_ok converted
  rw [same]
  exact (ran_of_runPasses result).binarization_wellFormed formed

theorem isNormal_of_convert (converted : g.convert options = .ok c) :
    ∀ p ∈ c.grammar.productions, p.isNormal c.grammar.start = true := by
  obtain ⟨formed, passes, result, same, _⟩ := convert_eq_ok converted
  rw [same]
  exact (ran_of_runPasses result).binarization_isNormal formed

/-- The result of a conversion is a well-formed grammar in Chomsky normal form, whatever was
converted and whatever the new names begin with. -/
theorem convert_isNormal (converted : g.convert options = .ok c) :
    c.grammar.firstAbnormal? = none ∧ c.grammar.check = .ok () ∧
      ∀ p ∈ c.grammar.productions, p.lhs ∈ c.grammar.nonterminals ∧
        ((∃ a ∈ c.grammar.nonterminals, ∃ b ∈ c.grammar.nonterminals, p.rhs = [.nonterminal a, .nonterminal b]) ∨
          (∃ t ∈ c.grammar.terminals, p.rhs = [.terminal t]) ∨ p = ⟨c.grammar.start, []⟩) := by
  obtain ⟨formed, passes, result, same, _⟩ := convert_eq_ok converted
  have ran := ran_of_runPasses result
  have outFormed : c.grammar.WellFormed := same ▸ ran.binarization_wellFormed formed
  have normal : ∀ p ∈ c.grammar.productions, p.isNormal c.grammar.start = true :=
    same ▸ ran.binarization_isNormal formed
  refine ⟨firstAbnormal?_eq_none_iff.mpr normal, check_eq_ok_iff.mpr outFormed, fun p stored => ?_⟩
  refine ⟨outFormed.heads p stored, ?_⟩
  rcases Production.isNormal_iff.mp (normal p stored) with epsilon | ⟨t, single⟩ | ⟨a, b, pair⟩
  · exact .inr (.inr epsilon)
  · exact .inr (.inl ⟨t, outFormed.letters p stored t (by simp [single]), single⟩)
  · exact .inl ⟨a, outFormed.mentioned p stored a (by simp [pair]), b,
      outFormed.mentioned p stored b (by simp [pair]), pair⟩

theorem nested_isNormal : ∃ c, nested.convert {} = .ok c ∧ c.grammar.firstAbnormal? = none ∧
    c.grammar.check = .ok () := by
  obtain ⟨c, converted⟩ := nested_converts
  obtain ⟨normal, checked, _⟩ := convert_isNormal converted
  exact ⟨c, converted, normal, checked⟩

end Grammar

end ContextFree
