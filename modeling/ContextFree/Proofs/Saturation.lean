import ContextFree.Proofs.Limits
import ContextFree.Proofs.Usefulness

namespace ContextFree.Grammar

open Relation

variable {g out : Grammar}

/-- Some production of `a` has `b` alone for a variant. -/
def Leaves (g : Grammar) (a b : Name) : Prop :=
  ∃ rhs, ⟨a, rhs⟩ ∈ g.productions ∧ [.nonterminal b] ∈ variants g.nullable rhs

/-- What is copied along the unit productions that variants give rise to is there already. -/
def Saturated (g : Grammar) : Prop :=
  ∀ a b, g.Leaves a b → ∀ rhs, rhs ≠ [] → ⟨b, rhs⟩ ∈ g.productions → ⟨a, rhs⟩ ∈ g.productions

theorem unitStep_withoutEpsilon_iff (ran : g.withoutEpsilon = .ok out) {a b : Name} :
    out.UnitStep a b ↔ g.Leaves a b := by
  rw [UnitStep, mem_withoutEpsilon ran]
  constructor
  · intro found
    rcases found with ⟨_, q, stored, rfl, member⟩ | ⟨epsilon, _⟩
    · exact ⟨q.rhs, stored, member⟩
    · cases epsilon
  · intro leaves
    obtain ⟨rhs, stored, member⟩ := leaves
    exact .inl ⟨List.cons_ne_nil _ _, _, stored, rfl, member⟩

theorem Saturated.of_chain (saturated : g.Saturated) {a b : Name} (chain : ReflTransGen g.Leaves a b)
    {rhs : List Symbol} (nonempty : rhs ≠ []) (stored : ⟨b, rhs⟩ ∈ g.productions) : ⟨a, rhs⟩ ∈ g.productions := by
  induction chain with
  | refl => exact stored
  | tail _ step ih => exact ih (saturated _ _ step rhs nonempty stored)

/-- Where no right-hand side has a symbol that derives the empty word, variants are nothing new. -/
theorem saturated_of_solid_rhs (noUnit : ∀ p ∈ g.productions, ∀ b, p.rhs ≠ [.nonterminal b])
    (none : ∀ p ∈ g.productions, ∀ s ∈ p.rhs, s.within false g.nullable = false) : g.Saturated := by
  intro a b leaves
  obtain ⟨rhs, stored, member⟩ := leaves
  have same : [.nonterminal b] = rhs := eq_of_mem_variants (none _ stored) member
  exact absurd same.symm (noUnit _ stored b)

section

variable (ran : g.withoutEpsilon = .ok out)
include ran

theorem nullable_of_withoutUseless_withoutUnits {a : Name} (member : a ∈ out.withoutUnits.withoutUseless.nullable) :
    a ∈ g.nullable := by
  refine mem_nullable_of_derives (fun derivation => ?_) member
  exact derives_of_withoutUnits_withoutEpsilon ran (derives_of_withoutUseless derivation)

/-- The productions that are left are copies of variants. -/
theorem exists_of_mem_withoutUseless_withoutUnits {a : Name} {rhs : List Symbol}
    (stored : ⟨a, rhs⟩ ∈ out.withoutUnits.withoutUseless.productions) (nonempty : rhs ≠ []) :
    ∃ b original, ⟨a, b⟩ ∈ out.unitPairs ∧ ⟨b, original⟩ ∈ g.productions ∧ rhs ∈ variants g.nullable original := by
  obtain ⟨b, pair, copied, _⟩ := mem_withoutUnits.mp (mem_of_mem_withoutUseless stored)
  rcases (mem_withoutEpsilon ran).mp copied with ⟨_, q, inG, rfl, member⟩ | ⟨epsilon, _⟩
  · exact ⟨q.lhs, q.rhs, pair, inG, member⟩
  · cases epsilon
    exact absurd rfl nonempty

/-- A second search for variants and unit pairs finds what the first one has seen to. A variant of
a variant is a variant, so the unit production that it amounts to was there to be copied along. -/
theorem withoutUseless_withoutUnits_saturated : out.withoutUnits.withoutUseless.Saturated := by
  intro a b leaves rhs nonempty stored
  obtain ⟨whole, left, member⟩ := leaves
  have wholeNonempty : whole ≠ [] := by
    rintro rfl
    cases mem_variants_nil.mp member
  obtain ⟨c, original, pair, inG, variant⟩ := exists_of_mem_withoutUseless_withoutUnits ran left wholeNonempty
  have alone : [.nonterminal b] ∈ variants g.nullable original :=
    mem_variants_trans variant (mem_variants_mono (fun _ => nullable_of_withoutUseless_withoutUnits ran) member)
  have step : out.UnitStep c b := (unitStep_withoutEpsilon_iff ran).mpr ⟨original, inG, alone⟩
  obtain ⟨d, further, copied, noUnit, _⟩ := mem_withoutUnits.mp (mem_of_mem_withoutUseless stored)
  have through : ⟨a, b⟩ ∈ out.unitPairs := UnitRelation.closure_trans pair (step_mem_unitPairs step)
  have longer : ⟨a, d⟩ ∈ out.unitPairs := UnitRelation.closure_trans through further
  have copy : ⟨a, rhs⟩ ∈ out.withoutUnits.productions :=
    mem_withoutUnits.mpr ⟨d, longer, copied, noUnit, fun empty => absurd empty nonempty⟩
  have declared : a ∈ out.withoutUnits.withoutUseless.nonterminals := (Coherent.withoutUseless _).heads _ left
  obtain ⟨word, yields⟩ := exists_yields_withoutUseless stored
  exact mem_withoutUseless_of_yields copy declared (yields.mono fun _ => mem_of_mem_withoutUseless)

end

end ContextFree.Grammar
