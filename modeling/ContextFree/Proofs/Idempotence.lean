import ContextFree.Proofs.Limits
import ContextFree.Proofs.Pruning
import ContextFree.Proofs.Refusal
import ContextFree.Proofs.Usefulness
import ContextFree.Proofs.Words

namespace ContextFree.Grammar

open Relation

variable {g out : Grammar}

/-! ### ε-productions -/

theorem limited_of_withoutEpsilon (ran : g.withoutEpsilon = .ok out) :
    g.checkExpansion expansionCap = .ok () := by
  cases limited : g.checkExpansion expansionCap with
  | ok => rfl
  | error e => cases ran.symm.trans ((withoutEpsilon_eq_error_iff (Nat.le_refl _)).mpr limited)

/-- A second run finds fewer nonterminals that derive the empty word, perhaps, and leaves out symbols of what
the first run has left some out of. That makes variants which the first run has made already. -/
theorem withoutEpsilon_again (ran : g.withoutEpsilon = .ok out) : out.withoutEpsilon = .ok out := by
  have limited := checkExpansion_withoutEpsilon ran (limited_of_withoutEpsilon ran)
  obtain ⟨again, ranAgain⟩ := exists_withoutEpsilon limited
  have fewer : ∀ a ∈ out.nullable, a ∈ g.nullable := fun a => mem_nullable_of_derives (derives_of_withoutEpsilon ran)
  have start : out.start = g.start := withoutEpsilon_start ran
  have same : again = out := by
    refine ext_mem (fun a => ?_) (fun t => ?_) (fun p => ?_) (withoutEpsilon_start ranAgain)
    · rw [withoutEpsilon_nonterminals ranAgain]
    · rw [withoutEpsilon_terminals ranAgain]
    · rw [mem_withoutEpsilon ranAgain]
      constructor
      · intro found
        rcases found with ⟨nonempty, q, inOut, lhs, variant⟩ | ⟨rfl, nullable⟩
        · rcases (mem_withoutEpsilon ran).mp inOut with ⟨_, r, inG, same, first⟩ | ⟨rfl, _⟩
          · have once := mem_variants_trans first (mem_variants_mono fewer variant)
            exact (mem_withoutEpsilon ran).mpr (.inl ⟨nonempty, r, inG, lhs.trans same, once⟩)
          · exact absurd (mem_variants_nil.mp variant) nonempty
        · rw [start] at nullable ⊢
          exact (mem_withoutEpsilon ran).mpr (.inr ⟨rfl, fewer _ nullable⟩)
      · intro stored
        by_cases empty : p.rhs = []
        · have epsilon : p = ⟨out.start, []⟩ := by
            rw [← rhs_eq_nil_of_mem_withoutEpsilon ran stored empty, ← empty]
          rw [epsilon] at stored ⊢
          exact .inr ⟨rfl, mem_nullable_iff.mpr (.of_mem stored .nil)⟩
        · exact .inl ⟨empty, p, stored, rfl, self_mem_variants p.rhs⟩
  rw [ranAgain, same]

/-! ### Unit productions -/

/-- Nothing is copied where there is no unit production, and nothing is dropped where only the start symbol
has an ε-production. -/
theorem withoutUnits_eq_self (coherent : g.Coherent) (noUnit : ∀ p ∈ g.productions, ∀ b, p.rhs ≠ [.nonterminal b])
    (atStart : ∀ p ∈ g.productions, p.rhs = [] → p.lhs = g.start) : g.withoutUnits = g := by
  have still {a b : Name} (chain : ReflTransGen g.UnitStep a b) : a = b := by
    cases chain with
    | refl => rfl
    | tail _ step => exact absurd rfl (noUnit _ step b)
  refine ext_mem (fun _ => .rfl) (fun _ => .rfl) (fun p => ?_) rfl
  refine mem_withoutUnits.trans ⟨fun found => ?_, fun stored => ?_⟩
  · obtain ⟨b, pair, stored, _⟩ := found
    rwa [← still (chain_of_mem_unitPairs pair)] at stored
  · exact ⟨p.lhs, self_mem_unitPairs (coherent.heads p stored), stored, noUnit p stored, atStart p stored⟩

theorem Coherent.withoutUnits_again (coherent : g.Coherent) : g.withoutUnits.withoutUnits = g.withoutUnits := by
  refine withoutUnits_eq_self coherent.withoutUnits (fun p stored => ?_) fun p stored => ?_
  · obtain ⟨_, _, _, noUnit, _⟩ := mem_withoutUnits.mp stored
    exact noUnit
  · obtain ⟨_, _, _, _, atStart⟩ := mem_withoutUnits.mp stored
    exact atStart

/-! ### Useless symbols -/

/-- No word is lost, so that the same nonterminals have words. -/
theorem generating_withoutNonGenerating (g : Grammar) : g.withoutNonGenerating.generating = g.generating := by
  refine Std.ExtTreeSet.ext_mem fun a => ?_
  simp only [mem_generating_iff, ← generates_iff_yields, withoutNonGenerating_generates_iff]

theorem withoutNonGenerating_again (g : Grammar) :
    g.withoutNonGenerating.withoutNonGenerating = g.withoutNonGenerating := by
  have same := generating_withoutNonGenerating g
  refine withoutNonGenerating_eq_self (fun a => ?_) fun p stored => ?_
  · rw [same]
    exact FiniteSet.mem_insert_iff.symm
  · rw [same]
    exact (mem_withoutNonGenerating.mp stored).2

/-- What is reached on the way to a reachable nonterminal is reachable, so that no way is cut off. -/
theorem reachable_withoutUnreachable (g : Grammar) : g.withoutUnreachable.reachable = g.reachable := by
  have kept : ∀ a ∈ g.reachable, a ∈ g.reachable ∧ a ∈ g.withoutUnreachable.reachable := by
    refine reachable_induction ⟨start_mem_reachable, start_mem_reachable⟩ fun p stored both a member => ?_
    have left := mem_withoutUnreachable.mpr ⟨stored, both.1⟩
    exact ⟨reachable_closed stored both.1 member, reachable_closed left both.2 member⟩
  have old : ∀ a ∈ g.withoutUnreachable.reachable, a ∈ g.reachable :=
    reachable_induction start_mem_reachable fun p left reached a member =>
      reachable_closed (mem_withoutUnreachable.mp left).1 reached member
  exact Std.ExtTreeSet.ext_mem fun a => ⟨old a, fun reached => (kept a reached).2⟩

theorem withoutUnreachable_again (g : Grammar) : g.withoutUnreachable.withoutUnreachable = g.withoutUnreachable := by
  have same := reachable_withoutUnreachable g
  refine withoutUnreachable_eq_self (fun a => ?_) (fun t => ?_) fun p left => ?_
  · rw [same]
    exact .rfl
  · change t ∈ g.withoutUnreachable.reachableTerminals ↔ t ∈ g.reachableTerminals
    simp only [mem_reachableTerminals, mem_withoutUnreachable, same, and_assoc, and_self_left]
  · rw [same]
    exact (mem_withoutUnreachable.mp left).2

/-! ### New names -/

/-- Isolation leaves nothing to isolate. -/
theorem isolateTerminals_again (g : Grammar) (supply : NameSupply) (stem : String) (other : NameSupply)
    (another : String) : (g.isolateTerminals supply stem).grammar.isolateTerminals other another =
      ⟨(g.isolateTerminals supply stem).grammar, other, []⟩ := by
  refine isolateTerminals_eq_self other another fun q stored long t member => ?_
  rcases exists_of_mem_isolateTerminals stored with ⟨_, short⟩ | ⟨u, single⟩ | ⟨_, named⟩
  · omega
  · simp [single] at long
  · obtain ⟨a, same⟩ := named _ member
    cases same

/-- Binarization leaves nothing to split. -/
theorem binarize_again (g : Grammar) (supply other : NameSupply) :
    (g.binarize supply).grammar.binarize other = ⟨(g.binarize supply).grammar, other, []⟩ := by
  refine binarize_eq_self other fun p stored => ?_
  obtain ⟨q, _, ⟨short, rfl⟩ | ⟨_, pair, _⟩⟩ := exists_of_mem_binarize stored
  · exact short
  · exact pair.le

/-- Every pass has done all of its work after one run: a second run changes nothing, and takes no number from
the supply that it is given. -/
theorem Built.passes_idempotent (built : g.Built) :
    (∀ out, g.withoutEpsilon = .ok out → out.withoutEpsilon = .ok out) ∧
      g.withoutUnits.withoutUnits = g.withoutUnits ∧
      g.withoutNonGenerating.withoutNonGenerating = g.withoutNonGenerating ∧
      g.withoutUnreachable.withoutUnreachable = g.withoutUnreachable ∧
      g.withoutUseless.withoutUseless = g.withoutUseless ∧
      (∀ (supply other : NameSupply) (stem another : String),
        (g.isolateTerminals supply stem).grammar.isolateTerminals other another =
          ⟨(g.isolateTerminals supply stem).grammar, other, []⟩) ∧
      ∀ supply other : NameSupply,
        (g.binarize supply).grammar.binarize other = ⟨(g.binarize supply).grammar, other, []⟩ := by
  refine ⟨fun out => withoutEpsilon_again, built.coherent.withoutUnits_again, withoutNonGenerating_again g,
    withoutUnreachable_again g, (withoutUseless_tidy g).withoutUseless_eq_self, ?_, binarize_again g⟩
  exact fun supply other stem another => isolateTerminals_again g supply stem other another

/-- The first run makes a production of the start symbol by itself. The names of the second supply would be
taken. -/
theorem doubling_passes_idempotent : doubling.Built ∧ ∃ out, doubling.withoutEpsilon = .ok out ∧ out ≠ doubling ∧
    out.withoutEpsilon = .ok out ∧ doubling.withoutUnits.withoutUnits = doubling.withoutUnits ∧
      doubling.withoutUseless.withoutUseless = doubling.withoutUseless ∧
      (doubling.binarize ⟨"", 5⟩).grammar.binarize ⟨"S", 0⟩ =
        ⟨(doubling.binarize ⟨"", 5⟩).grammar, ⟨"S", 0⟩, []⟩ := by
  have built : doubling.Built := ⟨_, _, .ofStart _, rfl⟩
  obtain ⟨out, ran⟩ : ∃ out, doubling.withoutEpsilon = .ok out := exists_withoutEpsilon_of_short (by decide +kernel)
  obtain ⟨again, units, _, _, useless, _, splits⟩ := built.passes_idempotent
  have twice : ⟨"S", [.nonterminal "S", .nonterminal "S"]⟩ ∈ doubling.productions := by decide +kernel
  have once : ⟨"S", [.nonterminal "S"]⟩ ∈ out.productions := by
    exact (mem_withoutEpsilon ran).mpr (.inl ⟨by simp, _, twice, rfl, by decide +kernel⟩)
  have new : ⟨"S", [.nonterminal "S"]⟩ ∉ doubling.productions := by decide +kernel
  refine ⟨built, out, ran, ?_, again out ran, units, useless, splits ⟨"", 5⟩ ⟨"S", 0⟩⟩
  rintro rfl
  exact new once

end ContextFree.Grammar
