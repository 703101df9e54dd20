import ContextFree.UnitFree
import ContextFree.Proofs.Abbreviation
import ContextFree.Proofs.Absorption
import ContextFree.Proofs.EpsilonFree
import Mathlib.Logic.Relation

namespace ContextFree

open Relation

theorem Production.unitTarget_eq_some {p : Production} {b : Name} :
    p.unitTarget = some b ↔ p.rhs = [.nonterminal b] := by
  unfold unitTarget
  split
  · rename_i c same
    simp [same]
  · rename_i other
    simpa using other b

theorem Production.unitTarget_eq_none {p : Production} : p.unitTarget = none ↔ ∀ b, p.rhs ≠ [.nonterminal b] := by
  simp only [Option.eq_none_iff_forall_ne_some, ne_eq, unitTarget_eq_some]

namespace UnitRelation

theorem extend_closed {r : UnitRelation} {sources : List Name} (settled : r.extend sources = r) {a b d : Name}
    (isSource : a ∈ sources) (outer : ⟨a, b⟩ ∈ r) (inner : ⟨b, d⟩ ∈ r) : ⟨a, d⟩ ∈ r := by
  induction sources with
  | nil => cases isSource
  | cons c rest ih =>
    have same : r.extendRow c = r := by
      refine Std.ExtTreeSet.ext_mem fun x => ⟨fun member => ?_, fun member => mem_extendRow.mpr (.inl member)⟩
      have later : x ∈ (r.extendRow c).extend rest := mem_extend_of_mem member
      rwa [extend, ← List.foldl_cons, ← extend, settled] at later
    rcases List.mem_cons.mp isSource with rfl | inRest
    · rw [← same]
      exact mem_extendRow.mpr (.inr ⟨rfl, b, outer, inner⟩)
    · refine ih ?_ inRest
      rwa [extend, List.foldl_cons, same] at settled

theorem extend_induction {holds : UnitPair → Prop}
    (trans : ∀ a b d, holds ⟨a, b⟩ → holds ⟨b, d⟩ → holds ⟨a, d⟩) {r : UnitRelation} {sources : List Name}
    (initial : ∀ x ∈ r, holds x) : ∀ x ∈ r.extend sources, holds x := by
  induction sources generalizing r with
  | nil => exact initial
  | cons c rest ih =>
    refine ih fun x member => ?_
    rcases mem_extendRow.mp member with old | ⟨rfl, b, outer, inner⟩
    · exact initial x old
    · exact trans _ _ _ (initial _ outer) (initial _ inner)

theorem closure_induction {holds : UnitPair → Prop}
    (trans : ∀ a b d, holds ⟨a, b⟩ → holds ⟨b, d⟩ → holds ⟨a, d⟩) {r : UnitRelation}
    (initial : ∀ x ∈ r, holds x) : ∀ x ∈ r.closure, holds x :=
  settle_of_step (fun s => ∀ x ∈ s, holds x) (fun _ => extend_induction trans) initial

theorem mem_closure_of_mem {r : UnitRelation} {x : UnitPair} (member : x ∈ r) : x ∈ r.closure :=
  settle_of_step (x ∈ ·) (fun _ => mem_extend_of_mem) member

theorem closure_trans {r : UnitRelation} {a b d : Name} (outer : ⟨a, b⟩ ∈ r.closure) (inner : ⟨b, d⟩ ∈ r.closure) :
    ⟨a, d⟩ ∈ r.closure := by
  have settled : r.closure.extend r.sources.toList = r.closure :=
    @step_settle _ _ (·.extend r.sources.toList) _ _ r
  have fromSources : ∀ x ∈ r.closure, x.source ∈ r.sources.toList := by
    refine closure_induction (fun _ _ _ isSource _ => isSource) fun x member => ?_
    simp only [sources, Std.ExtTreeSet.mem_toList, FiniteSet.mem_ofList_iff]
    exact List.mem_map_of_mem (Std.ExtTreeSet.mem_toList.mpr member)
  exact extend_closed settled (fromSources _ outer) outer inner

end UnitRelation

namespace Grammar

def UnitStep (g : Grammar) (a b : Name) : Prop :=
  ⟨a, [.nonterminal b]⟩ ∈ g.productions

variable {g : Grammar}

theorem mem_unitSteps {a b : Name} : ⟨a, b⟩ ∈ g.unitSteps ↔ a ∈ g.nonterminals ∧ a = b ∨ g.UnitStep a b := by
  simp only [unitSteps, FiniteSet.mem_ofList_iff, List.mem_append, List.mem_map, List.mem_filterMap,
    Std.ExtTreeSet.mem_toList, Option.map_eq_some_iff, UnitPair.mk.injEq]
  refine or_congr ?_ ?_
  · constructor
    · intro found
      obtain ⟨c, declared, rfl, rfl⟩ := found
      exact ⟨declared, rfl⟩
    · intro found
      obtain ⟨declared, rfl⟩ := found
      exact ⟨a, declared, rfl, rfl⟩
  · constructor
    · intro found
      obtain ⟨⟨lhs, rhs⟩, stored, c, target, rfl, rfl⟩ := found
      obtain rfl : rhs = [.nonterminal c] := Production.unitTarget_eq_some.mp target
      exact stored
    · intro stored
      exact ⟨_, stored, b, Production.unitTarget_eq_some.mpr rfl, rfl, rfl⟩

theorem chain_of_mem_unitPairs {a b : Name} (pair : ⟨a, b⟩ ∈ g.unitPairs) : ReflTransGen g.UnitStep a b := by
  have sound : ∀ x ∈ g.unitPairs, ReflTransGen g.UnitStep x.source x.target := by
    refine UnitRelation.closure_induction (fun _ _ _ first second => first.trans second) ?_
    intro pair member
    obtain ⟨c, d⟩ := pair
    rcases mem_unitSteps.mp member with ⟨_, rfl⟩ | step
    · exact .refl
    · exact .single step
  exact sound _ pair

theorem source_of_mem_unitPairs (coherent : g.Coherent) {a b : Name} (pair : ⟨a, b⟩ ∈ g.unitPairs) :
    a ∈ g.nonterminals := by
  have sound : ∀ x ∈ g.unitPairs, x.source ∈ g.nonterminals := by
    refine UnitRelation.closure_induction (fun _ _ _ declared _ => declared) ?_
    intro pair member
    obtain ⟨c, d⟩ := pair
    rcases mem_unitSteps.mp member with ⟨declared, _⟩ | step
    · exact declared
    · exact coherent.heads _ step
  exact sound _ pair

theorem self_mem_unitPairs {a : Name} (declared : a ∈ g.nonterminals) : ⟨a, a⟩ ∈ g.unitPairs :=
  UnitRelation.mem_closure_of_mem (mem_unitSteps.mpr (.inl ⟨declared, rfl⟩))

theorem step_mem_unitPairs {a b : Name} (step : g.UnitStep a b) : ⟨a, b⟩ ∈ g.unitPairs :=
  UnitRelation.mem_closure_of_mem (mem_unitSteps.mpr (.inr step))

/-- Where left-hand sides are declared, the pairs are the chains of unit productions that start at
a declared nonterminal. -/
theorem mem_unitPairs_iff (coherent : g.Coherent) {a b : Name} :
    ⟨a, b⟩ ∈ g.unitPairs ↔ a ∈ g.nonterminals ∧ ReflTransGen g.UnitStep a b := by
  constructor
  · intro pair
    exact ⟨source_of_mem_unitPairs coherent pair, chain_of_mem_unitPairs pair⟩
  · intro found
    obtain ⟨declared, chain⟩ := found
    induction chain with
    | refl => exact self_mem_unitPairs declared
    | tail _ step ih => exact UnitRelation.closure_trans ih (step_mem_unitPairs step)

/-- The productions are copies of those that are no unit productions, along unit pairs. -/
theorem mem_withoutUnits {p : Production} : p ∈ g.withoutUnits.productions ↔
    ∃ b, ⟨p.lhs, b⟩ ∈ g.unitPairs ∧ ⟨b, p.rhs⟩ ∈ g.productions ∧ (∀ c, p.rhs ≠ [.nonterminal c]) ∧
      (p.rhs = [] → p.lhs = g.start) := by
  simp only [withoutUnits, mem_withProductions, List.mem_flatMap, List.mem_map, List.mem_filter, mem_productionsOf,
    Std.ExtTreeSet.mem_toList, Bool.and_eq_true, Option.isNone_iff_eq_none, Production.unitTarget_eq_none]
  constructor
  · intro found
    obtain ⟨⟨a, b⟩, pair, q, ⟨⟨stored, rfl⟩, noUnit, allowed⟩, rfl⟩ := found
    refine ⟨q.lhs, pair, stored, noUnit, fun empty => ?_⟩
    simpa [Production.isEpsilon, show q.rhs = [] from empty] using allowed
  · intro found
    obtain ⟨b, pair, stored, noUnit, allowed⟩ := found
    refine ⟨⟨p.lhs, b⟩, pair, ⟨b, p.rhs⟩, ⟨⟨stored, rfl⟩, noUnit, ?_⟩, rfl⟩
    by_cases empty : p.rhs = []
    · simp [allowed empty]
    · simp [Production.isEpsilon, empty]

theorem derives_of_unitSteps {a b : Name} (chain : ReflTransGen g.UnitStep a b) :
    g.Derives [.nonterminal a] [.nonterminal b] := by
  induction chain with
  | refl => exact .refl _
  | tail _ step ih => exact ih.trans (derives_of_mem step)

/-- Copies derive nothing new, whatever the grammar. -/
theorem derives_of_withoutUnits {form last : List Symbol} (derivation : g.withoutUnits.Derives form last) :
    g.Derives form last := by
  refine derivation.replay fun p stored => ?_
  obtain ⟨b, pair, original, _⟩ := mem_withoutUnits.mp stored
  exact (derives_of_unitSteps (chain_of_mem_unitPairs pair)).trans (derives_of_mem original)

/-- Words that need no ε-production need no unit production either. -/
theorem withoutUnits_solid_yields (coherent : g.Coherent) {form : List Symbol} {word : List Name}
    (yields : g.solid.Yields form word) : g.withoutUnits.solid.Yields form word := by
  induction yields with
  | nil => exact .nil
  | terminal _ ih => exact .terminal ih
  | @nonterminal a rhs form inner word stored _ _ ihInner ihRest =>
    obtain ⟨inG, nonempty⟩ := mem_solid.mp stored
    refine Yields.append (x := [_]) ?_ ihRest
    by_cases unit : ∃ b, rhs = [.nonterminal b]
    · -- The target's own production is a copy already, and a copy of it reaches one step further back.
      obtain ⟨b, rfl⟩ := unit
      obtain ⟨copied, member, rest⟩ := yields_nonterminal_iff.mp ihInner
      obtain ⟨inOut, copiedNonempty⟩ := mem_solid.mp member
      obtain ⟨c, pair, original, noUnit, _⟩ := mem_withoutUnits.mp inOut
      have longer : ⟨a, c⟩ ∈ g.unitPairs := UnitRelation.closure_trans (step_mem_unitPairs inG) pair
      have kept : ⟨a, copied⟩ ∈ g.withoutUnits.productions :=
        mem_withoutUnits.mpr ⟨c, longer, original, noUnit, fun empty => absurd empty copiedNonempty⟩
      exact .of_mem (mem_solid.mpr ⟨kept, copiedNonempty⟩) rest
    · have kept : ⟨a, rhs⟩ ∈ g.withoutUnits.productions :=
        mem_withoutUnits.mpr ⟨a, self_mem_unitPairs (coherent.heads _ inG), inG, fun b same => unit ⟨b, same⟩,
          fun empty => absurd empty nonempty⟩
      exact .of_mem (mem_solid.mpr ⟨kept, nonempty⟩) ihInner

/-- Where only the start symbol has an ε-production, it keeps it and nothing else gets one. -/
theorem epsilon_mem_withoutUnits (coherent : g.Coherent)
    (atStart : ∀ p ∈ g.productions, p.rhs = [] → p.lhs = g.start) {a : Name} :
    ⟨a, []⟩ ∈ g.withoutUnits.productions ↔ ⟨a, []⟩ ∈ g.productions := by
  rw [mem_withoutUnits]
  constructor
  · intro found
    obtain ⟨b, _, original, _, allowed⟩ := found
    have same : b = g.start := atStart _ original rfl
    rwa [same, ← allowed rfl] at original
  · intro stored
    exact ⟨a, self_mem_unitPairs (coherent.heads _ stored), stored, by simp, fun _ => atStart _ stored rfl⟩

theorem Coherent.withoutUnits (coherent : g.Coherent) : g.withoutUnits.Coherent where
  start := coherent.start
  heads p stored := by
    obtain ⟨b, pair, _⟩ := mem_withoutUnits.mp stored
    exact source_of_mem_unitPairs coherent pair

theorem WellFormed.withoutUnits (formed : g.WellFormed) : g.withoutUnits.WellFormed where
  toCoherent := formed.toCoherent.withoutUnits
  mentioned p stored a member := by
    obtain ⟨b, _, original, _⟩ := mem_withoutUnits.mp stored
    exact formed.mentioned _ original a member
  letters p stored t member := by
    obtain ⟨b, _, original, _⟩ := mem_withoutUnits.mp stored
    exact formed.letters _ original t member
  disjoint := formed.disjoint
  terminal_ne := formed.terminal_ne
  nonterminal_ne := formed.nonterminal_ne

section

variable {out : Grammar} (ran : g.withoutEpsilon = .ok out)
include ran

theorem withoutUnits_start_eq : out.withoutUnits.start = g.start := by
  change out.start = g.start
  exact withoutEpsilon_start ran

theorem withoutUnits_shape {p : Production} (stored : p ∈ out.withoutUnits.productions) :
    (∀ a, p.rhs ≠ [.nonterminal a]) ∧ (p.rhs = [] → p.lhs = g.start) := by
  obtain ⟨_, _, _, noUnit, allowed⟩ := mem_withoutUnits.mp stored
  exact ⟨noUnit, fun empty => (allowed empty).trans (withoutEpsilon_start ran)⟩

theorem derives_of_withoutUnits_withoutEpsilon {form last : List Symbol}
    (derivation : out.withoutUnits.Derives form last) : g.Derives form last :=
  derives_of_withoutEpsilon ran (derives_of_withoutUnits derivation)

/-- Both passes keep the non-empty words. The first one leaves a derivation of each that uses no
ε-production, so that it does not matter where the second one drops ε-productions. -/
theorem withoutUnits_solid_generates (coherent : g.Coherent) {a : Name} {word : List Name} (nonempty : word ≠ [])
    (generates : g.Generates a word) : out.withoutUnits.solid.Generates a word := by
  have erased := withoutEpsilon_solid_generates ran nonempty generates
  have copied := withoutUnits_solid_yields (coherent.withoutEpsilon ran) (generates_iff_yields.mp erased)
  exact generates_iff_yields.mpr copied

/-- After both passes the start symbol has an ε-production exactly if it derives the empty word. -/
theorem withoutUnits_start_epsilon_iff (coherent : g.Coherent) :
    ⟨g.start, []⟩ ∈ out.withoutUnits.productions ↔ g.Accepts [] := by
  have atStart : ∀ p ∈ out.productions, p.rhs = [] → p.lhs = out.start :=
    fun p stored => rhs_eq_nil_of_mem_withoutEpsilon ran stored
  rw [epsilon_mem_withoutUnits (coherent.withoutEpsilon ran) atStart, ← withoutEpsilon_start ran]
  exact start_epsilon_iff ran

end

end Grammar

end ContextFree
