import ContextFree.Grammar
import ContextFree.Trail

namespace ContextFree

open Std

/-- A step from one nonterminal to another through unit productions. -/
structure UnitPair where
  source : Name
  target : Name
  deriving DecidableEq, Repr

namespace UnitPair

/-- Pairs are ordered by source, then by target. -/
instance : Ord UnitPair where
  compare := compareLex (compareOn source) (compareOn target)

instance : TransOrd UnitPair :=
  inferInstanceAs (TransCmp (compareLex (compareOn source) (compareOn target)))

instance : LawfulEqOrd UnitPair where
  eq_of_compare {x y} equal := by
    obtain ⟨sameSource, sameTarget⟩ := Ordering.then_eq_eq.mp equal
    obtain ⟨source, target⟩ := x
    obtain rfl : source = y.source := LawfulEqCmp.eq_of_compare sameSource
    obtain rfl : target = y.target := LawfulEqCmp.eq_of_compare sameTarget
    rfl

end UnitPair

abbrev UnitRelation := FiniteSet UnitPair

namespace UnitRelation

def sources (r : UnitRelation) : NameSet :=
  .ofList (r.toList.map UnitPair.source)

def targets (r : UnitRelation) : NameSet :=
  .ofList (r.toList.map UnitPair.target)

theorem mem_targets {r : UnitRelation} {d : Name} : d ∈ r.targets ↔ ∃ x ∈ r, x.target = d := by
  simp [targets]

/-- Adds `(a, d)` for all pairs `(a, b)` and `(b, d)`. -/
def extendRow (r : UnitRelation) (a : Name) : UnitRelation :=
  r.insertMany ((r.toList.filter fun x => r.contains ⟨a, x.source⟩).map fun x => ⟨a, x.target⟩)

theorem mem_extendRow {r : UnitRelation} {a : Name} {x : UnitPair} :
    x ∈ r.extendRow a ↔ x ∈ r ∨ x.source = a ∧ ∃ b, ⟨a, b⟩ ∈ r ∧ ⟨b, x.target⟩ ∈ r := by
  simp only [extendRow, FiniteSet.mem_insertMany_iff, List.mem_map, List.mem_filter, ExtTreeSet.mem_toList,
    ExtTreeSet.contains_iff_mem]
  constructor
  · rintro (old | ⟨⟨b, d⟩, ⟨inner, outer⟩, rfl⟩)
    · exact .inl old
    · exact .inr ⟨rfl, b, outer, inner⟩
  · rintro (old | ⟨rfl, b, outer, inner⟩)
    · exact .inl old
    · exact .inr ⟨⟨b, x.target⟩, ⟨inner, outer⟩, rfl⟩

/-- Extends the rows of the sources in order; a row extended earlier counts as extended. -/
def extend (r : UnitRelation) (sources : List Name) : UnitRelation :=
  sources.foldl extendRow r

theorem mem_extend_of_mem {r : UnitRelation} {sources : List Name} {x : UnitPair} (member : x ∈ r) :
    x ∈ r.extend sources := by
  induction sources generalizing r with
  | nil => exact member
  | cons a rest ih => exact ih (mem_extendRow.mpr (.inl member))

theorem mem_extend {r : UnitRelation} {sources : List Name} {x : UnitPair} (member : x ∈ r.extend sources) :
    x ∈ r ∨ x.source ∈ sources ∧ ∃ y ∈ r, y.target = x.target := by
  induction sources generalizing r with
  | nil => exact .inl member
  | cons a rest ih =>
    rcases ih member with early | ⟨inRest, ⟨b, _⟩, early, rfl⟩ <;>
      rcases mem_extendRow.mp early with old | ⟨rfl, c, _, inner⟩
    · exact .inl old
    · exact .inr ⟨.head _, _, inner, rfl⟩
    · exact .inr ⟨.tail _ inRest, _, old, rfl⟩
    · exact .inr ⟨.tail _ inRest, _, inner, rfl⟩

theorem targets_extend (r : UnitRelation) (sources : List Name) : (r.extend sources).targets = r.targets := by
  refine ExtTreeSet.ext_mem fun d => ?_
  simp only [mem_targets]
  constructor
  · rintro ⟨x, member, rfl⟩
    rcases mem_extend member with old | ⟨_, y, inR, same⟩
    · exact ⟨x, old, rfl⟩
    · exact ⟨y, inR, same⟩
  · rintro ⟨x, member, rfl⟩
    exact ⟨x, mem_extend_of_mem member, rfl⟩

/-- All pairs of one of the sources and a target of the relation. -/
def candidates (sources : List Name) (r : UnitRelation) : UnitRelation :=
  .ofList (sources.flatMap fun a => r.targets.toList.map (UnitPair.mk a))

theorem mem_candidates {sources : List Name} {r : UnitRelation} {x : UnitPair} :
    x ∈ candidates sources r ↔ x.source ∈ sources ∧ x.target ∈ r.targets := by
  simp only [candidates, FiniteSet.mem_ofList_iff, List.mem_flatMap, List.mem_map, ExtTreeSet.mem_toList]
  constructor
  · rintro ⟨a, isSource, d, isTarget, rfl⟩
    exact ⟨isSource, isTarget⟩
  · rintro ⟨isSource, isTarget⟩
    exact ⟨x.source, isSource, x.target, isTarget, rfl⟩

theorem extend_shrinks (sources : List Name) (r : UnitRelation) (changed : r.extend sources ≠ r) :
    (candidates sources (r.extend sources) \ r.extend sources).size < (candidates sources r \ r).size := by
  have same : candidates sources (r.extend sources) = candidates sources r := by
    simp only [candidates, targets_extend]
  obtain ⟨x, isNew, notOld⟩ := FiniteSet.exists_new_of_ne (fun _ => mem_extend_of_mem) changed
  rw [same]
  refine FiniteSet.size_diff_lt (fun _ => mem_extend_of_mem) ?_ notOld isNew
  rcases mem_extend isNew with old | ⟨isSource, y, inR, target⟩
  · exact absurd old notOld
  · exact mem_candidates.mpr ⟨isSource, mem_targets.mpr ⟨y, inR, target⟩⟩

/-- The relations that rounds over the sources go through until a round adds nothing. -/
def extensions (r : UnitRelation) : List UnitRelation :=
  trail (·.extend r.sources.toList) (fun s => (candidates r.sources.toList s \ s).size)
    (extend_shrinks r.sources.toList) r

/-- The relation to which a round over the sources adds nothing more. -/
def closure (r : UnitRelation) : UnitRelation :=
  settle (·.extend r.sources.toList) (fun s => (candidates r.sources.toList s \ s).size)
    (extend_shrinks r.sources.toList) r

end UnitRelation

namespace Grammar

/-- The pairs that need no search: a declared nonterminal to itself and each unit production. -/
def unitSteps (g : Grammar) : UnitRelation :=
  .ofList (g.nonterminals.toList.map (fun a => UnitPair.mk a a) ++
    g.productions.toList.filterMap fun p => p.unitTarget.map (UnitPair.mk p.lhs))

/-- The pairs `(A, B)` for which `A` derives `B` by unit productions alone. -/
def unitPairs (g : Grammar) : UnitRelation :=
  g.unitSteps.closure

/-- Gives the source of each unit pair the productions of the target, unit productions excepted.
Only the start symbol receives an ε-production. -/
def withoutUnits (g : Grammar) : Grammar :=
  g.withProductions <| g.unitPairs.toList.flatMap fun pair =>
    ((g.productionsOf pair.target).filter fun p =>
      p.unitTarget.isNone && (!p.isEpsilon || pair.source == g.start)).map fun p => ⟨pair.source, p.rhs⟩

end Grammar

end ContextFree
