import ContextFree.Nullable

namespace ContextFree

/-- A production with `n` nullable positions has up to `2 ^ n` variants. No caller can allow more
positions than this. -/
def expansionCap : Nat := 20

/-- How many symbols of a right-hand side belong to `nullable`. -/
def nullablePositions (nullable : NameSet) (rhs : List Symbol) : Nat :=
  rhs.countP (·.within false nullable)

/-- What a right-hand side becomes when some, all or none of its symbols that belong to
`nullable` are left out. -/
def variants (nullable : NameSet) : List Symbol → FiniteSet (List Symbol)
  | [] => {[]}
  | s :: rest =>
    let shorter := variants nullable rest
    let kept := .ofList (shorter.toList.map (s :: ·))
    if s.within false nullable then kept ∪ shorter else kept

namespace Grammar

/-- A fault for each production with more nullable positions than `limit` or `expansionCap`. -/
def expansionFaults (nullable : NameSet) (limit : Nat) (productions : List Production) :
    List GrammarError :=
  let limit := min limit expansionCap
  productions.filterMap fun p =>
    let positions := nullablePositions nullable p.rhs
    if limit < positions then some (.expansionLimit p.lhs positions limit) else none

/-- Fails with the first production that has too many variants. -/
def checkExpansion (g : Grammar) (limit : Nat) : Except GrammarError Unit :=
  GrammarError.raise (expansionFaults g.nullable limit g.productions.toList)

/-- The non-empty variants of a production. -/
def nonemptyVariants (nullable : NameSet) (p : Production) : List Production :=
  ((variants nullable p.rhs).toList.filter (!·.isEmpty)).map (⟨p.lhs, ·⟩)

/-- Replaces each production by its non-empty variants. If the start symbol derives the empty
word it gets the only ε-production. -/
def withoutEpsilon (g : Grammar) : Except GrammarError Grammar := do
  let nullable := g.nullable
  let expandable := g.productions.toList.filter (!·.isEpsilon)
  GrammarError.raise (expansionFaults nullable expansionCap expandable)
  let startEpsilon := if nullable.contains g.start then [⟨g.start, []⟩] else []
  return g.withProductions (expandable.flatMap (nonemptyVariants nullable) ++ startEpsilon)

end Grammar

end ContextFree
