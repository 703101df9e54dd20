import ContextFree.Absorption

namespace ContextFree.Grammar

/-- The nonterminals that passes over the productions find to derive some word, pass by pass. -/
def generatingPasses (g : Grammar) : List NameSet :=
  g.absorptions true ∅

/-- The nonterminals that derive some word of terminals. -/
def generating (g : Grammar) : NameSet :=
  g.absorbed true ∅

/-- Drops the nonterminals that derive no word, the start symbol excepted, and the productions
that mention one. -/
def withoutNonGenerating (g : Grammar) : Grammar :=
  let generating := g.generating
  { g with
    nonterminals := generating.insert g.start
    productions := g.productions.filter fun p =>
      generating.contains p.lhs && p.rhs.all (·.within true generating) }

/-- The symbols on the right-hand sides of the productions of some nonterminals. -/
def successors (g : Grammar) (known : NameSet) : List Symbol :=
  (g.productions.toList.filter fun p => known.contains p.lhs).flatMap Production.rhs

/-- Adds the nonterminals that occur in productions of those already known. -/
def reach (g : Grammar) (known : NameSet) : NameSet :=
  known.insertMany ((g.successors known).filterMap Symbol.nonterminal?)

/-- The nonterminals that occur on right-hand sides. -/
def mentioned (g : Grammar) : NameSet :=
  .ofList ((g.productions.toList.flatMap Production.rhs).filterMap Symbol.nonterminal?)

theorem reach_shrinks (g : Grammar) (known : NameSet) (changed : g.reach known ≠ known) :
    (g.mentioned \ g.reach known).size < (g.mentioned \ known).size := by
  have grows : ∀ a ∈ known, a ∈ g.reach known := fun a old => by simp [reach, old]
  obtain ⟨a, isNew, notOld⟩ := FiniteSet.exists_new_of_ne grows changed
  refine FiniteSet.size_diff_lt grows ?_ notOld isNew
  simp only [reach, successors, FiniteSet.mem_insertMany_iff, notOld, false_or, List.mem_filterMap, List.mem_flatMap,
    List.mem_filter] at isNew
  obtain ⟨s, ⟨p, ⟨isProduction, _⟩, inRhs⟩, name⟩ := isNew
  exact FiniteSet.mem_ofList_iff.mpr
    (List.mem_filterMap.mpr ⟨s, List.mem_flatMap.mpr ⟨p, isProduction, inRhs⟩, name⟩)

/-- The nonterminals found from the start symbol on, round by round. -/
def reachableRounds (g : Grammar) : List NameSet :=
  trail g.reach (fun known => (g.mentioned \ known).size) g.reach_shrinks {g.start}

/-- The nonterminals that occur in sentential forms of the start symbol. -/
def reachable (g : Grammar) : NameSet :=
  settle g.reach (fun known => (g.mentioned \ known).size) g.reach_shrinks {g.start}

/-- The terminals that occur in sentential forms of the start symbol. -/
def reachableTerminals (g : Grammar) : NameSet :=
  .ofList ((g.successors g.reachable).filterMap Symbol.terminal?)

/-- Declares exactly what can be reached and keeps the productions of reachable nonterminals. -/
def withoutUnreachable (g : Grammar) : Grammar :=
  let reachable := g.reachable
  { nonterminals := reachable
    terminals := g.reachableTerminals
    productions := g.productions.filter fun p => reachable.contains p.lhs
    start := g.start }

/-- Keeps what occurs in complete derivations from the start symbol. Nonterminals that derive
nothing go first, since without them others may no longer be reachable. -/
def withoutUseless (g : Grammar) : Grammar :=
  g.withoutNonGenerating.withoutUnreachable

end ContextFree.Grammar
