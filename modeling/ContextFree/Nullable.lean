import ContextFree.Absorption

namespace ContextFree.Grammar

/-- The nonterminals that have an ε-production. -/
def epsilonHeads (g : Grammar) : NameSet :=
  .ofList ((g.productions.toList.filter Production.isEpsilon).map Production.lhs)

/-- The nonterminals with an ε-production, then what they grow to with each pass that finds more
nonterminals deriving the empty word. -/
def nullablePasses (g : Grammar) : List NameSet :=
  g.absorptions false g.epsilonHeads

/-- The nonterminals that derive the empty word. -/
def nullable (g : Grammar) : NameSet :=
  g.absorbed false g.epsilonHeads

end ContextFree.Grammar
