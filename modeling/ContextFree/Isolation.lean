import ContextFree.NameSupply

namespace ContextFree

/-- The result of giving terminals nonterminals of their own. -/
structure Isolation where
  grammar : Grammar
  supply : NameSupply
  /-- Each isolated terminal with its nonterminal, in the order in which they were met. -/
  assigned : List (Name × Name)

namespace Isolation

/-- Gives a terminal a nonterminal, named `stem` and the terminal if possible, unless it has one. -/
def assign (stem : String) (isolation : Isolation) (terminal : Name) : Isolation :=
  if (isolation.assigned.lookup terminal).isSome then
    isolation
  else
    let minted := isolation.supply.mintNamed isolation.grammar (stem ++ terminal)
    { grammar := minted.grammar
      supply := minted.supply
      assigned := isolation.assigned ++ [(terminal, minted.name)] }

/-- The nonterminal of an isolated terminal; every other symbol is kept. -/
def replace (assigned : List (Name × Name)) : Symbol → Symbol
  | .terminal t => ((assigned.lookup t).map .nonterminal).getD (.terminal t)
  | .nonterminal a => .nonterminal a

/-- Replaces terminals in right-hand sides of two or more symbols. -/
def substitute (assigned : List (Name × Name)) (p : Production) : Production :=
  if 2 ≤ p.rhs.length then ⟨p.lhs, p.rhs.map (replace assigned)⟩ else p

end Isolation

namespace Grammar

/-- The terminals inside right-hand sides of two or more symbols, as they are met. -/
def innerTerminals (g : Grammar) : List Name :=
  let long := g.productions.toList.filter fun p => 2 ≤ p.rhs.length
  (long.flatMap Production.rhs).filterMap Symbol.terminal?

/-- Replaces every inner terminal by a nonterminal with a single production, which derives just
that terminal. -/
def isolateTerminals (g : Grammar) (supply : NameSupply) (stem : String) : Isolation :=
  let named := g.innerTerminals.foldl (Isolation.assign stem) ⟨g.withoutProductions, supply, []⟩
  let substituted := g.productions.toList.map (Isolation.substitute named.assigned)
  let own := named.assigned.map fun (t, a) => ⟨a, [.terminal t]⟩
  { named with grammar := named.grammar.withProductions (substituted ++ own) }

end Grammar

end ContextFree
