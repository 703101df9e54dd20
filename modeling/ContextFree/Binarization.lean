import ContextFree.NameSupply

namespace ContextFree

/-- The result of splitting right-hand sides into pairs. -/
structure Binarization where
  grammar : Grammar
  supply : NameSupply
  /-- The new nonterminals, oldest first. -/
  minted : List Name

namespace Binarization

/-- Shortens a right-hand side to two symbols at most: all symbols but the first, once they are
a pair, become the only production of a new nonterminal. -/
def shorten (split : Binarization) : List Symbol → Binarization × List Symbol
  | s :: t :: u :: rest =>
    let (split, pair) := split.shorten (t :: u :: rest)
    let fresh := split.supply.mint split.grammar
    ({ grammar := fresh.grammar.insert ⟨fresh.name, pair⟩
       supply := fresh.supply
       minted := split.minted ++ [fresh.name] },
      [s, .nonterminal fresh.name])
  | short => (split, short)

def add (split : Binarization) (p : Production) : Binarization :=
  let (split, rhs) := split.shorten p.rhs
  { split with grammar := split.grammar.insert ⟨p.lhs, rhs⟩ }

end Binarization

/-- Replaces every production with more than two symbols by a chain of productions with two. -/
def Grammar.binarize (g : Grammar) (supply : NameSupply) : Binarization :=
  g.productions.toList.foldl Binarization.add ⟨g.withoutProductions, supply, []⟩

end ContextFree
