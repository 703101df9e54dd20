import ContextFree.Symbol

namespace ContextFree

/-- The causes for which a grammar is refused. -/
inductive GrammarError where
  | undeclaredSymbol (lhs symbol : Name)
  | undeclaredNonterminal (name : Name)
  | undeclaredStart (name : Name)
  | ambiguousSymbol (name : Name)
  | emptyName
  | expansionLimit (lhs : Name) (positions limit : Nat)
  deriving DecidableEq, Repr

namespace GrammarError

def message : GrammarError → String
  | undeclaredSymbol lhs symbol => s!"production of `{lhs}` uses undeclared symbol `{symbol}`"
  | undeclaredNonterminal name => s!"productions given for undeclared nonterminal `{name}`"
  | undeclaredStart name => s!"start symbol `{name}` is not a nonterminal"
  | ambiguousSymbol name => s!"`{name}` is declared both as terminal and as nonterminal"
  | emptyName => "symbol names must not be empty"
  | expansionLimit lhs positions limit =>
    s!"production of `{lhs}` has {positions} nullable positions (limit is {limit})"

/-- Succeeds if there is no fault and fails with the first one otherwise. -/
def raise (faults : List GrammarError) : Except GrammarError Unit :=
  match faults with
  | [] => .ok ()
  | first :: _ => .error first

end GrammarError

end ContextFree
