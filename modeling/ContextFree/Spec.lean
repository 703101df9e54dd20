import ContextFree.Grammar

namespace ContextFree

/-- The alternatives of a nonterminal. -/
structure Rule where
  name : Name
  choices : List (List Name)
  deriving DecidableEq, Repr

/-- A description of a grammar, not validated: what is declared, in order, repetitions included. -/
structure Spec where
  nonterminals : List Name
  terminals : List Name
  start : Name
  rules : List Rule
  deriving DecidableEq, Repr

namespace Spec

/-- The declared symbol of a name. -/
def symbol? (spec : Spec) (name : Name) : Option Symbol :=
  if spec.nonterminals.contains name then some (.nonterminal name)
  else if spec.terminals.contains name then some (.terminal name)
  else none

def ruleFaults (spec : Spec) (rule : Rule) : List GrammarError :=
  (if spec.nonterminals.contains rule.name then [] else [.undeclaredNonterminal rule.name]) ++
    (rule.choices.flatten.filter fun name => (spec.symbol? name).isNone).map
      fun name => .undeclaredSymbol rule.name name

/-- The violations of what is declared: by terminals, nonterminals and the start symbol. -/
def declarationFaults (spec : Spec) : List GrammarError :=
  let terminals := spec.terminals.filterMap fun name => if name = "" then some .emptyName else none
  let nonterminals := spec.nonterminals.filterMap fun name =>
    if name = "" then some .emptyName
    else if spec.terminals.contains name then some (.ambiguousSymbol name)
    else none
  let start := if spec.nonterminals.contains spec.start then [] else [.undeclaredStart spec.start]
  terminals ++ nonterminals ++ start

/-- All violations, those of declarations before those of rules. -/
def faults (spec : Spec) : List GrammarError :=
  spec.declarationFaults ++ spec.rules.flatMap spec.ruleFaults

/-- The production of an alternative. -/
def production (spec : Spec) (lhs : Name) (choice : List Name) : Production :=
  ⟨lhs, choice.filterMap spec.symbol?⟩

/-- The productions in the order of the rules, repetitions included. -/
def productions (spec : Spec) : List Production :=
  spec.rules.flatMap fun rule => rule.choices.map (spec.production rule.name)

/-- The grammar of a description without faults. -/
def build (spec : Spec) : Except GrammarError Grammar := do
  GrammarError.raise spec.faults
  let g : Grammar := {
    nonterminals := .ofList spec.nonterminals
    terminals := .ofList spec.terminals
    productions := .ofList spec.productions
    start := spec.start }
  g.check
  return g

end Spec

end ContextFree
