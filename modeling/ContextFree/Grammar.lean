import ContextFree.GrammarError
import ContextFree.Production

namespace ContextFree

/-- A context-free grammar: declared symbols, productions and a start symbol. The symbols of
productions need not be declared; `Grammar.check` tells. -/
structure Grammar where
  nonterminals : NameSet
  terminals : NameSet
  productions : FiniteSet Production
  start : Name
  deriving DecidableEq

namespace Grammar

/-- The grammar that declares its start symbol and nothing else. -/
def ofStart (start : Name) : Grammar where
  nonterminals := {start}
  terminals := ∅
  productions := ∅
  start := start

def declareTerminal (g : Grammar) (name : Name) : Grammar :=
  { g with terminals := g.terminals.insert name }

def declareNonterminal (g : Grammar) (name : Name) : Grammar :=
  { g with nonterminals := g.nonterminals.insert name }

/-- The same symbols with other productions. -/
def withProductions (g : Grammar) (productions : List Production) : Grammar :=
  { g with productions := .ofList productions }

def withoutProductions (g : Grammar) : Grammar :=
  { g with productions := ∅ }

/-- Adds a production without asking whether its left-hand side is declared. -/
def insert (g : Grammar) (p : Production) : Grammar :=
  { g with productions := g.productions.insert p }

/-- A production was offered for a name that is no declared nonterminal. -/
structure UndeclaredLhs where
  name : Name
  deriving DecidableEq, Repr

def UndeclaredLhs.message (e : UndeclaredLhs) : String :=
  s!"{e.name} is not a nonterminal"

/-- Adds a production for a declared nonterminal and tells whether it is a new one. -/
def addProduction (g : Grammar) (p : Production) : Except UndeclaredLhs (Grammar × Bool) :=
  if p.lhs ∈ g.nonterminals then
    .ok (g.insert p, !g.productions.contains p)
  else
    .error ⟨p.lhs⟩

/-- The productions of one nonterminal, in order. -/
def productionsOf (g : Grammar) (lhs : Name) : List Production :=
  g.productions.toList.filter (·.lhs == lhs)

/-- The nonterminals that have productions. -/
def heads (g : Grammar) : NameSet :=
  .ofList (g.productions.toList.map Production.lhs)

@[simp] theorem mem_heads {g : Grammar} {a : Name} : a ∈ g.heads ↔ ∃ p ∈ g.productions, p.lhs = a := by
  simp [heads]

/-- Whether a terminal or a nonterminal of this name is declared. -/
def usesName (g : Grammar) (name : Name) : Bool :=
  g.terminals.contains name || g.nonterminals.contains name

def declares (g : Grammar) : Symbol → Bool
  | .terminal a => g.terminals.contains a
  | .nonterminal a => g.nonterminals.contains a

/-- Whether the start symbol has no production. In a grammar without useless symbols this says
that no word is derived. -/
def isEmptyLanguage (g : Grammar) : Bool :=
  (g.productionsOf g.start).isEmpty

/-- The violations of well-formedness: those of the start symbol, of the terminals, of the
nonterminals and of the productions. -/
def faults (g : Grammar) : List GrammarError :=
  let start := if g.nonterminals.contains g.start then [] else [.undeclaredStart g.start]
  let terminals := g.terminals.toList.filterMap fun a =>
    if a = "" then some .emptyName
    else if g.nonterminals.contains a then some (.ambiguousSymbol a)
    else none
  let nonterminals := if g.nonterminals.contains "" then [.emptyName] else []
  let productions := g.productions.toList.flatMap fun p =>
    (if g.nonterminals.contains p.lhs then [] else [.undeclaredNonterminal p.lhs]) ++
      (p.rhs.filter (!g.declares ·)).map fun s => .undeclaredSymbol p.lhs s.name
  start ++ terminals ++ nonterminals ++ productions

/-- Fails with the first fault. -/
def check (g : Grammar) : Except GrammarError Unit :=
  GrammarError.raise g.faults

/-- A line for each nonterminal that has productions, its right-hand sides between bars. -/
def productionLines (g : Grammar) : List String :=
  g.heads.toList.map fun lhs =>
    s!"  {lhs} -> " ++ " | ".intercalate ((g.productionsOf lhs).map fun p => renderForm p.rhs)

/-- The text of a grammar, each line of it ended. -/
def render (g : Grammar) : String :=
  let symbols := [
    "Non-terminals: " ++ ", ".intercalate g.nonterminals.toList,
    "Terminals: " ++ ", ".intercalate g.terminals.toList,
    "Start symbol: " ++ g.start]
  String.join ((symbols ++ "Productions:" :: g.productionLines).map (· ++ "\n"))

end Grammar

end ContextFree
