import ContextFree.Binarization
import ContextFree.EpsilonFree
import ContextFree.Isolation
import ContextFree.UnitFree
import ContextFree.Useful

namespace ContextFree

/-- What a caller can choose about a conversion. -/
structure Options where
  /-- Productions with more nullable positions are refused. -/
  maxNullable : Nat := 16
  /-- Begins the names of the nonterminals that binarization adds. -/
  freshPrefix : String := "X"
  /-- Begins the names of the nonterminals that stand for terminals. -/
  terminalPrefix : String := "T_"
  /-- Whether the grammar after each pass is kept. -/
  keepStages : Bool := false
  deriving DecidableEq, Repr

/-- The passes of the conversion, in order. -/
inductive Stage where
  | epsilonFree
  | unitFree
  | useful
  | isolation
  | binarization
  deriving DecidableEq, Repr

def Stage.render : Stage → String
  | epsilonFree => "eliminating ε-productions"
  | unitFree => "eliminating unit productions"
  | useful => "eliminating useless symbols"
  | isolation => "isolating terminals"
  | binarization => "binarizing productions"

/-- What each pass makes of the grammar that the pass before it left. -/
structure Passes where
  epsilonFree : Grammar
  unitFree : Grammar
  useful : Grammar
  isolation : Isolation
  binarization : Binarization

def Passes.stages (passes : Passes) : List (Stage × Grammar) :=
  [(.epsilonFree, passes.epsilonFree),
    (.unitFree, passes.unitFree),
    (.useful, passes.useful),
    (.isolation, passes.isolation.grammar),
    (.binarization, passes.binarization.grammar)]

/-- A grammar in Chomsky normal form and, if they were asked for, the grammars before it. -/
structure Conversion where
  grammar : Grammar
  stages : List (Stage × Grammar)

namespace Grammar

/-- Runs the passes. Those for ε and for unit productions may strand symbols, so useless symbols
are dropped after them; terminals are isolated before pairs are formed. -/
def runPasses (g : Grammar) (options : Options) : Except GrammarError Passes := do
  let epsilonFree ← g.withoutEpsilon
  let unitFree := epsilonFree.withoutUnits
  let useful := unitFree.withoutUseless
  let isolation := useful.isolateTerminals (.ofStem options.freshPrefix) options.terminalPrefix
  let binarization := isolation.grammar.binarize isolation.supply
  return { epsilonFree, unitFree, useful, isolation, binarization }

/-- Converts a grammar to Chomsky normal form, once it is known to be well-formed and to have
few enough nullable positions. -/
def convert (g : Grammar) (options : Options) : Except GrammarError Conversion := do
  g.check
  g.checkExpansion options.maxNullable
  let passes ← g.runPasses options
  return {
    grammar := passes.binarization.grammar
    stages := if options.keepStages then passes.stages else [] }

/-- The normal form by the default options. -/
def toNormalForm (g : Grammar) : Except GrammarError Grammar :=
  (·.grammar) <$> g.convert {}

end Grammar

/-- Whether a right-hand side may stand in Chomsky normal form: one terminal or two nonterminals,
or none at all for the start symbol. -/
def Production.isNormal (start : Name) (p : Production) : Bool :=
  match p.rhs with
  | [] => p.lhs == start
  | [.terminal _] => true
  | [.nonterminal _, .nonterminal _] => true
  | _ => false

/-- The first production that is not in Chomsky normal form. -/
def Grammar.firstAbnormal? (g : Grammar) : Option Production :=
  g.productions.toList.find? fun p => !p.isNormal g.start

end ContextFree
