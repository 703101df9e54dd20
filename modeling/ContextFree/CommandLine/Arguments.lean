namespace ContextFree.CommandLine

/-- What the arguments of a run say. -/
structure Arguments where
  path : Option String := none
  verbosity : Nat := 0
  quiet : Bool := false
  dumpStages : Bool := false
  maxNullable : Option String := none
  freshPrefix : Option String := none
  terminalPrefix : Option String := none
  deriving DecidableEq, Repr

/-- What an argument parser makes of arguments. It ends a run by itself with an answer, such as a
help text, or with a refusal. -/
inductive Parsed where
  | answered (text : String)
  | refused (text : String)
  | found (arguments : Arguments)
  deriving DecidableEq, Repr

/-- The options that only say what is printed. -/
inductive Flag where
  | verbose
  | quiet
  | dumpStages
  deriving DecidableEq, Repr

/-- A part of the arguments: a letter behind a single dash, an argument as a whole, or one that
stands behind an argument of two dashes. -/
inductive Piece where
  | letter (letter : Char)
  | whole (text : String)
  | behind (text : String)
  deriving DecidableEq, Repr

/-- Letters behind one dash stand for themselves. A lone dash is an argument as a whole. -/
def pieces : List String → List Piece
  | [] => []
  | argument :: rest =>
    match argument.toList with
    | ['-', '-'] => .whole argument :: rest.map .behind
    | '-' :: '-' :: _ => .whole argument :: pieces rest
    | '-' :: letter :: letters => (letter :: letters).map .letter ++ pieces rest
    | _ => .whole argument :: pieces rest

namespace Flag

def spellings : Flag → List Piece
  | verbose => [.letter 'v']
  | quiet => [.letter 'q']
  | dumpStages => [.letter 'd', .whole "--dump-stages"]

/-- How often a flag is given. -/
def count (flag : Flag) (arguments : List String) : Nat :=
  (pieces arguments).countP (· ∈ flag.spellings)

end Flag

/-- What is left of the arguments without some flags. -/
def without (flags : List Flag) (arguments : List String) : List Piece :=
  (pieces arguments).filter fun piece => ∀ flag ∈ flags, piece ∉ flag.spellings

end ContextFree.CommandLine
