import ContextFree.Text.Token

namespace ContextFree.Text

/-- What is wrong with a line. -/
inductive SyntaxFault where
  | unexpected (token : Token)
  | unexpectedEnd
  | invalidToken
  | epsilonNotAlone
  | duplicate (declaration : Declaration)
  | notOneStart
  | missingStart
  deriving DecidableEq, Repr

def SyntaxFault.message : SyntaxFault → String
  | unexpected token => s!"unexpected `{token.spelling}`"
  | unexpectedEnd => "unexpected end of line"
  | invalidToken => "invalid token"
  | epsilonNotAlone => "`ε` must stand alone"
  | duplicate declaration => s!"duplicate `{declaration.spelling}` declaration"
  | notOneStart => "expected exactly one start symbol"
  | missingStart => "missing `start` declaration"

/-- A fault and the number of the line, counted from one. -/
structure SyntaxError where
  line : Nat
  fault : SyntaxFault
  deriving DecidableEq, Repr

def SyntaxError.message (e : SyntaxError) : String :=
  s!"line {e.line}: {e.fault.message}"

end ContextFree.Text
