import ContextFree.Text.SyntaxError

namespace ContextFree.Text

inductive Item where
  | epsilon
  | name (text : Name)
  deriving DecidableEq, Repr

/-- A line of a grammar text that is not blank. -/
inductive Line where
  | declare (declaration : Declaration) (names : List Name)
  | rule (lhs : Name) (alternatives : List (List Item))
  deriving DecidableEq, Repr

namespace Line

def names : List Token → Except SyntaxFault (List Name)
  | [] => .ok []
  | .name text :: rest => (text :: ·) <$> names rest
  | token :: _ => .error (.unexpected token)

/-- Puts an item in front of the first alternative. -/
def extend (item : Item) : List (List Item) → List (List Item)
  | [] => [[item]]
  | first :: others => (item :: first) :: others

/-- The items between bars; `n` bars make `n + 1` alternatives. -/
def alternatives : List Token → Except SyntaxFault (List (List Item))
  | [] => .ok [[]]
  | .bar :: rest => ([] :: ·) <$> alternatives rest
  | .epsilon :: rest => extend .epsilon <$> alternatives rest
  | .name text :: rest => extend (.name text) <$> alternatives rest
  | token :: _ => .error (.unexpected token)

/-- Reads `keyword : names` or `name -> alternatives`. A fault names the first token with which
no line goes on. -/
def ofTokens : List Token → Except SyntaxFault Line
  | .keyword declaration :: .colon :: rest => declare declaration <$> names rest
  | .name lhs :: .arrow :: rest => rule lhs <$> alternatives rest
  | .keyword _ :: token :: _ => .error (.unexpected token)
  | .name _ :: token :: _ => .error (.unexpected token)
  | [.keyword _] => .error .unexpectedEnd
  | [.name _] => .error .unexpectedEnd
  | token :: _ => .error (.unexpected token)
  | [] => .error .unexpectedEnd

end Line

/-- The names of an alternative. ε stands alone and for no names. -/
def choice (items : List Item) : Except SyntaxFault (List Name) :=
  if 1 < items.length ∧ .epsilon ∈ items then
    .error .epsilonNotAlone
  else
    .ok (items.filterMap fun
      | .epsilon => none
      | .name text => some text)

end ContextFree.Text
