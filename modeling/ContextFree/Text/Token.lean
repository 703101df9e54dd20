import ContextFree.Symbol
import ContextFree.Text.Blank

namespace ContextFree.Text

/-- What a line that begins with a keyword declares. -/
inductive Declaration where
  | nonterminals
  | terminals
  | start
  deriving DecidableEq, Repr

def Declaration.spelling : Declaration → String
  | nonterminals => "nonterminals"
  | terminals => "terminals"
  | start => "start"

inductive Token where
  | arrow
  | epsilon
  | keyword (declaration : Declaration)
  | bar
  | colon
  | name (text : Name)
  deriving DecidableEq, Repr

namespace Token

def spelling : Token → String
  | arrow => "->"
  | epsilon => "ε"
  | keyword declaration => declaration.spelling
  | bar => "|"
  | colon => ":"
  | name text => text

/-- The tokens with a fixed spelling. -/
def literals : List Token :=
  [arrow, epsilon, keyword .nonterminals, keyword .terminals, keyword .start, bar, colon]

end Token

/-- A name runs up to white space, a bar, a colon or a number sign. -/
def isNameChar (c : Char) : Bool :=
  !isBlank c && c != '|' && c != ':' && c != '#'

/-- A token and the number of characters it takes. -/
structure Lexeme where
  token : Token
  length : Nat
  deriving DecidableEq, Repr

/-- The lexemes with which a text can begin: literals first, then the longest name. -/
def lexemes (text : List Char) : List Lexeme :=
  let spelled := Token.literals.filter fun t => t.spelling.toList.isPrefixOf text
  let name := text.takeWhile isNameChar
  spelled.map (fun t => ⟨t, t.spelling.length⟩) ++
    if name.isEmpty then [] else [⟨.name (String.ofList name), name.length⟩]

/-- The longest lexeme, and of those as long the first. -/
def longest : List Lexeme → Option Lexeme
  | [] => none
  | x :: rest =>
    match longest rest with
    | none => some x
    | some y => if x.length < y.length then some y else some x

/-- The tokens of a text of which the first `skip` characters have been read. White space
separates tokens; fails where no token can begin. -/
def scan : (skip : Nat) → List Char → Option (List Token)
  | _, [] => some []
  | skip + 1, _ :: rest => scan skip rest
  | 0, c :: rest =>
    if isBlank c then
      scan 0 rest
    else
      match longest (lexemes (c :: rest)) with
      | none => none
      | some lexeme => (lexeme.token :: ·) <$> scan (lexeme.length - 1) rest

def tokens? (text : List Char) : Option (List Token) :=
  scan 0 text

end ContextFree.Text
