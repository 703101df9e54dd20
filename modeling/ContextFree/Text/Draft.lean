import ContextFree.Spec
import ContextFree.Text.Line

namespace ContextFree.Text

/-- What has been read of a grammar text. -/
structure Draft where
  nonterminals : Option (List Name)
  terminals : Option (List Name)
  start : Option Name
  rules : List Rule
  deriving DecidableEq, Repr

namespace Draft

def empty : Draft := ⟨none, none, none, []⟩

/-- Appends alternatives to the rule of that name, which is a new last one if there is none. -/
def addChoices (name : Name) (choices : List (List Name)) : List Rule → List Rule
  | [] => [⟨name, choices⟩]
  | rule :: rest =>
    if rule.name = name then ⟨name, rule.choices ++ choices⟩ :: rest
    else rule :: addChoices name choices rest

def enter (draft : Draft) : Line → Except SyntaxFault Draft
  | .rule lhs alternatives => do
    let choices ← alternatives.mapM choice
    return { draft with rules := addChoices lhs choices draft.rules }
  | .declare .nonterminals names =>
    if draft.nonterminals.isSome then .error (.duplicate .nonterminals)
    else .ok { draft with nonterminals := some names }
  | .declare .terminals names =>
    if draft.terminals.isSome then .error (.duplicate .terminals)
    else .ok { draft with terminals := some names }
  | .declare .start names =>
    if draft.start.isSome then .error (.duplicate .start)
    else match names with
      | [name] => .ok { draft with start := some name }
      | _ => .error .notOneStart

/-- Reads a line up to its first number sign; what is blank adds nothing. -/
def readLine (draft : Draft) (line : List Char) : Except SyntaxFault Draft :=
  match tokens? (line.takeWhile (· != '#')) with
  | none => .error .invalidToken
  | some [] => .ok draft
  | some tokens => Line.ofTokens tokens >>= draft.enter

/-- Reads lines, of which the first has the given number. -/
def readLines (draft : Draft) (number : Nat) : List (List Char) → Except SyntaxError Draft
  | [] => .ok draft
  | line :: rest =>
    match draft.readLine line with
    | .error fault => .error ⟨number, fault⟩
    | .ok next => next.readLines (number + 1) rest

end Draft

/-- The lines of a text. A line feed ends a line, so none follows the last line feed. -/
def lines : List Char → List (List Char)
  | [] => []
  | c :: rest =>
    if c = '\n' then
      [] :: lines rest
    else
      match lines rest with
      | [] => [[c]]
      | line :: others => (c :: line) :: others

end Text

/-- Reads the description of a grammar from its text. A missing start symbol is a fault of the
last line. -/
def Spec.ofText (text : String) : Except Text.SyntaxError Spec := do
  let lines := Text.lines text.toList
  let draft ← Text.Draft.empty.readLines 1 lines
  match draft.start with
  | none => .error ⟨lines.length, .missingStart⟩
  | some start =>
    return {
      nonterminals := draft.nonterminals.getD []
      terminals := draft.terminals.getD []
      start := start
      rules := draft.rules }

end ContextFree
