import ContextFree.CommandLine.Arguments

namespace ContextFree.CommandLine

/-- The options that take a value. -/
inductive Setting where
  | maxNullable
  | freshPrefix
  | terminalPrefix
  deriving DecidableEq, Repr

/-- What can be asked for in place of a conversion. -/
inductive Query where
  | help
  | version
  deriving DecidableEq, Repr

/-- What one argument says, or one letter of it. -/
inductive Word where
  | plain (text : String)
  | path (text : String)
  | flag (flag : Flag)
  | query (query : Query)
  | setting (setting : Setting) (value : Option String)
  deriving DecidableEq, Repr

def letter? : Char → Option Word
  | 'v' => some (.flag .verbose)
  | 'q' => some (.flag .quiet)
  | 'd' => some (.flag .dumpStages)
  | 'h' => some (.query .help)
  | 'V' => some (.query .version)
  | _ => none

/-- The option of a long name. A value is dropped if the option takes none. -/
def option? (name : String) (value : Option String) : Option Word :=
  match name with
  | "dump-stages" => some (.flag .dumpStages)
  | "help" => some (.query .help)
  | "version" => some (.query .version)
  | "max-nullable" => some (.setting .maxNullable value)
  | "fresh-prefix" => some (.setting .freshPrefix value)
  | "terminal-prefix" => some (.setting .terminalPrefix value)
  | _ => none

/-- Splits a long option at its first equals sign. The value begins behind all equals signs that
stand together there. -/
def long? (text : List Char) : Option Word :=
  let name := String.ofList (text.takeWhile (· != '='))
  match text.dropWhile (· != '=') with
  | [] => option? name none
  | value => option? name (some (String.ofList (value.dropWhile (· == '='))))

/-- The words of a piece, with `none` where it cannot be read. A long option has two or more dashes,
and two dashes alone say nothing but that only paths follow. -/
def Piece.words : Piece → List (Option Word)
  | letter c => [letter? c]
  | behind text => [some (.path text)]
  | whole text =>
    match text.toList with
    | ['-', '-'] => []
    | '-' :: '-' :: name => [long? (name.dropWhile (· == '-'))]
    | _ => [some (.plain text)]

def words (arguments : List String) : List (Option Word) :=
  (pieces arguments).flatMap Piece.words

/-- What has been read of the words. Nothing is refused yet for being given too often or not at
all. -/
structure Draft where
  path : Option String := none
  flags : List Flag := []
  /-- The settings as they were named. -/
  named : List Setting := []
  /-- The values as they were given. -/
  values : List (Setting × String) := []
  /-- The setting of which the next plain word is a value. -/
  awaiting : Option Setting := none
  deriving DecidableEq, Repr

namespace Draft

def valuesOf (d : Draft) (setting : Setting) : List String :=
  (d.values.filter fun x => x.1 = setting).map Prod.snd

def addValue (d : Draft) (setting : Setting) (value : String) : Draft :=
  { d with values := d.values ++ [(setting, value)] }

/-- Takes a value that is a word of its own. Only a first value ends the wait for values. -/
def supply (d : Draft) (setting : Setting) (value : String) : Draft :=
  let d := d.addValue setting value
  { d with awaiting := if (d.valuesOf setting).length = 1 then none else some setting }

def setPath (d : Draft) (path : String) : Option Draft :=
  if d.path.isSome then none else some { d with path := some path }

/-- Enters a word. Only a second path is refused at once. -/
def enter (d : Draft) : Word → Option Draft
  | .plain text =>
    match d.awaiting with
    | some setting => some (d.supply setting text)
    | none => d.setPath text
  | .path text => d.setPath text
  | .flag flag => some { d with flags := d.flags ++ [flag], awaiting := none }
  | .query _ => some { d with awaiting := none }
  | .setting setting none => some { d with named := d.named ++ [setting], awaiting := some setting }
  | .setting setting (some value) =>
    some ({ d with named := d.named ++ [setting], awaiting := none }.addValue setting value)

/-- The value of a setting, if it was named. It must then have been named once, with one value. -/
def value? (d : Draft) (setting : Setting) : Option (Option String) :=
  match d.named.count setting, d.valuesOf setting with
  | 0, _ => some none
  | 1, [value] => some (some value)
  | _, _ => none

/-- There must be a path, and only verbosity may be asked for more than once. -/
def finish (d : Draft) : Option Arguments := do
  let path ← d.path
  guard (d.flags.count .quiet ≤ 1 ∧ d.flags.count .dumpStages ≤ 1)
  return {
    path := some path
    verbosity := d.flags.count .verbose
    quiet := d.flags.contains .quiet
    dumpStages := d.flags.contains .dumpStages
    maxNullable := ← d.value? .maxNullable
    freshPrefix := ← d.value? .freshPrefix
    terminalPrefix := ← d.value? .terminalPrefix }

end Draft

/-- What the arguments ask for. -/
inductive Request where
  | answer (query : Query)
  | convert (arguments : Arguments)
  deriving DecidableEq, Repr

namespace Request

/-- Reads words in order. A query is answered as soon as it is met, whatever follows and whatever
was given too often before. -/
def ofWords (d : Draft) : List (Option Word) → Option Request
  | [] => .convert <$> d.finish
  | none :: _ => none
  | some (.query query) :: _ => some (.answer query)
  | some word :: rest => (d.enter word).bind (ofWords · rest)

end Request

/-- The texts with which a reader ends a run. -/
structure Texts where
  help : String := ""
  version : String := "chomsky 0.1.0\n"
  refusal : String := ""
  deriving DecidableEq, Repr

namespace Texts

def answer (texts : Texts) : Query → String
  | .help => texts.help
  | .version => texts.version

def respond (texts : Texts) : Request → Parsed
  | .answer query => .answered (texts.answer query)
  | .convert arguments => .found arguments

/-- One parser of arguments, which reads them word by word. A run can be given any other. -/
def parse (texts : Texts) (arguments : List String) : Parsed :=
  match Request.ofWords {} (words arguments) with
  | none => .refused texts.refusal
  | some request => texts.respond request

end Texts

end ContextFree.CommandLine
