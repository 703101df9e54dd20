import ContextFree.CommandLine.Reader
import ContextFree.Log.Narration
import ContextFree.Text.Draft

namespace ContextFree.CommandLine

/-- Why a file cannot be read, in the words of the system. -/
structure FileError where
  description : String
  deriving DecidableEq, Repr

def FileError.notFound : FileError := ⟨"No such file or directory (os error 2)"⟩

/-- Why a run fails, with the cause behind it if there is one. -/
structure Failure where
  message : String
  cause : Option String := none
  deriving DecidableEq, Repr

def Failure.render (f : Failure) : String :=
  match f.cause with
  | none => s!"Error: {f.message}\n"
  | some cause => s!"Error: {f.message}\n\nCaused by:\n    {cause}\n"

/-- What a run leaves behind. -/
structure Outcome where
  code : Nat
  stdout : String
  stderr : String
  deriving DecidableEq, Repr

/-- Reads ASCII digits after at most one plus sign; the number must be below 2 ^ 64. -/
def natural? (text : String) : Option Nat :=
  let digits := match text.toList with
    | '+' :: digits => digits
    | digits => digits
  if digits.isEmpty || !digits.all Char.isDigit then
    none
  else
    let n := digits.foldl (fun n c => 10 * n + (c.toNat - '0'.toNat)) 0
    if n < UInt64.size then some n else none

namespace Arguments

/-- The importance that a record needs in order to be printed. -/
def threshold (a : Arguments) : Option Log.Level :=
  if a.quiet then none
  else match a.verbosity with
    | 0 => some .warn
    | 1 => some .info
    | 2 => some .debug
    | _ => some .trace

def options (a : Arguments) : Except Failure Options := do
  let default : Options := {}
  let maxNullable ← match a.maxNullable with
    | none => .ok default.maxNullable
    | some text =>
      match natural? text with
      | some n => .ok n
      | none => .error { message := s!"invalid value `{text}` for --max-nullable" }
  return {
    maxNullable := maxNullable
    freshPrefix := a.freshPrefix.getD default.freshPrefix
    terminalPrefix := a.terminalPrefix.getD default.terminalPrefix
    keepStages := a.dumpStages }

end Arguments

/-- The log of a run and the text that it prints, or why it fails. -/
structure Report where
  records : List Log.Record
  result : Except Failure String

def renderStage (stage : Stage) (g : Grammar) : String :=
  s!"After {stage.render}:\n{g.render}\n"

def renderConversion (g : Grammar) (c : Conversion) (dumpStages : Bool) : String :=
  let stages := c.stages.map fun (stage, h) => renderStage stage h
  let dump := if dumpStages then s!"Original grammar:\n{g.render}\n" ++ String.join stages else ""
  dump ++ s!"Grammar in Chomsky Normal Form:\n{c.grammar.render}\n"

def reportConversion (g : Grammar) (options : Options) : Report :=
  let records := Log.ofConversion g options
  match g.convert options with
  | .error e => ⟨records, .error { message := e.message }⟩
  | .ok c =>
    let warning :=
      if c.grammar.isEmptyLanguage then [⟨.warn, .program, "The grammar generates the empty language"⟩] else []
    ⟨records ++ warning, .ok (renderConversion g c options.keepStages)⟩

/-- Builds and converts the grammar of a text that was found at `path`. -/
def reportText (path : String) (text : String) (options : Options) : Report :=
  let inFile (cause : String) : Failure := ⟨s!"in `{path}`", some cause⟩
  match Spec.ofText text with
  | .error e => ⟨[], .error (inFile e.message)⟩
  | .ok spec =>
    let records := Log.ofBuild spec
    match spec.build with
    | .error e => ⟨records, .error (inFile e.message)⟩
    | .ok g =>
      let conversion := reportConversion g options
      ⟨records ++ ⟨.info, .program, s!"Read grammar from `{path}`"⟩ :: conversion.records, conversion.result⟩

def report (a : Arguments) (read : String → Except FileError String) : Report :=
  match a.options with
  | .error failure => ⟨[], .error failure⟩
  | .ok options =>
    match a.path with
    | none => ⟨[], .error { message := "no grammar given" }⟩
    | some path =>
      match read path with
      | .error e => ⟨[], .error ⟨s!"cannot read `{path}`", some e.description⟩⟩
      | .ok text => reportText path text options

/-- Which records are printed, by the importance that was asked for, and what is printed before them. -/
structure Filter where
  notice : String
  prints : Option Log.Level → Log.Record → Bool

/-- The log comes before the failure; what is printed depends on success alone. -/
def Report.outcome (r : Report) (filter : Filter) (threshold : Option Log.Level) : Outcome :=
  let log := filter.notice ++ Log.render 0 (r.records.filter (filter.prints threshold))
  match r.result with
  | .ok stdout => ⟨0, stdout, log⟩
  | .error failure => ⟨1, "", log ++ failure.render⟩

/-- What a run leaves to others: it has its arguments parsed, and where its environment names
filters for the log, these are read for it. -/
structure Libraries where
  parse : List String → Parsed
  readFilters : String → Filter

/-- What a run finds. -/
structure Environment where
  read : String → Except FileError String
  filters : Option String

namespace Libraries

/-- Without filters importance decides. -/
def filter (libraries : Libraries) (environment : Environment) : Filter :=
  match environment.filters with
  | none => ⟨"", Log.passes⟩
  | some filters => libraries.readFilters filters

/-- A run of the program. Answers of the parser are printed, and refusals reported, before there is a log. -/
def run (libraries : Libraries) (environment : Environment) (arguments : List String) : Outcome :=
  match libraries.parse arguments with
  | .answered text => ⟨0, text, ""⟩
  | .refused text => ⟨1, "", text⟩
  | .found a => (report a environment.read).outcome (libraries.filter environment) a.threshold

/-- Arguments are read word by word, and filters are passed over. -/
def standard : Libraries where
  parse := Texts.parse {}
  readFilters _ := ⟨"", Log.passes⟩

end Libraries

/-- Runs the program on its arguments, with `read` for the files and without filters. -/
def run (arguments : List String) (read : String → Except FileError String) : Outcome :=
  Libraries.standard.run ⟨read, none⟩ arguments

end ContextFree.CommandLine
