namespace ContextFree.Log

/-- How important a record is, most important first. -/
inductive Level where
  | warn
  | info
  | debug
  | trace
  deriving DecidableEq, Repr

namespace Level

def label : Level → String
  | warn => "WARN"
  | info => "INFO"
  | debug => "DEBUG"
  | trace => "TRACE"

/-- The number of levels that are more important. -/
def rank : Level → Nat
  | warn => 0
  | info => 1
  | debug => 2
  | trace => 3

end Level

/-- The part of the program that a record comes from. -/
inductive Component where
  | program
  | building
  | epsilonFree
  | unitFree
  | useful
  | isolation
  | binarization
  | names
  | conversion
  deriving DecidableEq, Repr

def Component.path : Component → String
  | program => "chomsky"
  | building => "chomsky_grammar::populate"
  | epsilonFree => "chomsky_grammar::epsilon"
  | unitFree => "chomsky_grammar::unit"
  | useful => "chomsky_grammar::useful"
  | isolation => "chomsky_grammar::isolate"
  | binarization => "chomsky_grammar::binarize"
  | names => "chomsky_grammar::fresh"
  | conversion => "chomsky_grammar::pipeline"

structure Record where
  level : Level
  component : Component
  message : String
  deriving DecidableEq, Repr

/-- Whether a record is as important as `threshold` at least. None is without a threshold. -/
def passes (threshold : Option Level) (r : Record) : Bool :=
  threshold.any fun level => r.level.rank ≤ level.rank

def select (threshold : Option Level) (records : List Record) : List Record :=
  records.filter (passes threshold)

def pad (width : Nat) (text : String) : String :=
  text ++ String.ofList (List.replicate (width - text.length) ' ')

/-- The text of records. Paths are padded to `width` or the longest path so far. -/
def render (width : Nat) : List Record → String
  | [] => ""
  | r :: rest =>
    let width := max width r.component.path.length
    s!" {pad 5 r.level.label} {pad width r.component.path} > {r.message}\n" ++ render width rest

end ContextFree.Log
