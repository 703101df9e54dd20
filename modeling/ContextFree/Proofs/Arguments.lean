import ContextFree.CommandLine.Run

namespace ContextFree.CommandLine

def Parsed.accepted : Parsed → Bool
  | refused _ => false
  | _ => true

/-- What arguments say but for some flags. -/
def Arguments.but (a : Arguments) (flags : List Flag) : Arguments :=
  { a with
    verbosity := if .verbose ∈ flags then 0 else a.verbosity
    quiet := if .quiet ∈ flags then false else a.quiet
    dumpStages := if .dumpStages ∈ flags then false else a.dumpStages }

/-- Two lists of arguments get the same answer, or are found to say the same but for some flags. -/
inductive Alike (flags : List Flag) : Parsed → Parsed → Prop
  | answered (text : String) : Alike flags (.answered text) (.answered text)
  | found {a b : Arguments} (same : a.but flags = b.but flags) : Alike flags (.found a) (.found b)

/-- What a run relies on in the parser of its arguments: flags are counted, and everything else is read as if
they were not there. -/
structure Libraries.Lawful (libraries : Libraries) : Prop where
  verbosity : ∀ arguments a, libraries.parse arguments = .found a → a.verbosity = Flag.verbose.count arguments
  quiet : ∀ arguments a, libraries.parse arguments = .found a → a.quiet = decide (0 < Flag.quiet.count arguments)
  dumpStages : ∀ arguments a, libraries.parse arguments = .found a → 0 < Flag.dumpStages.count arguments →
    a.dumpStages = true
  alike : ∀ flags first second, (libraries.parse first).accepted → (libraries.parse second).accepted →
    without flags first = without flags second → Alike flags (libraries.parse first) (libraries.parse second)

/-- The importance that a record needs in order to be printed, by the flags for it. -/
def threshold (arguments : List String) : Option Log.Level :=
  Arguments.threshold {
    verbosity := Flag.verbose.count arguments
    quiet := 0 < Flag.quiet.count arguments }

namespace Libraries.Lawful

variable {libraries : Libraries} {arguments : List String} {a : Arguments} (lawful : libraries.Lawful)
  (asked : libraries.parse arguments = .found a)
include lawful asked

theorem threshold_eq : a.threshold = threshold arguments := by
  rw [threshold, Arguments.threshold, Arguments.threshold, lawful.verbosity arguments a asked,
    lawful.quiet arguments a asked]

/-- Without a flag for verbosity warnings are printed, and nothing else. -/
theorem threshold_eq_warn (noVerbose : Flag.verbose.count arguments = 0) (noQuiet : Flag.quiet.count arguments = 0) :
    a.threshold = some .warn := by
  rw [lawful.threshold_eq asked, threshold, noVerbose, noQuiet]
  rfl

end Libraries.Lawful

end ContextFree.CommandLine
