import ContextFree.CommandLine.Run

open ContextFree.CommandLine

def readSource (path : String) : IO (Except FileError String) := do
  try
    return .ok (← IO.FS.readFile path)
  catch
    | .noFileOrDirectory .. => return .error .notFound
    | e => return .error ⟨toString e⟩

def main (arguments : List String) : IO UInt32 := do
  let source ← match Libraries.standard.parse arguments with
    | .found { path := some path, .. } => readSource path
    | _ => pure (.error .notFound)
  let outcome := run arguments fun _ => source
  (← IO.getStderr).putStr outcome.stderr
  (← IO.getStdout).putStr outcome.stdout
  return outcome.code.toUInt32
