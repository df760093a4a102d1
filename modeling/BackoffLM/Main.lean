import BackoffLM.Command.Run

/-!
# The tool

The program reads the files that its command line names and writes what the command gives.
-/

namespace BackoffLM

/-- How the tool is called. -/
def usage : String :=
  "Usage: backofflm [--settings FILE] COMMAND\n\n" ++
  "Commands:\n" ++
  "  info FILE\n" ++
  "  score FILE SENTENCE [--fake-oov-cost COST] [--json]\n" ++
  "  query FILE WORD [CONTEXT...] [--order N] [--kind standard|count]\n" ++
  "  settings-export\n" ++
  "  settings-validate FILE\n"

/-- The fault of a file that the system refused. -/
def FileFault.ofIO : IO.Error → FileFault
  | .noFileOrDirectory _ _ _ => .missing
  | .inappropriateType _ code details =>
    if code = 21 then .isDirectory else if code = 20 then .notDirectory else .other details
  | .invalidArgument _ code details => if code = 36 then .nameTooLong else .other details
  | e => .other e.toString

/-- Reads a file from the system. -/
def readFile (path : String) : IO (Except FileFault (List UInt8)) := do
  try
    return .ok (← IO.FS.readBinFile path).toList
  catch e => return .error (.ofIO e)

/-- Reads files from the system. -/
def readFiles (paths : List String) : IO Files := do
  let contents ← paths.mapM fun path => return (path, ← readFile path)
  return ⟨fun path => (contents.lookup path).getD (.error .missing)⟩

end BackoffLM

open BackoffLM in
/-- Runs the command that the arguments give. -/
def main (args : List String) : IO UInt32 := do
  match Invocation.ofArgs? args with
  | none =>
    IO.eprint usage
    return 2
  | some invocation =>
    let output := invocation.run (← readFiles invocation.files)
    IO.print output.out
    IO.eprint output.err
    return UInt32.ofNat output.code
