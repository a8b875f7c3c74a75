/-
# The command

Reads files as the run turns out to need them: a run that has asked for files not
read yet is started again once they are there, so that what decides is the pure
program alone.
-/
import HtmlCompose.CommandLine.Program

namespace HtmlCompose
namespace CommandLine

open Files

/-- What is said about arguments that are not correct. -/
def usage : String :=
  "Usage: html-compose [OPTIONS] <URI>\n\n" ++
  "  -r, --root <DIR>        base directory of the components\n" ++
  "  -d, --data <JSON>       data for the component\n" ++
  "      --data-file <FILE>  data for the component from a file\n" ++
  "  -c, --config <FILE>     configuration\n" ++
  "      --no-cache          do without caches\n" ++
  "      --check             only parse the template\n" ++
  "  -o, --output <FILE>     write the page to a file"

/-- Why a file could not be used. -/
def failureOf : IO.Error → Failure
  | .noFileOrDirectory .. => .missing
  | error => .other (toString error)

/-- The text of a file. -/
def readFile (path : String) : IO (Except Failure String) := do
  try
    let bytes ← IO.FS.readBinFile path
    match String.fromUTF8? bytes with
    | some text => return .ok text
    | none => return .error .notText
  catch error => return .error (failureOf error)

/-- Writes a page to a file. -/
def writeFile (path page : String) : IO (Except Failure Unit) := do
  try
    IO.FS.writeFile path page
    return .ok ()
  catch error => return .error (failureOf error)

/-- The outcome of a run with all files that it needs. -/
partial def runWithFiles (o : Options) (known : List (String × Except Failure String)) :
    IO Outcome := do
  let files : Reader := fun path => (known.lookup path).getD (.error .missing)
  let (outcome, uris) := run files o
  let missing := (pathsOf files o uris).eraseDups.filter fun path => (known.lookup path).isNone
  if missing.isEmpty then return outcome
  let found ← missing.mapM fun path => do return (path, ← readFile path)
  runWithFiles o (found ++ known)

/-- Prints what a run leaves. -/
def finish (result : Result) : IO UInt32 := do
  IO.print result.output
  IO.eprint result.errors
  return UInt32.ofNat result.code

end CommandLine
end HtmlCompose

open HtmlCompose.CommandLine in
/-- Runs the command. -/
def main (arguments : List String) : IO UInt32 := do
  match Options.parse? arguments with
  | none =>
    IO.eprintln usage
    return 2
  | some o =>
    match ← runWithFiles o [] with
    | .finished result => finish result
    | .writing path page => finish (written path (← writeFile path page))
