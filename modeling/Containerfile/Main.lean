import Containerfile.CommandLine.Run

/-!
# The command line tool

This is the outer layer: it reads what a run can see, lets the run compute, and writes the answer.
What is written, and why a run fails, is decided by `Invocation.compute`.
-/

namespace Containerfile

namespace CommandLine

/-- The kind of a failed access.  Two of the system's codes tell a path that leads through a file
from one that leads to a directory, and a name that is too long from one that is invalid. -/
def fileError : IO.Error → FileError
  | .noFileOrDirectory .. => .notFound
  | .noSuchThing .. => .notFound
  | .inappropriateType _ code _ => if code = 20 then .notADirectory else .isADirectory
  | .invalidArgument _ code _ => if code = 36 then .nameTooLong else .invalidPath
  | e => .refused (toString e).toList

/-- What can be read at a path. -/
def look (path : Text) : IO (Text × Except FileError Text) := do
  match ← (IO.FS.readBinFile (String.ofList path)).toBaseIO with
  | .ok bytes =>
    match String.fromUTF8? bytes with
    | some s => return (path, .ok s.toList)
    | none => return (path, .error .invalidData)
  | .error e => return (path, .error (fileError e))

/-- The view that a list of paths gives. -/
def viewOf (seen : List (Text × Except FileError Text)) : FileView := fun path =>
  match seen.find? fun entry => entry.1 == path with
  | some (_, answer) => answer
  | none => .error .notFound

/-- The variables of the environment that arguments can name. -/
def environmentFor (arguments : List Text) : IO Invocation.Environment := do
  let names := arguments ++ arguments.filterMap (Text.after? "--build-arg=".toList)
  let found ← names.mapM fun name => do
    let value ← IO.getEnv (String.ofList name)
    return value.map fun v => (name, v.toList)
  return found.filterMap id

/-- The path of the user's configuration. -/
def userConfigPath : IO Text := do
  let home := (← IO.getEnv "HOME").getD ""
  let base := (← IO.getEnv "XDG_CONFIG_HOME").getD (home ++ "/.config")
  return (base ++ "/dockerfile-model/config.toml").toList

/-- What is said of a command line that is refused. -/
def refusalMessage : Refusal → String
  | .missingInput => "the input file is missing"
  | .unknownArgument => "unexpected argument"
  | .conflict => "two arguments cannot be used together"
  | .badValue => "invalid value for an option"
  | .missingValue => "a value is required for an option"
  | .unwantedValue => "a switch takes no value"
  | .help => "usage: dockerfile-model [OPTIONS] <INPUT>"
  | .version => "dockerfile-model 0.1.0"

/-- Writes the answer of a run to its output. -/
def deliver (inv : Invocation) (s : Text) : IO (Except Failure Unit) := do
  let writing : IO Unit :=
    match inv.output with
    | some path => IO.FS.writeFile (String.ofList path) (String.ofList s)
    | none => IO.print (String.ofList s)
  match ← writing.toBaseIO with
  | .ok () => return .ok ()
  | .error e => return .error (.file (fileError e))

/-- Tells the user why a run failed. -/
def complain (failure : Failure) : IO UInt32 := do
  IO.eprintln failure.message
  return 1

/-- Carries out what the command line asks for. -/
def carryOut (inv : Invocation) : IO UInt32 := do
  let userPath ← userConfigPath
  let seen ← (inv.paths userPath).mapM look
  match inv.compute (viewOf seen) userPath with
  | .ok s =>
    match ← deliver inv s with
    | .ok () => return 0
    | .error failure => complain failure
  | .error failure => complain failure

end CommandLine

end Containerfile

open Containerfile in
/-- Runs the tool on its arguments. -/
def main (arguments : List String) : IO UInt32 := do
  let arguments := arguments.map String.toList
  match Invocation.ofArguments (← CommandLine.environmentFor arguments) arguments with
  | .ok inv => CommandLine.carryOut inv
  | .error .help =>
    IO.println (CommandLine.refusalMessage .help)
    return 0
  | .error .version =>
    IO.println (CommandLine.refusalMessage .version)
    return 0
  | .error refusal =>
    IO.eprintln (CommandLine.refusalMessage refusal)
    return 2
