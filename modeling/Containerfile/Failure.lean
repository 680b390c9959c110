import Containerfile.Error

/-!
# Failures of a run, and their reports

A run of the tool can fail in more ways than an operation of the library: a file cannot be read,
the configuration is unusable, or a document does not give back the text that it was read from.  A
report is what a user is shown of a failure; only one that points into a source has a label.

## Main definitions

* `FileError`, `ConfigProblem`, `Failure` — the failures, with `Failure.message`.
* `Report`, `Failure.report` — what is shown.
-/

namespace Containerfile

/-- Why a file cannot be read or written. -/
inductive FileError where
  | notFound
  | isADirectory
  | notADirectory
  /-- The file does not hold text. -/
  | invalidData
  /-- The path holds a null character. -/
  | invalidPath
  /-- The path, or a name in it, is too long. -/
  | nameTooLong
  /-- The system refuses the access for a reason of its own. -/
  | refused (reason : Text)
deriving DecidableEq, Repr

namespace FileError

/-- The wording of a failed access. -/
def message : FileError → String
  | notFound => "no such file or directory"
  | isADirectory => "is a directory"
  | notADirectory => "not a directory"
  | invalidData => "stream did not contain valid UTF-8"
  | invalidPath => "file name contained an unexpected NUL byte"
  | nameTooLong => "file name too long"
  | refused reason => String.ofList reason

end FileError

/-- Why a configuration cannot be used. -/
inductive ConfigProblem where
  /-- The file that was asked for does not exist. -/
  | missing (path : Text)
  /-- The file has not the form of a configuration. -/
  | unreadable (path : Text)
  /-- A build argument has a name that no declaration can have. -/
  | invalidName (path name : Text)
  /-- What a caller says about it. -/
  | stated (reason : Text)
deriving DecidableEq, Repr

namespace ConfigProblem

/-- The wording of a problem with the configuration. -/
def message : ConfigProblem → String
  | missing path => "Missing configuration file: " ++ String.ofList path
  | unreadable path => "Failed to parse TOML configuration in " ++ String.ofList path
  | invalidName path name =>
    "Build argument `" ++ String.ofList name ++ "` in " ++ String.ofList path ++
      " is not a valid ARG name"
  | stated reason => String.ofList reason

end ConfigProblem

/-- A failure of a run. -/
inductive Failure where
  | file (error : FileError)
  /-- The text of a file does not have the form of a document. -/
  | parse (error : ParseError) (source : Text)
  | operation (error : Error)
  | config (problem : ConfigProblem)
  /-- The document does not give back the text of the file that it was read from. -/
  | roundTrip (path : Text)
deriving DecidableEq, Repr

namespace Failure

/-- The wording of a failure. -/
def message : Failure → String
  | file error => "I/O error: " ++ error.message
  | parse error _ => error.message
  | operation error => error.message
  | config problem => "Configuration error: " ++ problem.message
  | roundTrip path => "serialised document differs from `" ++ String.ofList path ++ "`"

end Failure

/-! ## Reports -/

/-- A place in the source, with what is said of it. -/
structure Label where
  /-- The offset, in bytes. -/
  offset : Nat
  /-- The length, in bytes. -/
  length : Nat
  text : String
  primary : Bool
deriving DecidableEq, Repr

/-- What a user is shown of a failure. -/
structure Report where
  code : String
  help : Option String
  labels : List Label
  /-- Whether the source is shown with it. -/
  hasSource : Bool
  display : String
deriving DecidableEq, Repr

/-- The size, in bytes, of the character at an offset; zero if there is none. -/
def Text.charSizeAt (source : Text) (offset : Nat) : Nat :=
  match Text.dropBytes? offset source with
  | some (c :: _) => c.utf8Size
  | _ => 0

namespace Failure

/-- The code under which a failure is reported. -/
def code : Failure → String
  | file _ => "dockerfile_model::io"
  | parse error _ => error.code.label
  | operation error => error.code.label
  | config _ => "dockerfile_model::config"
  | roundTrip _ => "dockerfile_model::round_trip"

/-- What a user can do about a failure. -/
def help : Failure → Option String
  | parse error _ => some error.code.description
  | roundTrip _ => some
    "the document cannot be reproduced losslessly; use --resolve or --stages to process it anyway"
  | _ => none

/-- The places in the source that a failure points to: the one character at which it was found. -/
def labels : Failure → List Label
  | parse error source =>
    [⟨error.offset, source.charSizeAt error.offset, error.position.describe, true⟩]
  | _ => []

/-- Whether the source is shown with a failure. -/
def hasSource : Failure → Bool
  | parse _ _ => true
  | _ => false

/-- The headline of a failure.  Where a label shows the position, the headline does not. -/
def display : Failure → String
  | parse error _ => error.reason
  | failure => failure.message

/-- The report of a failure. -/
def report (failure : Failure) : Report where
  code := failure.code
  help := failure.help
  labels := failure.labels
  hasSource := failure.hasSource
  display := failure.display

end Failure

end Containerfile
