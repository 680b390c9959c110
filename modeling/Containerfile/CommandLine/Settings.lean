import Containerfile.CommandLine.Files
import Containerfile.CommandLine.Toml
import Containerfile.Config
import Containerfile.Instruction.Pairs

/-!
# The settings of a run

A configuration file has one section, on resolution: two switches, and a table of build arguments.
Anything else in the file means nothing.

A run takes the file that the command line names, which must exist; else the one in the working
directory; else the one of the user; else no file at all.

## Main definitions

* `Config.ofToml?` — the configuration that a file says.
* `configPath?`, `readConfig`, `loadConfig` — the configuration of a run.
-/

namespace Containerfile

namespace Config

/-- The path, within a configuration file, of the section on resolution. -/
def section? (key : List Text) : Option (List Text) :=
  match key with
  | name :: path => if name = "resolve".toList then some path else none
  | [] => none

/-- The fields of the section on resolution. -/
inductive Field where
  | buildArg (name : Text)
  | removeEscapes
  | inline
  /-- A field of no meaning. -/
  | other
deriving DecidableEq, Repr

/-- The field that a path leads to; none if something on the path must not be a table. -/
def field? : List Text → Option Field
  | [] => none
  | name :: path =>
    if name = "build_args".toList then
      match path with
      | [arg] => some (.buildArg arg)
      | _ => none
    else if name = "remove_escape_characters".toList then
      if path.isEmpty then some .removeEscapes else none
    else if name = "update_inline".toList then
      if path.isEmpty then some .inline else none
    else some .other

/-- Whether there may be a table at a path: there may not where a field is. -/
def allowsTable (path : List Text) : Bool :=
  match section? path with
  | none => true
  | some [] => true
  | some (name :: rest) =>
    if name = "build_args".toList then rest.isEmpty
    else name != "remove_escape_characters".toList && name != "update_inline".toList

/-- Puts a build argument in its place in the order of names. -/
def insertByName (name value : Text) : List (Text × Text) → List (Text × Text)
  | [] => [(name, value)]
  | (n, v) :: rest =>
    if name < n then (name, value) :: (n, v) :: rest else (n, v) :: insertByName name value rest

/-- What a file has said so far. -/
structure Draft where
  buildArgs : List (Text × Text) := []
  options : ResolutionOptions := {}
deriving DecidableEq, Repr

/-- Takes up one value, if it is of the right kind. -/
def takeUpValue? (draft : Draft) (key : List Text) (value : Toml.Scalar) : Option Draft :=
  match section? key with
  | none => some draft
  | some path =>
    match field? path, value with
    | some (.buildArg name), .string s =>
      some { draft with buildArgs := insertByName name s draft.buildArgs }
    | some .removeEscapes, .boolean b =>
      some { draft with options := { draft.options with removeEscapes := b } }
    | some .inline, .boolean b =>
      some { draft with options := { draft.options with inline := b } }
    | some .other, _ => some draft
    | _, _ => none

/-- Takes up what stands at one key path. -/
def takeUp? (draft : Draft) (node : List Text × Toml.Node) : Option Draft :=
  match node with
  | (path, .table _) => if allowsTable path then some draft else none
  | (path, .value value) => takeUpValue? draft path value

/-- The configuration that a file says.  Build arguments are in the order of their names. -/
def ofToml? (f : Toml) : Option Config :=
  (f.nodes.foldlM takeUp? {}).map fun draft => ofArgs draft.buildArgs draft.options

end Config

/-! ## The place of the configuration -/

/-- The configuration of the working directory. -/
def localConfigPath : Text := "dockerfile-model/config.toml".toList

/-- The path of the configuration of a run. -/
def configPath? (view : FileView) (userPath : Text) (explicit : Option Text) : Option Text :=
  match explicit with
  | some path => some path
  | none =>
    if view.contains localConfigPath then some localConfigPath
    else if view.contains userPath then some userPath
    else none

/-- The configuration in a file. -/
def readConfig (view : FileView) (path : Text) : Except Failure Config :=
  if view.contains path then
    match view path with
    | .error e => .error (.file e)
    | .ok s =>
      match (Toml.parse? s).bind Config.ofToml? with
      | none => .error (.config (.unreadable path))
      | some config =>
        match config.buildArgs.entries.find? fun e => !isArgName e.1 with
        | some (name, _) => .error (.config (.invalidName path name))
        | none => .ok config
  else .error (.config (.missing path))

/-- The configuration of a run, given the path of the user's configuration. -/
def loadConfig (view : FileView) (userPath : Text) (explicit : Option Text) :
    Except Failure Config :=
  match configPath? view userPath explicit with
  | some path => readConfig view path
  | none => .ok {}

end Containerfile
