import Containerfile.CommandLine.Invocation
import Containerfile.CommandLine.Settings
import Containerfile.Document.Listing

/-!
# A run of the tool

A run reads its configuration and its input, and writes one of three things: the document as it is,
as a check that nothing was lost; the document resolved; or a listing of its stages.

## Main definitions

* `Invocation.process` — what a run makes of a document.
* `Invocation.compute` — what a run writes, given what it can read.
* `Invocation.paths` — the paths that a run reads from.
* `Invocation.runIn` — a run on a tree of files.
-/

namespace Containerfile

namespace Invocation

/-- What the run makes of a document that was read from `source`. -/
def process (inv : Invocation) (config : Config) (source : Text) (d : Document) :
    Except Failure Text :=
  if inv.stages then .ok d.listing
  else if inv.resolve then
    match (config.resolve d (.ofList inv.buildArgs)).answer with
    | .ok s => .ok s
    | .error e => .error (.operation e)
  else if d.text = source then .ok d.text
  else .error (.roundTrip inv.input)

/-- What a run computes, before it is written: the configuration comes first, then the input. -/
def compute (inv : Invocation) (view : FileView) (userPath : Text) : Except Failure Text := do
  let config ← loadConfig view userPath inv.config
  match view inv.input with
  | .error e => .error (.file e)
  | .ok source =>
    let d ← Config.parse source
    inv.process config source d

/-- The paths that a run reads from, some of them only if others lead nowhere. -/
def paths (inv : Invocation) (userPath : Text) : List Text :=
  inv.config.toList ++ [localConfigPath, userPath, inv.input]

/-- What a run on a tree of files writes, either to its output file or to the standard output, and
the files after it. -/
def runIn (inv : Invocation) (tree : FileTree) (userPath : Text) :
    Except Failure (Text × FileTree) := do
  let s ← inv.compute tree.read userPath
  match inv.output with
  | none => return (s, tree)
  | some path =>
    match tree.write path s with
    | .ok after => return (s, after)
    | .error e => .error (.file e)

end Invocation

end Containerfile
