import Containerfile.Document.Stages
import Containerfile.Instruction.Pairs
import Containerfile.Instruction.Stage

/-!
# The listing of a document

A listing shows what a file declares for all stages, and then stage by stage the image, the
platform, the declared arguments and the number of instructions.

## Main definitions

* `Document.listing` — the lines, each with its line end.
-/

namespace Containerfile

namespace Document

/-- The line of a global argument. -/
def listDeclaration (p : KeyValue) : Text :=
  "ARG ".toList ++ p.key ++ (p.value?.map fun v => '=' :: v).getD []

/-- The lines of a stage. -/
def listStage (s : Stage) : List Text :=
  let name := (s.name?.map fun n => " (".toList ++ n ++ [')']).getD []
  let names := s.args.flatMap Instruction.declaredNames
  [s!"stage {s.index}".toList ++ name ++ ": ".toList ++ s.opening.imageName]
    ++ (s.opening.platform?.map fun p => "  platform: ".toList ++ p).toList
    ++ (if names.isEmpty then [] else ["  args: ".toList ++ Text.join ", ".toList names])
    ++ [s!"  instructions: {s.instructions.length}".toList]

/-- One line for each global argument, then the lines of each stage. -/
def listing (d : Document) : Text :=
  let lines := (d.stages.globalArgs.flatMap Instruction.keyValues).map listDeclaration
    ++ d.stages.stages.flatMap listStage
  lines.flatMap fun line => line ++ ['\n']

end Document

end Containerfile
