import Containerfile.Document
import Containerfile.Instruction.Pairs
import Containerfile.Instruction.Stage

/-!
# Stages

A file is a global section, in which arguments for all stages can be declared, and the stages of the
build, each from one `FROM` to the next.

## Main definitions

* `Document.layout` — the indices of the global section and of each stage.
* `Document.split` — the items at these indices.
* `Stage`, `Stages`, `Document.stages` — the sections with their views.
-/

namespace Containerfile

/-- One stage of a build. -/
structure Stage where
  /-- The number of the stage, counted from zero. -/
  index : Nat
  /-- The instruction that opens the stage. -/
  opening : Instruction
  /-- All items, of which the opening instruction is the first. -/
  items : List Item
deriving DecidableEq, Repr

/-- The declarations of arguments among items. -/
def Document.argInstructions (items : List Item) : List Instruction :=
  (items.filterMap Item.instruction?).filter fun i => i.form == .arg

namespace Stage

/-- The stage with a number and items, if the first of these opens a stage. -/
def ofItems? (index : Nat) : List Item → Option Stage
  | .instruction i :: items =>
    if i.form = .stage then some ⟨index, i, .instruction i :: items⟩ else none
  | _ => none

/-- The name of the stage. -/
def name? (s : Stage) : Option Text :=
  s.opening.stageName?

/-- The instructions of the stage. -/
def instructions (s : Stage) : List Instruction :=
  s.items.filterMap Item.instruction?

/-- The declarations of arguments in the stage. -/
def args (s : Stage) : List Instruction :=
  Document.argInstructions s.items

end Stage

/-- The indices from `start` on and before `stop`. -/
structure ItemRange where
  start : Nat
  stop : Nat
deriving DecidableEq, Repr

/-- The items with these indices. -/
def ItemRange.slice (s : ItemRange) (items : List Item) : List Item :=
  (items.drop s.start).take (s.stop - s.start)

/-- The ranges of the global section and of the stages. -/
structure StageLayout where
  globals : ItemRange
  stages : List ItemRange
deriving DecidableEq, Repr

/-- The global section and the stages. -/
structure Stages where
  globals : List Item
  stages : List Stage
deriving DecidableEq, Repr

namespace Stages

/-- The declarations of arguments in the global section. -/
def globalArgs (s : Stages) : List Instruction :=
  Document.argInstructions s.globals

/-- The first stage with a name, in any case. -/
def stage? (s : Stages) (name : Text) : Option Stage :=
  s.stages.find? fun stage => stage.name?.any (Text.sameLetters name)

end Stages

namespace Document

/-- The ranges of the stages of items with indices from `index` on, where the first stage has
begun at `start` before them. -/
def stageRanges (start index : Nat) : List Item → List ItemRange
  | [] => [⟨start, index⟩]
  | item :: items =>
    if item.opensStage then ⟨start, index⟩ :: stageRanges index (index + 1) items
    else stageRanges start (index + 1) items

/-- The layout of items with indices from `index` on, where no stage has begun before them. -/
def layoutFrom (index : Nat) : List Item → StageLayout
  | [] => ⟨⟨0, index⟩, []⟩
  | item :: items =>
    if item.opensStage then ⟨⟨0, index⟩, stageRanges index (index + 1) items⟩
    else layoutFrom (index + 1) items

/-- The sections of a file, by the indices of their items. -/
def layout (items : List Item) : StageLayout :=
  layoutFrom 0 items

/-- The items before the first that opens a stage, and then the items of each stage. -/
def split (items : List Item) : List Item × List (List Item) :=
  ((layout items).globals.slice items, (layout items).stages.map (·.slice items))

/-- The stages of item lists, numbered from `index` on. -/
def numberStages (index : Nat) : List (List Item) → List Stage
  | [] => []
  | items :: rest => (Stage.ofItems? index items).toList ++ numberStages (index + 1) rest

/-- The global section and the stages of the file. -/
def stages (d : Document) : Stages where
  globals := (split d.items).1
  stages := numberStages 0 (split d.items).2

end Document

end Containerfile
