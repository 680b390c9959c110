import Containerfile.Instruction.Grammar

/-!
# Opening a stage

`FROM [--platform=<platform>] <image> [AS <name>]` opens a stage of the build from an image.

## Main definitions

* `Instruction.image?`, `Instruction.platform?`, `Instruction.stageName?` — the three arguments.
* `Instruction.setImage`, `Instruction.setPlatform`, `Instruction.setStageName` — their edits.
* `Instruction.createStage` — from its arguments.
-/

namespace Containerfile

namespace Instruction

/-! ## The image -/

/-- The literal of the image. -/
def image? (i : Instruction) : Option Literal :=
  i.literal?

/-- The image as it is written, without quotes. -/
def imageName (i : Instruction) : Text :=
  (i.image?.map Literal.value).getD []

/-- The instruction with another literal for its image. -/
def setImageLiteral (i : Instruction) (image : Literal) : Instruction :=
  i.setPart (i.parts.findIdx? Token.isLiteral) (some image.token) Children.append Children.erase

/-- The instruction with another image. -/
def setImage (i : Instruction) (image : Text) : Except Error Instruction := do
  let l ← Literal.create "image_name" image i.escape .word
  return i.setImageLiteral l

/-! ## The platform -/

/-- The name of the flag that gives the platform. -/
def platformFlag : Text :=
  "platform".toList

/-- The flag that gives the platform. -/
def platformFlag? (i : Instruction) : Option KeyValue :=
  i.flag? platformFlag

/-- The platform. -/
def platform? (i : Instruction) : Option Text :=
  i.platformFlag?.bind KeyValue.value?

/-- The instruction with another flag for its platform, or with none. -/
def setPlatformFlag (i : Instruction) (flag : Option KeyValue) : Instruction :=
  i.setPart (Children.flagIndex? platformFlag i.parts) (flag.map KeyValue.token)
    Children.insertAfterKeyword Children.removeArgument

/-- The instruction with another platform, or with none. -/
def setPlatform (i : Instruction) (platform : Option Text) : Except Error Instruction :=
  match platform with
  | none => .ok (i.setPlatformFlag none)
  | some [] => .error (.invalidArgument "platform" .empty)
  | some (c :: cs) => do
    let flag ← KeyValue.createFlag platformFlag (some (c :: cs)) i.escape
    return i.setPlatformFlag (some flag)

/-! ## The name of the stage -/

/-- The name of the stage. -/
def stageName? (i : Instruction) : Option Text :=
  Children.firstLeaf? .identifier i.parts

/-- Whether a text can name a stage. -/
def isStageName (name : Text) : Bool :=
  !name.isEmpty && name.all isStageChar

/-- Adds the name of the stage behind all arguments. -/
def appendStageName (name : Token) (ts : List Token) : List Token :=
  Children.insertAt (Children.contentEnd ts)
    [.blank [' '], .leaf .keyword "AS".toList, .blank [' '], name] ts

/-- Removes the name of the stage, with all that stands between it and the image. -/
def removeStageName (index : Nat) (ts : List Token) : List Token :=
  let image := (ts.findIdx? Token.isLiteral).getD index
  Children.removeBetween (image + 1) index ts

/-- The instruction with another name for its stage, or with none. -/
def setStageName (i : Instruction) (name : Option Text) : Except Error Instruction :=
  match name.filter fun n => !isStageName n with
  | some n => .error (.invalidArgument "stage_name" (.notStageName n))
  | none =>
    .ok (i.setPart (Children.indexOfLeaf? .identifier i.parts) (name.map Token.identifier)
      appendStageName removeStageName)

/-! ## From its arguments -/

/-- The written form of the instruction. -/
def renderStage (image : Text) (stage platform : Option Text) : Text :=
  let flag := (platform.map fun p => "--platform=".toList ++ p ++ [' ']).getD []
  let name := (stage.map fun n => " AS ".toList ++ n).getD []
  "FROM ".toList ++ flag ++ image ++ name

/-- The instruction with the given arguments. -/
def createStage (image : Text) (stage platform : Option Text) (escape : Char) :
    Except Error Instruction :=
  if image.isEmpty then .error (.invalidArgument "image_name" .empty)
  else compose .stage (renderStage image stage platform) escape

end Instruction

end Containerfile
