import Containerfile.Instruction.Grammar

/-!
# Declarations, assignments and labels

Three forms hold keys with values: `ARG` declares arguments of the build, `ENV` assigns variables
and `LABEL` describes the image.  `ENV` has an older form too, with one variable and the rest of
the line for its value.

## Main definitions

* `Instruction.declaredNames`, `Instruction.declaration?`, `Instruction.setDefault`,
  `Instruction.addDeclaration`, `Instruction.removeDeclaration` — for `ARG`.
* `Instruction.isLegacy`, `Instruction.assignments` — for `ENV`.
* `Instruction.label?`, `Instruction.setLabel` — for `LABEL`.
* `Instruction.createArg`, `Instruction.createEnv`, `Instruction.createLabel` — from pairs.
-/

namespace Containerfile

/-- Whether a text can be declared as an argument of the build. -/
def isArgName (name : Text) : Bool :=
  !name.isEmpty && name.all isStageChar

namespace Instruction

/-! ## From pairs -/

/-- The keyword followed by the written forms of pairs. -/
def renderPairs (k : Keyword) (pairs : List KeyValue) : Text :=
  k.name ++ pairs.flatMap fun p => ' ' :: p.text

/-- The instruction with the given pairs; `name` and `what` say what is missing if there are
none. -/
def createPairs (k : Keyword) (name what : String) (pairs : List (Text × Option Text))
    (escape : Char) : Except Error Instruction :=
  if pairs.isEmpty then .error (.invalidArgument name (.noneGiven what))
  else do
    let made ← pairs.mapM fun p => KeyValue.create p.1 p.2 escape
    compose k.form (renderPairs k made) escape

/-- The declaration of arguments with their defaults. -/
def createArg (declarations : List (Text × Option Text)) (escape : Char) :
    Except Error Instruction :=
  createPairs .ARG "declarations" "argument" declarations escape

/-- The assignment of values to variables. -/
def createEnv (assignments : List (Text × Text)) (escape : Char) : Except Error Instruction :=
  createPairs .ENV "variables" "variable" (assignments.map fun p => (p.1, some p.2)) escape

/-- The labels with their values. -/
def createLabel (labels : List (Text × Text)) (escape : Char) : Except Error Instruction :=
  createPairs .LABEL "labels" "label" (labels.map fun p => (p.1, some p.2)) escape

/-! ## Declarations -/

/-- The declared names. -/
def declaredNames (i : Instruction) : List Text :=
  i.keyValues.map KeyValue.key

/-- The first declaration of a name. -/
def declaration? (i : Instruction) (name : Text) : Option KeyValue :=
  i.keyValues.find? (·.key == name)

/-- The instruction with the first declaration of a name changed by `f`; nothing if there is no
such declaration. -/
def modifyDeclaration? (i : Instruction) (name : Text)
    (f : KeyValue → Except Error KeyValue) : Option (Except Error Instruction) :=
  match Children.keyIndex? name i.parts, i.declaration? name with
  | some index, some declaration => some do
    let changed ← f declaration
    return i.withParts (i.parts.set index changed.token)
  | _, _ => none

/-- The instruction with another default for a declared name, or with none. -/
def setDefault (i : Instruction) (name : Text) (value : Option Text) :
    Except Error Instruction :=
  match i.modifyDeclaration? name fun p => p.setValue value i.escape with
  | some result => result
  | none => .error (.invalidArgument "name" (.notDeclared name))

/-- The instruction with one more declaration behind the others. -/
def addDeclaration (i : Instruction) (name : Text) (value : Option Text) :
    Except Error Instruction := do
  let declaration ← KeyValue.create name value i.escape
  return i.setPart none (some declaration.token) Children.appendArgument Children.erase

/-- The instruction without the first declaration of a name.  One declaration always stays. -/
def removeDeclaration (i : Instruction) (name : Text) : Except Error Instruction :=
  if i.keyValues.length < 2 then .error (.invalidArgument "name" .lastDeclaration)
  else
    match Children.keyIndex? name i.parts with
    | none => .error (.invalidArgument "name" (.notDeclared name))
    | some index => .ok (i.setPart (some index) none Children.append Children.removeArgument)

/-! ## Assignments -/

/-- Whether one variable is assigned the rest of the line. -/
def isLegacy (i : Instruction) : Bool :=
  i.parts.any (Token.isLeaf .identifier)

/-- The variables with their values. -/
def assignments (i : Instruction) : List (Text × Text) :=
  if i.isLegacy then
    [((Children.firstLeaf? .identifier i.parts).getD [], (i.literal?.map Literal.value).getD [])]
  else i.keyValues.map fun p => (p.key, p.value?.getD [])

/-! ## Labels -/

/-- The value of a label. -/
def label? (i : Instruction) (key : Text) : Option Text :=
  (i.declaration? key).bind KeyValue.value?

/-- The instruction with another value for a label, which is added if it is not there. -/
def setLabel (i : Instruction) (key value : Text) : Except Error Instruction := do
  let pair ← KeyValue.create key (some value) i.escape
  return i.setPart (Children.keyIndex? key i.parts) (some pair.token)
    Children.appendArgument Children.erase

end Instruction

end Containerfile
