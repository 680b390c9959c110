import Containerfile.Instruction.Basic

/-!
# Reading instructions

One reader per form, each a sequence of a keyword, arguments and the end of the line.  The reader
of any instruction looks at the first word and goes on with the reader of that keyword.  An
`ONBUILD` holds another instruction, so this reader refers to itself, on a shorter text.

## Main definitions

* `Instruction.stageBody`, `Instruction.argBody`, … — the readers of the forms.
* `Instruction.body` — the reader that belongs to a keyword.
* `Instruction.read` — the reader of any instruction.
* `Instruction.formBody` — the reader of one form, which is stuck at any other instruction.
* `Instruction.parse`, `Instruction.parseAs` — an instruction that is a whole text.
-/

namespace Containerfile

namespace Instruction

open Grammar Lexeme

/-! ## The forms -/

/-- Reads an instruction that opens a stage: perhaps a flag, an image, and perhaps a name. -/
def stageBody (escape : Char) : Grammar :=
  start Keyword.FROM.name
    ++ optional (argument escape (KeyValue.flag escape))
    ++ required escape "image name" (Literal.grammar .word escape)
    ++ optional (argument escape (Lexeme.keyword "AS".toList)
      ++ required escape "stage name" (identifier isStageChar))
    ++ finish escape

/-- Reads declarations of arguments, at least one. -/
def argBody (escape : Char) : Grammar :=
  start Keyword.ARG.name
    ++ required escape "argument name" (KeyValue.declaration escape isStageChar)
    ++ many (argument escape (KeyValue.declaration escape isStageChar))
    ++ finish escape

/-- Reads assignments to variables, or one variable and the rest of the line for its value. -/
def envBody (escape : Char) : Grammar :=
  start Keyword.ENV.name
    ++ either
      (argument escape (KeyValue.pair escape isStageChar)
        ++ many (argument escape (KeyValue.pair escape isStageChar)))
      (required escape "variable name" (identifier isStageChar)
        ++ required escape "variable value" (Literal.grammar .line escape))
    ++ finish escape

/-- Reads labels, at least one. -/
def labelBody (escape : Char) : Grammar :=
  start Keyword.LABEL.name
    ++ required escape "label" (KeyValue.pair escape isKeyChar)
    ++ many (argument escape (KeyValue.pair escape isKeyChar))
    ++ finish escape

/-- Reads flags, any number. -/
def flagsBody (escape : Char) : Grammar :=
  many (argument escape (KeyValue.flag escape))

/-- Reads an array, if it is all that is left of the instruction. -/
def wholeArray (escape : Char) (references : Bool) : Grammar :=
  argument escape (ExecForm.grammar escape references) ++ when (atFinish escape)

/-- Reads flags and a command: an array, or else the rest of the line, in which a dollar sign is
nothing special. -/
def commandBody (escape : Char) (k : Keyword) : Grammar :=
  start k.name
    ++ flagsBody escape
    ++ either (wholeArray escape false)
      (required escape "command" (Literal.grammar (Style.line.withReferences false) escape))
    ++ finish escape

/-- Reads words, at least one. -/
def words (escape : Char) : Grammar :=
  required escape "argument" (Literal.grammar .word escape)
    ++ many (argument escape (Literal.grammar .word escape))

/-- Reads the arguments of a generic instruction. -/
def argumentsBody (escape : Char) : Arguments → Grammar
  | .words true => either (wholeArray escape true) (words escape)
  | .words false => words escape
  | .line => required escape "argument" (Literal.grammar (Style.line.withReferences false) escape)
  | .array => required escape "JSON array" (ExecForm.grammar escape false)

/-- Reads flags and arguments. -/
def genericBody (escape : Char) (k : Keyword) (arguments : Arguments) : Grammar :=
  start k.name
    ++ flagsBody escape
    ++ argumentsBody escape arguments
    ++ finish escape

/-- Whether `ONBUILD` may not defer the instruction. -/
def isForbiddenTrigger (i : Instruction) : Bool :=
  Keyword.all.any fun k => k.isForbiddenTrigger && i.name == k.name

/-- Reads an instruction that may be deferred, with `instruction`. -/
def trigger (instruction : Text → Outcome Instruction) : Grammar := fun s =>
  match instruction s with
  | .ok i r =>
    if i.isForbiddenTrigger then .failed ⟨.malformed .forbiddenTrigger, s⟩
    else .ok [i.token] r
  | .stuck r => .stuck r
  | .failed e => .failed e

/-- Reads an instruction that defers another, which is read with `instruction`.  The deferred
instruction ends the line. -/
def onBuildBody (escape : Char) (instruction : Text → Outcome Instruction) : Grammar :=
  start Keyword.ONBUILD.name
    ++ commit "trigger instruction" (separator escape)
    ++ trigger instruction

/-! ## Any instruction -/

/-- The reader that belongs to a keyword; `instruction` reads a deferred instruction. -/
def body (escape : Char) (instruction : Text → Outcome Instruction) (k : Keyword) : Grammar :=
  match k.form, k.arguments? with
  | .stage, _ => stageBody escape
  | .arg, _ => argBody escape
  | .env, _ => envBody escape
  | .label, _ => labelBody escape
  | .command, _ => commandBody escape k
  | .onBuild, _ => onBuildBody escape instruction
  | .generic, some arguments => genericBody escape k arguments
  | .generic, none => fun s => .stuck s

/-- The text from the first word on. -/
def fromFirstWord (s : Text) : Text :=
  s.dropWhile isBlank

/-- The first word of a text, behind its indentation. -/
def firstWord (s : Text) : Text :=
  (fromFirstWord s).takeWhile isNameChar

/-- Reads any instruction; `instruction` reads a deferred one. -/
def readWith (escape : Char) (instruction : Text → Outcome Instruction) (s : Text) :
    Outcome Instruction :=
  match firstWord s with
  | [] => .failed ⟨.expected "instruction", fromFirstWord s⟩
  | c :: cs =>
    match Keyword.ofWord? (c :: cs) with
    | some k => (body escape instruction k s).map fun ts => ⟨k.form, escape, ts⟩
    | none => .failed ⟨.malformed .unknownInstruction, fromFirstWord s⟩

/-- Reads any instruction. -/
def read (escape : Char) : Text → Outcome Instruction :=
  fix (readWith escape)

/-! ## One form -/

/-- Reads a command with any of the keywords that run one. -/
def anyCommandBody (escape : Char) : Grammar :=
  attempt (either (commandBody escape .RUN)
    (either (commandBody escape .CMD) (commandBody escape .ENTRYPOINT)))

/-- Reads any of the generic instructions. -/
def anyGenericBody (escape : Char) : Grammar := fun s =>
  match (Keyword.ofWord? (firstWord s)).bind fun k => k.arguments?.map fun a => (k, a) with
  | some (k, arguments) => genericBody escape k arguments s
  | none => .stuck s

/-- The reader of a form. -/
def formBody (escape : Char) : Form → Grammar
  | .stage => stageBody escape
  | .arg => argBody escape
  | .env => envBody escape
  | .label => labelBody escape
  | .command => anyCommandBody escape
  | .onBuild => onBuildBody escape (read escape)
  | .generic => anyGenericBody escape

/-- Reads an instruction of a form. -/
def readAs (form : Form) (escape : Char) (s : Text) : Outcome Instruction :=
  (formBody escape form s).map fun ts => ⟨form, escape, ts⟩

/-- The instruction that a text is. -/
def parse (s : Text) (escape : Char) : Except ParseError Instruction :=
  (read escape s).complete s

/-- The instruction of a form that a text is. -/
def parseAs (form : Form) (s : Text) (escape : Char) : Except ParseError Instruction :=
  (readAs form escape s).complete s

/-- The instruction of a form that a text is, where the text was composed from a caller's
values. -/
def compose (form : Form) (s : Text) (escape : Char) : Except Error Instruction :=
  match parseAs form s escape with
  | .ok i => .ok i
  | .error e => .error (.parse e)

end Instruction

end Containerfile
