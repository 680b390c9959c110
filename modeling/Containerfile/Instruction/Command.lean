import Containerfile.Instruction.Grammar

/-!
# Commands, plain arguments and triggers

`RUN`, `CMD` and `ENTRYPOINT` hold a command, either as a line for a shell or as an array.  The
generic instructions hold words, a line, or an array.  `ONBUILD` holds another instruction.

## Main definitions

* `Instruction.shellCommand?`, `Instruction.command`, `Instruction.setShellCommand`,
  `Instruction.setExecForm` — for commands.
* `Instruction.arguments`, `Instruction.argumentValues`, `Instruction.setFlag` — for the generic
  instructions.
* `Instruction.trigger?` — for `ONBUILD`.
* `Instruction.createShell`, `Instruction.createExec`, `Instruction.createGeneric`,
  `Instruction.createOnBuild` — from their arguments.
-/

namespace Containerfile

namespace Instruction

/-! ## Commands -/

/-- The line for a shell. -/
def shellCommand? (i : Instruction) : Option Literal :=
  i.literal?

/-- The command as one text: the line for a shell, or the strings of the array with spaces
between. -/
def command (i : Instruction) : Text :=
  match i.execForm?, i.shellCommand? with
  | some array, _ => Text.join [' '] array.values
  | none, some line => line.value
  | none, none => []

/-- The instruction with another command. -/
def replaceCommand (i : Instruction) (command : Token) : Instruction :=
  i.setPart (i.parts.findIdx? fun t => t.isLiteral || t.isExecForm) (some command)
    Children.appendArgument Children.erase

/-- The instruction with a line for a shell as its command. -/
def setShellCommand (i : Instruction) (command : Text) : Except Error Instruction := do
  let line ← Literal.create "command" command i.escape (Style.line.withReferences false)
  return i.replaceCommand line.token

/-- The instruction with an array as its command. -/
def setExecForm (i : Instruction) (values : List Text) : Except Error Instruction := do
  let array ← ExecForm.create values i.escape false
  return i.replaceCommand array.token

/-- The keyword of a command that a word is. -/
def commandKeyword (word : Text) : Except Error Keyword :=
  match [Keyword.RUN, .CMD, .ENTRYPOINT].find? (·.matchesWord word) with
  | some k => .ok k
  | none => .error (.invalidArgument "keyword" (.notCommand word))

/-- A command that is a line for a shell. -/
def createShell (keyword command : Text) (escape : Char) : Except Error Instruction := do
  let k ← commandKeyword keyword
  if command.trim.isEmpty then .error (.invalidArgument "command" .empty)
  else compose .command (k.name ++ [' '] ++ command) escape

/-- A command that is an array. -/
def createExec (keyword : Text) (values : List Text) (escape : Char) :
    Except Error Instruction := do
  let k ← commandKeyword keyword
  let array ← ExecForm.create values escape false
  compose .command (k.name ++ [' '] ++ array.text) escape

/-! ## Plain arguments -/

/-- The literals of the arguments; for an array, those of its elements. -/
def arguments (i : Instruction) : List Literal :=
  match i.execForm? with
  | some array => array.elements
  | none => i.parts.filterMap Token.literal?

/-- What the arguments say. -/
def argumentValues (i : Instruction) : List Text :=
  match i.execForm? with
  | some array => array.values
  | none => i.arguments.map Literal.value

/-- The instruction with another value for a flag, which is added if it is not there. -/
def setFlag (i : Instruction) (name : Text) (value : Option Text) : Except Error Instruction := do
  let flag ← KeyValue.createFlag name value i.escape
  return i.setPart (Children.flagIndex? name i.parts) (some flag.token)
    Children.insertFlag Children.removeArgument

/-- The instruction without a flag. -/
def removeFlag (i : Instruction) (name : Text) : Instruction :=
  i.setPart (Children.flagIndex? name i.parts) none Children.insertFlag Children.removeArgument

/-- A generic instruction with the given words for its arguments. -/
def createGeneric (keyword : Text) (arguments : List Text) (escape : Char) :
    Except Error Instruction :=
  match (Keyword.ofWord? keyword).filter fun k => k.form == .generic with
  | none => .error (.invalidArgument "keyword" (.notGeneric keyword))
  | some k =>
    if arguments.isEmpty then .error (.invalidArgument "arguments" (.noneGiven "argument"))
    else compose .generic (k.name ++ [' '] ++ Text.join [' '] arguments) escape

/-! ## Triggers -/

/-- The deferred instruction. -/
def trigger? (i : Instruction) : Option Instruction :=
  i.parts.findSome? Token.instruction?

/-- An instruction that defers another. -/
def createOnBuild (trigger : Instruction) : Except Error Instruction :=
  if trigger.isForbiddenTrigger then
    .error (.invalidArgument "trigger" (.notTrigger trigger.name))
  else compose .onBuild ("ONBUILD ".toList ++ trigger.text.trimStart) trigger.escape

end Instruction

end Containerfile
