import Containerfile.Text.Position

/-!
# What can go wrong

Every failure of the library is a value that says its cause; the wording is a function of the
cause and stands here once.  Three families exist: a text does not have the form of a construct
(`ParseError`), a caller's value cannot be used (`ArgumentProblem`), and a reference of the form
`${NAME?word}` was resolved while its variable was unset.

## Main definitions

* `ErrorCode` — the searchable codes, in families by their first digit.
* `Problem`, `Complaint`, `Cause` — what a reader found wrong with a text, from the narrowest to
  the widest: a malformed construct; also a missing one; also text that fits nothing at all.
* `ParseError` — a cause and where it lies.
* `ArgumentProblem` — why a value given by a caller is refused.
* `Error` — the failures of the library's operations, with `Error.code` and `Error.message`.
-/

namespace Containerfile

/-! ## Codes -/

/-- The kinds of failure. -/
inductive ErrorCode where
  | unexpectedInput
  | trailingInput
  | unknownInstruction
  | unterminatedQuote
  | badSubstitution
  | missingBrace
  | invalidDirective
  | invalidTrigger
  | invalidArgument
  | instructionNotFound
  | variableUnset
deriving DecidableEq, Repr

namespace ErrorCode

/-- The code as it is shown: a family digit and a number within the family. -/
def label : ErrorCode → String
  | unexpectedInput => "E100"
  | trailingInput => "E101"
  | unknownInstruction => "E102"
  | unterminatedQuote => "E103"
  | badSubstitution => "E104"
  | missingBrace => "E105"
  | invalidDirective => "E106"
  | invalidTrigger => "E107"
  | invalidArgument => "E200"
  | instructionNotFound => "E201"
  | variableUnset => "E300"

/-- The code in a few words. -/
def description : ErrorCode → String
  | unexpectedInput => "unexpected input"
  | trailingInput => "trailing input"
  | unknownInstruction => "unknown instruction"
  | unterminatedQuote => "unterminated quoted string"
  | badSubstitution => "bad substitution"
  | missingBrace => "missing closing brace"
  | invalidDirective => "invalid parser directive"
  | invalidTrigger => "invalid trigger instruction"
  | invalidArgument => "invalid argument"
  | instructionNotFound => "instruction not found"
  | variableUnset => "variable unset"

end ErrorCode

/-! ## Texts of the wrong form -/

/-- A construct that has begun and is malformed. -/
inductive Problem where
  /-- A line starts with a word that names no instruction. -/
  | unknownInstruction
  /-- The line ends inside a quoted run. -/
  | unterminatedQuote
  /-- A `${` is followed by no name, or its name by no known operator. -/
  | badSubstitution
  /-- A `${` has no closing brace on its line. -/
  | missingBrace
  /-- An `escape` directive names a character that cannot be the escape character. -/
  | escapeValue
  /-- An `ONBUILD` defers an instruction that cannot be deferred. -/
  | forbiddenTrigger
deriving DecidableEq, Repr

namespace Problem

/-- The code under which a malformed construct is reported. -/
def code : Problem → ErrorCode
  | unknownInstruction => .unknownInstruction
  | unterminatedQuote => .unterminatedQuote
  | badSubstitution => .badSubstitution
  | missingBrace => .missingBrace
  | escapeValue => .invalidDirective
  | forbiddenTrigger => .invalidTrigger

/-- What is said about a malformed construct. -/
def message : Problem → String
  | unknownInstruction => "unknown instruction"
  | unterminatedQuote => "unterminated quoted string"
  | badSubstitution => "Bad substitution"
  | missingBrace => "Missing '\x7d'"
  | escapeValue => "escape directive must be a backslash or a backtick"
  | forbiddenTrigger => "instruction is not allowed as an ONBUILD trigger"

end Problem

/-- What a reader that has committed to a construct can find wrong: the next part of it is not
there, or it is there and malformed. -/
inductive Complaint where
  | expected (what : String)
  | malformed (problem : Problem)
deriving DecidableEq, Repr

namespace Complaint

/-- The code of a complaint. -/
def code : Complaint → ErrorCode
  | expected _ => .unexpectedInput
  | malformed problem => problem.code

/-- The wording of a complaint. -/
def message : Complaint → String
  | expected what => s!"expected {what}"
  | malformed problem => problem.message

end Complaint

/-- Why a whole text does not have the form of a construct: a complaint, text that starts nothing
the reader knows, or text left over behind a complete construct. -/
inductive Cause where
  | unexpected
  | trailing
  | complaint (complaint : Complaint)
deriving DecidableEq, Repr

namespace Cause

/-- The code of a cause. -/
def code : Cause → ErrorCode
  | unexpected => .unexpectedInput
  | trailing => .trailingInput
  | complaint c => c.code

/-- The wording of a cause. -/
def message : Cause → String
  | unexpected => "unexpected input"
  | trailing => "unexpected text after the end of the construct"
  | complaint c => c.message

end Cause

/-- A text that does not have the form of a construct: the cause, and the byte offset and position
of the first character that does not fit. -/
structure ParseError where
  cause : Cause
  offset : Nat
  position : Position
deriving DecidableEq, Repr

namespace ParseError

/-- The error with the given cause at a byte offset of a text. -/
def located (source : Text) (offset : Nat) (cause : Cause) : ParseError where
  cause := cause
  offset := offset
  position := Position.ofOffset source offset

/-- The code of the cause. -/
def code (e : ParseError) : ErrorCode :=
  e.cause.code

/-- The wording of the cause, without the position. -/
def reason (e : ParseError) : String :=
  e.cause.message

/-- The wording of the cause, followed by the position. -/
def message (e : ParseError) : String :=
  s!"{e.cause.message} ({e.position.describe})"

end ParseError

/-! ## Values that cannot be used -/

/-- Why a value given by a caller is refused. -/
inductive ArgumentProblem where
  /-- A value that must have content has none. -/
  | empty
  /-- The value does not have the form that its place asks for. -/
  | malformed (cause : Cause)
  /-- A key is empty, or holds white space or an equals sign. -/
  | notKey (key : Text)
  /-- A stage name is empty or holds a character that stage names cannot have. -/
  | notStageName (name : Text)
  /-- A variable name is empty or holds a character that variable names cannot have. -/
  | notVariableName (name : Text)
  /-- No directive has this name. -/
  | notDirective (name : Text)
  /-- A directive's value is blank or holds a line break. -/
  | notOneLine
  /-- A list that must have a member has none. -/
  | noneGiven (what : String)
  /-- No declaration has this name. -/
  | notDeclared (name : Text)
  /-- The only declaration of an instruction cannot be taken out. -/
  | lastDeclaration
  /-- The keyword is none of those that run a command. -/
  | notCommand (keyword : Text)
  /-- The keyword is none of those with plain arguments. -/
  | notGeneric (keyword : Text)
  /-- The instruction cannot be deferred. -/
  | notTrigger (name : Text)
  /-- The text is no operator of a reference. -/
  | notOperator (operator : Text)
deriving DecidableEq, Repr

namespace ArgumentProblem

/-- A text between the marks that set off a quoted value in a message. -/
private def marked (s : Text) : String :=
  "`" ++ String.ofList s ++ "`"

/-- The wording of a refusal. -/
def message : ArgumentProblem → String
  | empty => "value must not be empty"
  | malformed cause => cause.message
  | notKey key => marked key ++ " is not a valid key"
  | notStageName name => marked name ++ " is not a valid stage name"
  | notVariableName name => marked name ++ " is not a variable name"
  | notDirective name => marked name ++ " is not a parser directive"
  | notOneLine => "value must be a non-empty single line"
  | noneGiven what => s!"at least one {what} is required"
  | notDeclared name => marked name ++ " is not declared"
  | lastDeclaration => "an ARG instruction needs at least one declaration"
  | notCommand keyword => marked keyword ++ " is not RUN, CMD or ENTRYPOINT"
  | notGeneric keyword => marked keyword ++ " is not a generic instruction"
  | notTrigger name => String.ofList name ++ " is not allowed as an ONBUILD trigger"
  | notOperator operator => "unknown operator " ++ marked operator

end ArgumentProblem

/-! ## Failures of operations -/

/-- A failure of one of the library's operations. -/
inductive Error where
  /-- A text does not have the form of a construct. -/
  | parse (error : ParseError)
  /-- The argument called `name` cannot be used. -/
  | invalidArgument (name : String) (problem : ArgumentProblem)
  /-- The document has no instruction at this position. -/
  | instructionNotFound (position : Nat)
  /-- A reference that insists on its variable found it unset. -/
  | variableUnset (name message : Text)
deriving DecidableEq, Repr

namespace Error

/-- The code of a failure. -/
def code : Error → ErrorCode
  | parse e => e.code
  | invalidArgument _ _ => .invalidArgument
  | instructionNotFound _ => .instructionNotFound
  | variableUnset _ _ => .variableUnset

/-- The wording of a failure. -/
def message : Error → String
  | parse e => e.message
  | invalidArgument name problem => "invalid value for `" ++ name ++ "`: " ++ problem.message
  | instructionNotFound position => s!"instruction {position} is not contained in the Dockerfile"
  | variableUnset _ message => String.ofList message

end Error

end Containerfile
