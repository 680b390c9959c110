import Containerfile.Lexeme
import Containerfile.Literal

/-!
# Parser directives and blank lines

A directive is a comment of the form `# name=value` at the top of a file.  Three names are known, in
any case; every other comment of this form is only a comment.  The directive `escape` selects the
escape character, which is a backslash or a backtick.

## Main definitions

* `DirectiveName` — the known names.
* `Directive` — a directive, with `Directive.name`, `Directive.value` and `Directive.escape?`.
* `Directive.parse`, `Directive.create`, `Directive.setValue` — from text and from values.
* `BlankLines` — one or more blank lines.
-/

namespace Containerfile

/-! ## Names -/

/-- The names of directives. -/
inductive DirectiveName where
  /-- The image of the reader that a build is to use. -/
  | frontend
  /-- The escape character. -/
  | escape
  /-- The checks that a build is to make. -/
  | check
deriving DecidableEq, Repr

namespace DirectiveName

/-- All names. -/
def all : List DirectiveName :=
  [frontend, escape, check]

/-- The name as a string. -/
def toString : DirectiveName → String
  | frontend => "syntax"
  | escape => "escape"
  | check => "check"

/-- The name that a word is, in any case. -/
def ofWord? (word : Text) : Option DirectiveName :=
  all.find? fun n => Text.sameLetters n.toString.toList word

end DirectiveName

/-! ## Directives -/

/-- A directive. -/
structure Directive where
  parts : List Token
deriving DecidableEq, Repr

namespace Directive

open Grammar Lexeme

/-- The value of a line: its text without the blanks at its end. -/
def lineValue (line : Text) : Text :=
  (line.reverse.dropWhile isBlank).reverse

/-- The blanks at the end of a line, as tokens. -/
def lineBlanks (line : Text) : List Token :=
  match (line.reverse.takeWhile isBlank).reverse with
  | [] => []
  | c :: cs => [.blank (c :: cs)]

/-- Whether a text can be the value of a directive. -/
def accepts (name : DirectiveName) (value : Text) : Bool :=
  name != .escape || value == ['\\'] || value == ['`']

/-- Reads the value of a directive to the end of the line.  It must not be empty. -/
def valueBody (name : DirectiveName) : Grammar := fun s =>
  let line := s.takeWhile fun c => !isLineBreak c
  match lineValue line with
  | [] => .stuck s
  | c :: cs =>
    if accepts name (c :: cs) then
      .ok (.node (.literal false) [.fragment (c :: cs)] :: lineBlanks line)
        (s.dropWhile fun c => !isLineBreak c)
    else .failed ⟨.malformed .escapeValue, s⟩

/-- Reads the name of a directive, the equals sign and the value. -/
def assignment : Grammar := fun s =>
  match DirectiveName.ofWord? (s.takeWhile isNameChar) with
  | none => .stuck s
  | some name =>
    (identifier isNameChar ++ optional blanks ++ symbol "=" ++ optional blanks ++ valueBody name) s

/-- Reads the parts of a directive. -/
def body : Grammar :=
  attempt (optional blanks ++ exactly .commentMark ['#'] ++ optional blanks ++ assignment
    ++ optional newline)

/-! ## Views -/

/-- The directive as it stands in the file. -/
def text (d : Directive) : Text :=
  Token.textAll d.parts

/-- The name as it is spelled. -/
def name (d : Directive) : Text :=
  (Children.firstLeaf? .identifier d.parts).getD []

/-- The literal of the value. -/
def literal? (d : Directive) : Option Literal :=
  Children.firstLiteral? d.parts

/-- The value. -/
def value (d : Directive) : Text :=
  (d.literal?.map Literal.value).getD []

/-- The escape character that the directive selects. -/
def escape? (d : Directive) : Option Char :=
  if Text.sameLetters d.name "escape".toList then d.value.head? else none

/-! ## From text and values -/

/-- The directive that a text is. -/
def parse (s : Text) : Except ParseError Directive :=
  ((body s).complete s).map mk

/-- The directive with a name and a value, on a line of its own. -/
def create (name value : Text) : Except Error Directive :=
  if (DirectiveName.ofWord? name).isNone then
    .error (.invalidArgument "name" (.notDirective name))
  else if value.trim.isEmpty || value.any isLineBreak then
    .error (.invalidArgument "value" .notOneLine)
  else
    match parse (['#', ' '] ++ name ++ ['='] ++ value ++ ['\n']) with
    | .ok d => .ok d
    | .error e => .error (.parse e)

/-- The directive with another value, in the same layout. -/
def setValue (d : Directive) (value : Text) : Except Error Directive := do
  let made ← create d.name value
  match made.literal? with
  | none => .error (.invalidArgument "value" .empty)
  | some l =>
    .ok ⟨Children.set (d.parts.findIdx? Token.isLiteral) (some l.token)
      Children.append Children.erase d.parts⟩

end Directive

/-! ## Blank lines -/

/-- One or more blank lines. -/
structure BlankLines where
  parts : List Token
deriving DecidableEq, Repr

namespace BlankLines

open Grammar Lexeme

/-- Reads blank lines, and blanks at the end of the text. -/
def body : Grammar :=
  nonempty (many blankLine ++ optional (blanks ++ when List.isEmpty))

/-- The blank lines as they stand in the file. -/
def text (b : BlankLines) : Text :=
  Token.textAll b.parts

/-- A number of empty lines. -/
def ofCount (n : Nat) : BlankLines :=
  ⟨List.replicate n (.newline ['\n'])⟩

/-- The number of line ends. -/
def lineCount (b : BlankLines) : Nat :=
  b.parts.countP (Token.isLeaf .newline)

end BlankLines

end Containerfile
