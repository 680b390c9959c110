import Containerfile.Literal

/-!
# Arrays of strings

The exec form of a command is an array of double-quoted strings, as in `["echo", "hi"]`.  A
backslash in a string takes the next character with it; `\n` and `\t` stand for a line feed and a
tab.

A text that looks like an array and is not well formed is no array at all, and no error: the callers
then read it as ordinary text.

## Main definitions

* `ExecForm` — an array, with `ExecForm.elements` and `ExecForm.values`.
* `ExecForm.encode`, `ExecForm.decode` — a string and how it stands between the quotes.
* `ExecForm.body`, `ExecForm.create` — from text and from strings.
-/

namespace Containerfile

/-- An array of quoted strings. -/
structure ExecForm where
  parts : List Token
deriving DecidableEq, Repr

/-- The array that a token is. -/
def Token.execForm? : Token → Option ExecForm
  | .node .execForm ts => some ⟨ts⟩
  | _ => none

namespace ExecForm

/-! ## Readers -/

open Grammar in
/-- Reads one element and the separators behind it. -/
def element (escape : Char) (references : Bool) : Grammar :=
  when (fun s => s.head? == some '"')
    ++ Literal.grammar (Style.element.withReferences references) escape
    ++ optional (Lexeme.separator escape)

open Grammar in
/-- Reads a comma and the element behind it. -/
def nextElement (escape : Char) (references : Bool) : Grammar :=
  symbol "," ++ optional (Lexeme.separator escape) ++ element escape references

open Grammar in
/-- Reads the parts of an array. -/
def body (escape : Char) (references : Bool) : Grammar :=
  tentative
    (symbol "[" ++ optional (Lexeme.separator escape)
      ++ either (symbol "]")
        (element escape references ++ many (nextElement escape references) ++ symbol "]"))

/-- Reads an array. -/
def grammar (escape : Char) (references : Bool) : Grammar :=
  .node .execForm (body escape references)

/-! ## Strings between quotes -/

/-- A string as it is written between the quotes: a backslash before each backslash and each
quote. -/
def encode : Text → Text
  | [] => []
  | c :: s => if c = '\\' || c = '"' then '\\' :: c :: encode s else c :: encode s

/-- The character that a backslash and this character stand for. -/
def unescape : Char → Char
  | 'n' => '\n'
  | 't' => '\t'
  | c => c

/-- The string that is written between the quotes.  A backslash with nothing behind it is itself. -/
def decode : Text → Text
  | [] => []
  | [c] => [c]
  | c :: d :: s => if c = '\\' then unescape d :: decode s else c :: decode (d :: s)

/-! ## Views -/

/-- The array as a token. -/
def token (e : ExecForm) : Token :=
  .node .execForm e.parts

/-- The array as it stands in the file. -/
def text (e : ExecForm) : Text :=
  Token.textAll e.parts

/-- The literals of the elements. -/
def elements (e : ExecForm) : List Literal :=
  e.parts.filterMap Token.literal?

/-- The strings. -/
def values (e : ExecForm) : List Text :=
  e.elements.map fun l => decode l.value

/-! ## From strings -/

/-- The written form of an array of strings. -/
def render (values : List Text) : Text :=
  ['['] ++ Text.join [',', ' '] (values.map fun v => ['"'] ++ encode v ++ ['"']) ++ [']']

/-- The array of the given strings. -/
def create (values : List Text) (escape : Char) (references : Bool) : Except Error ExecForm :=
  match (body escape references (render values)).complete (render values) with
  | .ok ts => .ok ⟨ts⟩
  | .error e => .error (.invalidArgument "values" (.malformed e.cause))

end ExecForm

end Containerfile
