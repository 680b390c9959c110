import Containerfile.Literal.Scan
import Containerfile.Token.Edit

/-!
# Literals and references

The views of literal text and of references to variables, and how both are made from text.

## Main definitions

* `Literal` — literal text; `Literal.value` is what it says, without quotes and continuations.
* `Reference` — a reference to a variable, with its name, operator and word.
* `Literal.parse`, `Literal.create`, `Reference.parse`, `Reference.create` — from text.
-/

namespace Containerfile

/-- Literal text: fragments, references, quotes, and continuations with their comments. -/
structure Literal where
  /-- Whether a dollar sign can start a reference in it. -/
  references : Bool
  parts : List Token
deriving DecidableEq, Repr

/-- A reference to a variable. -/
structure Reference where
  parts : List Token
deriving DecidableEq, Repr

/-- The literal that a token is. -/
def Token.literal? : Token → Option Literal
  | .node (.literal references) ts => some ⟨references, ts⟩
  | _ => none

/-- The reference that a token is. -/
def Token.reference? : Token → Option Reference
  | .node .reference ts => some ⟨ts⟩
  | _ => none

/-- The first literal among tokens. -/
def Children.firstLiteral? (ts : List Token) : Option Literal :=
  ts.findSome? Token.literal?

namespace Literal

/-! ## Views -/

/-- The literal as a token. -/
def token (l : Literal) : Token :=
  .node (.literal l.references) l.parts

/-- The literal as it stands in the file. -/
def text (l : Literal) : Text :=
  Token.textAll l.parts

/-- What one part of a literal adds to its value: a fragment its text, a reference its own text, all
else nothing. -/
def partValue : Token → Text
  | .leaf .fragment s => s
  | .node .reference ts => Token.textAll ts
  | _ => []

/-- What the parts of a literal say. -/
def valueOf (ts : List Token) : Text :=
  ts.flatMap partValue

/-- What the literal says, without quotes, continuations and comments.  References stay as they
are written. -/
def value (l : Literal) : Text :=
  valueOf l.parts

/-- The quote that the literal starts with. -/
def quote? (l : Literal) : Option Char :=
  match l.parts with
  | .leaf .symbol [c] :: _ => if isQuote c then some c else none
  | _ => none

/-- Whether the literal has no part. -/
def isEmpty (l : Literal) : Bool :=
  l.parts.isEmpty

/-- The references directly in the literal. -/
def referenceList (l : Literal) : List Reference :=
  l.parts.filterMap Token.reference?

/-! ## From text -/

/-- The literal of a style that a text is. -/
def parseAs (style : Style) (escape : Char) (s : Text) : Except ParseError Literal :=
  ((body style escape s).complete s).map (mk style.references)

/-- The literal that a text on one line is. -/
def parse (s : Text) (escape : Char) (references : Bool) : Except ParseError Literal :=
  parseAs (Style.free.withReferences references) escape s

/-- The literal that a caller's value becomes in a place of a style; `name` is what the value is
called in a refusal. -/
def create (name : String) (value : Text) (escape : Char) (style : Style) :
    Except Error Literal :=
  if value.isEmpty && !style.allowsEmpty then .error (.invalidArgument name .empty)
  else
    match parseAs style escape value with
    | .ok l => .ok l
    | .error e => .error (.invalidArgument name (.malformed e.cause))

end Literal

namespace Reference

/-! ## References -/

/-- The reference as a token. -/
def token (r : Reference) : Token :=
  .node .reference r.parts

/-- The reference as it stands in the file. -/
def text (r : Reference) : Text :=
  Token.textAll r.parts

/-- The name of the variable. -/
def nameOf (ts : List Token) : Text :=
  (Children.firstLeaf? .identifier ts).getD []

/-- The name of the variable. -/
def name (r : Reference) : Text :=
  nameOf r.parts

/-- Whether braces enclose the reference. -/
def isBraced (r : Reference) : Bool :=
  r.parts.any fun t => t.leafText? .symbol == some ['{']

/-- The operator among the parts of a reference. -/
def modifierOf (ts : List Token) : Option Modifier :=
  (Children.firstLeaf? .operator ts).bind Modifier.ofText?

/-- The operator. -/
def modifier? (r : Reference) : Option Modifier :=
  modifierOf r.parts

/-- The word behind the operator. -/
def word? (r : Reference) : Option Literal :=
  Children.firstLiteral? r.parts

/-- The reference that a text is. -/
def parse (s : Text) (escape : Char) : Except ParseError Reference :=
  ((body escape s).complete s).map mk

/-- The written form of a braced reference. -/
def render (name : Text) : Option (Modifier × Text) → Text
  | none => ['$', '{'] ++ name ++ ['}']
  | some (m, word) => ['$', '{'] ++ name ++ m.operator ++ word ++ ['}']

/-- A braced reference with the given name, operator and word. -/
def create (name : Text) (modifier : Option (Modifier × Text)) (escape : Char) :
    Except Error Reference :=
  if name.isEmpty || !name.all isNameChar then
    .error (.invalidArgument "name" (.notVariableName name))
  else
    match parse (render name modifier) escape with
    | .ok r => .ok r
    | .error e => .error (.invalidArgument "word" (.malformed e.cause))

end Reference

/-- The operator that a text is, for a caller who names it by its text. -/
def Modifier.ofText (s : Text) : Except Error Modifier :=
  match ofText? s with
  | some m => .ok m
  | none => .error (.invalidArgument "modifier" (.notOperator s))

end Containerfile
