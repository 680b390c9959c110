import Containerfile.Literal

/-!
# Keys with values, and flags

A declaration `key=value`, a bare `key`, and a flag `--key` or `--key=value` have one shape: perhaps
two dashes, a name, and perhaps an equals sign and a literal, which may be empty.

## Main definitions

* `KeyValue` — the shape, with `KeyValue.key`, `KeyValue.value?` and `KeyValue.isFlag`.
* `KeyValue.pair`, `KeyValue.flag` — the readers.
* `KeyValue.create`, `KeyValue.setKey`, `KeyValue.setValue` — making and editing.
-/

namespace Containerfile

/-- A key with an optional value. -/
structure KeyValue where
  parts : List Token
deriving DecidableEq, Repr

/-- The key with its value that a token is. -/
def Token.keyValue? : Token → Option KeyValue
  | .node .keyValue ts => some ⟨ts⟩
  | _ => none

namespace KeyValue

/-! ## Readers -/

open Grammar in
/-- Reads an equals sign and a value. -/
def assignment (escape : Char) : Grammar :=
  symbol "=" ++ Literal.grammar .value escape

open Grammar in
/-- Reads a flag. -/
def flag (escape : Char) : Grammar :=
  node .keyValue
    (symbol "--" ++ run .identifier isFlagChar ++ optional (assignment escape))

open Grammar in
/-- Reads a key of the characters of a class, and its value if there is one. -/
def declaration (escape : Char) (isKey : Char → Bool) : Grammar :=
  node .keyValue (run .identifier isKey ++ optional (assignment escape))

open Grammar in
/-- Reads a key of the characters of a class, and its value. -/
def pair (escape : Char) (isKey : Char → Bool) : Grammar :=
  node .keyValue (run .identifier isKey ++ assignment escape)

/-! ## Views -/

/-- The key and value as a token. -/
def token (p : KeyValue) : Token :=
  .node .keyValue p.parts

/-- The key and value as they stand in the file. -/
def text (p : KeyValue) : Text :=
  Token.textAll p.parts

/-- Whether two dashes come first. -/
def isFlag (p : KeyValue) : Bool :=
  p.parts.head?.any fun t => t.leafText? .symbol == some ['-', '-']

/-- The key, without dashes. -/
def key (p : KeyValue) : Text :=
  (Children.firstLeaf? .identifier p.parts).getD []

/-- The literal of the value. -/
def literal? (p : KeyValue) : Option Literal :=
  Children.firstLiteral? p.parts

/-- What the value says. -/
def value? (p : KeyValue) : Option Text :=
  p.literal?.map Literal.value

/-! ## Making and editing -/

/-- Whether a text can be a key for a caller: not empty, without white space and equals signs. -/
def isKey (key : Text) : Bool :=
  !key.isEmpty && !key.any fun c => isSpace c || c == '='

/-- The parts of a value that is given, or none. -/
def valueParts (value : Option Text) (escape : Char) : Except Error (List Token) :=
  match value with
  | none => .ok []
  | some v => do
    let l ← Literal.create "value" v escape .value
    return [.symbol ['='], l.token]

/-- A key or, with `dashes`, a flag, and its value. -/
def build (dashes : List Token) (key : Text) (value : Option Text) (escape : Char) :
    Except Error KeyValue :=
  if isKey key then do
    let parts ← valueParts value escape
    return ⟨dashes ++ .identifier key :: parts⟩
  else .error (.invalidArgument "key" (.notKey key))

/-- A key and its value. -/
def create (key : Text) (value : Option Text) (escape : Char) : Except Error KeyValue :=
  build [] key value escape

/-- A flag and its value. -/
def createFlag (key : Text) (value : Option Text) (escape : Char) : Except Error KeyValue :=
  build [.symbol ['-', '-']] key value escape

/-- The value under another key. -/
def setKey (p : KeyValue) (key : Text) : Except Error KeyValue :=
  if isKey key then
    .ok ⟨Children.set (Children.indexOfLeaf? .identifier p.parts) (some (.identifier key))
      Children.append Children.erase p.parts⟩
  else .error (.invalidArgument "key" (.notKey key))

/-- Adds an equals sign and a value behind the other parts. -/
def appendValue (value : Token) (ts : List Token) : List Token :=
  ts ++ [.symbol ['='], value]

/-- Removes the value at an index, with the equals sign. -/
def removeValue (index : Nat) (ts : List Token) : List Token :=
  let equals := (ts.findIdx? fun t => t.leafText? .symbol == some ['=']).getD index
  Children.removeRange equals index ts

/-- The key with another literal for its value, or with none. -/
def setLiteral (p : KeyValue) (value : Option Literal) : KeyValue :=
  ⟨Children.set (p.parts.findIdx? Token.isLiteral) (value.map Literal.token)
    appendValue removeValue p.parts⟩

/-- The key with another value, or with none. -/
def setValue (p : KeyValue) (value : Option Text) (escape : Char) : Except Error KeyValue :=
  match value with
  | none => .ok (p.setLiteral none)
  | some v => do
    let l ← Literal.create "value" v escape .value
    return p.setLiteral (some l)

end KeyValue

end Containerfile
