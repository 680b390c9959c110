import Containerfile.Comment
import Containerfile.ExecForm
import Containerfile.Instruction.Keyword
import Containerfile.KeyValue

/-!
# Instructions

An instruction is a list of tokens: indentation, its keyword, its arguments with what separates
them, and the line end, which only the last line of a file can lack.  Beside the tokens it holds its
form and the escape character that it was read with.

Edits that add an argument put one space before it.  An argument that is removed takes with it all
that separates it from what stands before, so that no line continuation is left without a line to
continue.

## Main definitions

* `Instruction` — an instruction, with `Instruction.keyword` and `Instruction.name`.
* `Children.appendArgument`, `Children.insertFlag`, `Children.removeArgument`, … — edits that the
  forms share.
* `Instruction.flags`, `Instruction.flag?` — the flags.
-/

namespace Containerfile

/-- An instruction. -/
structure Instruction where
  form : Form
  /-- The escape character that the instruction was read with. -/
  escape : Char
  parts : List Token
deriving DecidableEq, Repr

/-- The instruction that a token is. -/
def Token.instruction? : Token → Option Instruction
  | .node (.instruction form escape) ts => some ⟨form, escape, ts⟩
  | _ => none

/-! ## Places within an instruction -/

namespace Children

/-- The index of the keyword; zero if there is none. -/
def keywordIndex (ts : List Token) : Nat :=
  (indexOfLeaf? .keyword ts).getD 0

/-- The index behind the last argument. -/
def contentEnd (ts : List Token) : Nat :=
  afterLast (fun t => !t.isTrivia) ts

/-- Whether a token is a flag. -/
def isFlag (t : Token) : Bool :=
  t.keyValue?.any KeyValue.isFlag

/-- The index behind the last flag, or behind the keyword. -/
def flagsEnd (ts : List Token) : Nat :=
  match afterLast isFlag ts with
  | 0 => keywordIndex ts + 1
  | n + 1 => n + 1

/-- The index of the flag with a name, in any case. -/
def flagIndex? (name : Text) (ts : List Token) : Option Nat :=
  ts.findIdx? fun t => t.keyValue?.any fun p => p.isFlag && Text.sameLetters p.key name

/-- The index of the first key with this name. -/
def keyIndex? (key : Text) (ts : List Token) : Option Nat :=
  ts.findIdx? fun t => t.keyValue?.any fun p => p.key == key

/-! ## Edits -/

/-- Adds a first argument. -/
def insertAfterKeyword (t : Token) (ts : List Token) : List Token :=
  insertAt (keywordIndex ts + 1) [.blank [' '], t] ts

/-- Adds a last argument. -/
def appendArgument (t : Token) (ts : List Token) : List Token :=
  insertAt (contentEnd ts) [.blank [' '], t] ts

/-- Adds a last flag. -/
def insertFlag (t : Token) (ts : List Token) : List Token :=
  insertAt (flagsEnd ts) [.blank [' '], t] ts

/-- Removes the argument at an index, with all that separates it from the argument before it or
from the keyword. -/
def removeArgument (index : Nat) (ts : List Token) : List Token :=
  removeBetween (contentEnd (ts.take index)) index ts

end Children

/-! ## Views -/

namespace Instruction

/-- The instruction as a token. -/
def token (i : Instruction) : Token :=
  .node (.instruction i.form i.escape) i.parts

/-- The instruction as it stands in the file. -/
def text (i : Instruction) : Text :=
  Token.textAll i.parts

/-- The keyword as it is spelled. -/
def keyword (i : Instruction) : Text :=
  (Children.firstLeaf? .keyword i.parts).getD []

/-- The keyword in upper case. -/
def name (i : Instruction) : Text :=
  i.keyword.upper

/-- The keys with their values among the arguments, flags included. -/
def keyValues (i : Instruction) : List KeyValue :=
  i.parts.filterMap Token.keyValue?

/-- The flags. -/
def flags (i : Instruction) : List KeyValue :=
  i.keyValues.filter KeyValue.isFlag

/-- The flag with a name, in any case. -/
def flag? (i : Instruction) (name : Text) : Option KeyValue :=
  i.flags.find? fun p => Text.sameLetters p.key name

/-- The array among the arguments. -/
def execForm? (i : Instruction) : Option ExecForm :=
  i.parts.findSome? Token.execForm?

/-- The first literal among the arguments. -/
def literal? (i : Instruction) : Option Literal :=
  Children.firstLiteral? i.parts

/-- The instruction with other parts. -/
def withParts (i : Instruction) (parts : List Token) : Instruction :=
  { i with parts := parts }

/-- The instruction with one part replaced, added or removed. -/
def setPart (i : Instruction) (current : Option Nat) (replacement : Option Token)
    (add : Token → List Token → List Token) (remove : Nat → List Token → List Token) :
    Instruction :=
  i.withParts (Children.set current replacement add remove i.parts)

end Instruction

end Containerfile
