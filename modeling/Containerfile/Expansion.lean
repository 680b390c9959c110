import Containerfile.Bindings
import Containerfile.Instruction.Grammar

/-!
# Expanding references

Resolution replaces each reference by a fragment with its value.  The word of a reference is
expanded first, but only where the value depends on it, so a word that is not used cannot fail.
Values are inserted as they are and not looked at again.

A variable that is declared without a value is unset.  For one that is not declared at all there are
two policies: it is unset too, or its reference stays as it is written.

## Main definitions

* `Expansion` — the variables and the policies.
* `Expansion.substitute`, `Expansion.substituteAll` — tokens with their references replaced.
* `Resolution`, `Resolution.settle` — what a resolution answers and does to its target.
* `Literal.resolve`, `Instruction.resolve`, `resolveText` — resolution of texts and constructs.
-/

namespace Containerfile

/-- What becomes of a reference to a name that is not declared. -/
inductive Undeclared where
  /-- The name counts as unset. -/
  | empty
  /-- The reference stays as it is written. -/
  | keep
deriving DecidableEq, Repr

/-- The variables to be inserted, and how. -/
structure Expansion where
  /-- The escape character of the text. -/
  escape : Char
  bindings : Bindings
  undeclared : Undeclared := .empty
  /-- Whether escape characters are dropped from literal text. -/
  removeEscapes : Bool := false
deriving DecidableEq, Repr

namespace Expansion

/-! ## One reference -/

/-- The text with each escape character dropped and the character behind it kept.  An escape
character with nothing behind it is kept. -/
def dropEscapes (escape : Char) : Text → Text
  | [] => []
  | [c] => [c]
  | c :: d :: s =>
    if c = escape then d :: dropEscapes escape s else c :: dropEscapes escape (d :: s)

/-- What is said of a variable that must be set: the word, or a sentence in its place. -/
def unsetMessage (name word : Text) : Text :=
  if word.isEmpty then name ++ ": parameter null or not set".toList else word

/-- The value of a reference with an operator, given the value of its variable and what its word
expands to. -/
def applyModifier (name : Text) (m : Modifier) (value : Option Text)
    (word : Except Error Text) : Except Error Text :=
  match m, value.filter fun v => !(m.emptyIsUnset && v.isEmpty) with
  | .defaultIfUnset, some v | .defaultIfUnsetOrEmpty, some v => .ok v
  | .defaultIfUnset, none | .defaultIfUnsetOrEmpty, none => word
  | .alternateIfSet, some _ | .alternateIfSetAndNonempty, some _ => word
  | .alternateIfSet, none | .alternateIfSetAndNonempty, none => .ok []
  | .errorIfUnset, some v | .errorIfUnsetOrEmpty, some v => .ok v
  | .errorIfUnset, none | .errorIfUnsetOrEmpty, none =>
    word.bind fun w => .error (.variableUnset name (unsetMessage name w))

/-- The value of the reference with the given parts, given what its word expands to. -/
def expand (x : Expansion) (parts : List Token) (word : Except Error Text) : Except Error Text :=
  let name := Reference.nameOf parts
  match x.bindings.find? name, x.undeclared with
  | none, .keep => .ok (Token.textAll parts)
  | found, _ =>
    match Reference.modifierOf parts with
    | none => .ok (found.join.getD [])
    | some m => applyModifier name m found.join word

/-- The text of a fragment, without escape characters if these are dropped. -/
def fragmentText (x : Expansion) (s : Text) : Text :=
  if x.removeEscapes then dropEscapes x.escape s else s

/-! ## Trees -/

mutual

/-- The parts of a literal with its references replaced. -/
def substituteParts (x : Expansion) : List Token → Except Error (List Token)
  | [] => .ok []
  | t :: ts => do
    let u ← substitutePart x t
    let us ← substituteParts x ts
    return u :: us

/-- One part of a literal: a reference is replaced by its value, a fragment may lose its escape
characters. -/
def substitutePart (x : Expansion) : Token → Except Error Token
  | .node .reference parts => (x.expand parts (expandWord x parts)).map Token.fragment
  | .leaf .fragment s => .ok (.fragment (x.fragmentText s))
  | t => .ok t

/-- What the word among the parts of a reference expands to. -/
def expandWord (x : Expansion) : List Token → Except Error Text
  | [] => .ok []
  | .node (.literal true) ts :: _ => (substituteParts x ts).map Literal.valueOf
  | .node (.literal false) ts :: _ => .ok (Literal.valueOf ts)
  | _ :: ts => expandWord x ts

end

/-- The parts of a literal after expansion; a literal without references is left alone. -/
def substituteLiteral (x : Expansion) (references : Bool) (parts : List Token) :
    Except Error (List Token) :=
  if references then x.substituteParts parts else .ok parts

mutual

/-- A token with the references in it replaced.  An instruction within an instruction is deferred
and left alone. -/
def substitute (x : Expansion) : Token → Except Error Token
  | .node .reference parts => (x.expand parts (x.expandWord parts)).map Token.fragment
  | .node (.literal references) parts =>
    (x.substituteLiteral references parts).map (Token.node (.literal references))
  | .node .keyValue parts => (substituteAll x parts).map (Token.node .keyValue)
  | .node .execForm parts => (substituteAll x parts).map (Token.node .execForm)
  | t => .ok t

/-- Tokens with the references in them replaced. -/
def substituteAll (x : Expansion) : List Token → Except Error (List Token)
  | [] => .ok []
  | t :: ts => do
    let u ← substitute x t
    let us ← substituteAll x ts
    return u :: us

end

end Expansion

/-! ## Resolution -/

/-- How a construct is resolved. -/
structure ResolutionOptions where
  /-- The resolved construct takes the place of the given one. -/
  inline : Bool := false
  /-- Escape characters are dropped from literal text. -/
  removeEscapes : Bool := false
deriving DecidableEq, Repr

/-- What a resolution answers, and its target afterwards. -/
structure Resolution (α : Type) where
  answer : Except Error Text
  target : α

/-- A resolution answers the text of the resolved construct, or the error.  Only if it succeeds, and
works in place, is its target another one afterwards. -/
def Resolution.settle {α : Type} (options : ResolutionOptions) (text : α → Text) (target : α) :
    Except Error α → Resolution α
  | .ok resolved => ⟨.ok (text resolved), if options.inline then resolved else target⟩
  | .error e => ⟨.error e, target⟩

namespace Literal

/-- The literal with its references replaced. -/
def expand (x : Expansion) (l : Literal) : Except Error Literal :=
  (x.substituteLiteral l.references l.parts).map (mk l.references)

/-- Resolves a literal. -/
def resolve (l : Literal) (escape : Char) (bindings : Bindings) (options : ResolutionOptions) :
    Resolution Literal :=
  .settle options text l
    (l.expand { escape, bindings, removeEscapes := options.removeEscapes })

end Literal

namespace Instruction

/-- The instruction with its references replaced. -/
def expand (x : Expansion) (i : Instruction) : Except Error Instruction :=
  (x.substituteAll i.parts).map i.withParts

/-- Resolves an instruction by itself. -/
def resolve (i : Instruction) (bindings : Bindings) (options : ResolutionOptions) :
    Resolution Instruction :=
  .settle options text i
    (i.expand { escape := i.escape, bindings, removeEscapes := options.removeEscapes })

/-- The text of an instruction in which the declared variables are replaced and other references
are kept. -/
def resolveDeclared (i : Instruction) (bindings : Bindings) : Except Error Text :=
  (i.expand { escape := i.escape, bindings, undeclared := .keep }).map text

end Instruction

/-- The text with its references replaced. -/
def resolveText (s : Text) (bindings : Bindings) (escape : Char) : Except Error Text :=
  match Literal.parse s escape true with
  | .error e => .error (.parse e)
  | .ok l => (l.resolve escape bindings {}).answer

end Containerfile
