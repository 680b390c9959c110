import Containerfile.Text

/-!
# How literals end

Literal text stands in many places of a build file, and each place has its own rule on where the
text ends and what is special in it.  A `Style` is such a rule.

## Main definitions

* `Style` — the rule of a place.
* `Style.word`, `Style.value`, `Style.line`, `Style.modifierWord`, `Style.free`, `Style.element` —
  the rules that occur.
-/

namespace Containerfile

/-- Where a literal ends, and what is special in it. -/
structure Style where
  /-- A dollar sign can start a reference. -/
  references : Bool := true
  /-- A blank outside quotes ends the literal. -/
  blanksEnd : Bool := false
  /-- Quotes open runs in which blanks are text. -/
  quotes : Bool := false
  /-- A closing brace outside quotes ends the literal. -/
  braceEnds : Bool := false
  /-- The literal may have no text at all. -/
  allowsEmpty : Bool := false
  /-- Blanks before the end of the line are left out. -/
  trimsEnd : Bool := false
  /-- A backslash takes the next character with it, whichever the escape character is. -/
  jsonEscapes : Bool := false
  /-- The literal ends with the first quoted run. -/
  oneQuotedRun : Bool := false
deriving DecidableEq, Repr

namespace Style

/-- One word, which blanks end and in which runs can be quoted. -/
def word : Style where
  blanksEnd := true
  quotes := true

/-- The value behind a key: a word that may be empty. -/
def value : Style where
  blanksEnd := true
  quotes := true
  allowsEmpty := true

/-- The rest of the line without the blanks at its end. -/
def line : Style where
  trimsEnd := true

/-- The word of a reference, up to the brace that closes the reference. -/
def modifierWord : Style where
  braceEnds := true
  allowsEmpty := true

/-- Any text on one line. -/
def free : Style where
  allowsEmpty := true

/-- An element of an array: one quoted run. -/
def element : Style where
  blanksEnd := true
  quotes := true
  jsonEscapes := true
  oneQuotedRun := true

/-- The style in which a dollar sign is a character like any other, unless `references` holds. -/
def withReferences (style : Style) (references : Bool) : Style :=
  { style with references := references }

end Style

end Containerfile
