import Containerfile.Text

/-!
# Lines and columns

A fault is found at a byte offset and shown as a line and a column, both counted from one.  Columns
count characters, and a line feed belongs to the line that it ends.

## Main definitions

* `Position` — a line and a column.
* `Position.ofOffset` — the position of a byte offset in a text.
-/

namespace Containerfile

/-- A line and a column, both counted from one. -/
structure Position where
  /-- The number of the line. -/
  line : Nat
  /-- The number of the character within its line. -/
  column : Nat
deriving DecidableEq, Repr

namespace Position

/-- The position right behind a text. -/
def behind (s : Text) : Position where
  line := s.count '\n' + 1
  column := (s.reverse.takeWhile (· != '\n')).length + 1

/-- The position of a byte offset.  An offset past the end, or one inside a character, has the
position of the end of the text. -/
def ofOffset (source : Text) (offset : Nat) : Position :=
  behind ((source.takeBytes? offset).getD source)

/-- The position in words. -/
def describe (p : Position) : String :=
  s!"line {p.line}, column {p.column}"

end Position

end Containerfile
