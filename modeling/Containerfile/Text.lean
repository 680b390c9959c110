/-!
# Text as a list of characters

Everything in this library reads, holds and writes `Text`, the list of the characters of a piece
of a build file.  Lists are what the readers recurse on, so a reader and the statement about it
speak of the same thing; strings appear only in messages and at the outer edge.

Sizes and offsets that a user sees are counted in bytes of the UTF-8 form, columns in characters.

## Main definitions

* `Text` — the list of characters, with its size in bytes, case-blind comparison and trimming.
* `isBlank`, `isNameChar`, … — the character classes of the grammar.
* `isSpace` — the White_Space property, all planes.
* `Text.atLineEnd` — whether nothing, or a line end, comes next.
-/

namespace Containerfile

/-- A piece of text, as the list of its characters. -/
abbrev Text := List Char

/-! ## Character classes -/

/-- Spaces and tabs: the only characters that separate arguments within a line. -/
def isBlank (c : Char) : Bool :=
  c == ' ' || c == '\t'

/-- The characters of variable names and keywords: ASCII letters, digits and the underscore. -/
def isNameChar (c : Char) : Bool :=
  c.isAlphanum || c == '_'

/-- The characters of stage names and of declared argument names. -/
def isStageChar (c : Char) : Bool :=
  c.isAlphanum || c == '_' || c == '-' || c == '.'

/-- The characters of a flag's name. -/
def isFlagChar (c : Char) : Bool :=
  c.isAlphanum || c == '-'

/-- The line ending characters; each of them ends a comment's text. -/
def isLineBreak (c : Char) : Bool :=
  c == '\r' || c == '\n'

/-- The two quotes. -/
def isQuote (c : Char) : Bool :=
  c == '"' || c == '\''

/-- The White_Space property: the six ASCII members, then the members beyond ASCII.  The four
separators U+001C to U+001F and the zero width space are not among them. -/
def isSpace (c : Char) : Bool :=
  let n := c.toNat
  (9 ≤ n && n ≤ 13) || n == 0x20 || n == 0x85 || n == 0xA0 || n == 0x1680 ||
    (0x2000 ≤ n && n ≤ 0x200A) || n == 0x2028 || n == 0x2029 || n == 0x202F || n == 0x205F ||
    n == 0x3000

/-- The characters of a label's key: no white space, and nothing that quotes, escapes, refers or
separates the key from its value. -/
def isKeyChar (c : Char) : Bool :=
  !isSpace c && !(c == '=' || c == '"' || c == '\'' || c == '\\' || c == '`' || c == '$')

/-! ## Operations on text -/

namespace Text

/-- The size of a text in bytes of its UTF-8 form. -/
def byteSize : Text → Nat
  | [] => 0
  | c :: cs => c.utf8Size + byteSize cs

/-- The first `n` bytes of a text, if they are whole characters. -/
def takeBytes? : Nat → Text → Option Text
  | 0, _ => some []
  | _ + 1, [] => none
  | n, c :: cs =>
    if c.utf8Size ≤ n then (takeBytes? (n - c.utf8Size) cs).map (c :: ·) else none

/-- What follows the first `n` bytes of a text, if they are whole characters. -/
def dropBytes? (n : Nat) (s : Text) : Option Text :=
  (takeBytes? n s).map fun t => s.drop t.length

/-- The text with every ASCII letter in upper case. -/
def upper (s : Text) : Text :=
  s.map Char.toUpper

/-- Equality that takes no notice of the case of ASCII letters. -/
def sameLetters (s t : Text) : Bool :=
  s.map Char.toLower == t.map Char.toLower

/-- The text without the white space before its first other character. -/
def trimStart (s : Text) : Text :=
  s.dropWhile isSpace

/-- The text without the white space at either end. -/
def trim (s : Text) : Text :=
  (trimStart (trimStart s).reverse).reverse

/-- Whether the text starts with `start`; if so, what follows it. -/
def after? : Text → Text → Option Text
  | [], s => some s
  | _ :: _, [] => none
  | c :: cs, d :: ds => if c = d then after? cs ds else none

/-- Whether nothing is left of the line: the text is at its end or at a line feed, alone or with a
carriage return before it. -/
def atLineEnd : Text → Bool
  | [] => true
  | '\n' :: _ => true
  | '\r' :: '\n' :: _ => true
  | _ => false

/-- The first line of a text, without its line end.  A carriage return belongs to the line end only
if a line feed follows it. -/
def firstLine : Text → Text
  | [] => []
  | c :: cs => if atLineEnd (c :: cs) then [] else c :: firstLine cs

/-- The parts of a text between the occurrences of a separator, joined by it again. -/
def join (separator : Text) : List Text → Text
  | [] => []
  | [s] => s
  | s :: ss => s ++ separator ++ join separator ss

/-- The offset, in bytes, at which `rest` starts when it is what remains of `source`. -/
def offsetOf (source rest : Text) : Nat :=
  byteSize source - byteSize rest

end Text

end Containerfile
