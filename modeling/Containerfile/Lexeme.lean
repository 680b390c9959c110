import Containerfile.Reader

/-!
# Blanks, line ends and keywords

The pieces that every construct is made of.  A line continuation, the escape character before a
line end, joins the next line to its own; comment lines and empty lines that follow it belong to
the continuation, so an instruction can be commented line by line.

## Main definitions

* `Lexeme.blanks`, `Lexeme.newline`, `Lexeme.commentLine`, `Lexeme.blankLine` — within and between
  lines.
* `Lexeme.continuation`, `Lexeme.separator` — what stands between two arguments.
* `Lexeme.argument`, `Lexeme.required` — a separator and an argument, if there is one or by force.
* `Lexeme.keyword`, `Lexeme.start`, `Lexeme.finish` — the two ends of an instruction.
-/

namespace Containerfile

namespace Lexeme

open Grammar

/-! ## Within a line -/

/-- One or more blanks. -/
def blanks : Grammar :=
  run .blank isBlank

/-- A line feed, with the carriage return before it if there is one. -/
def newline : Grammar :=
  either (exactly .newline ['\r', '\n']) (exactly .newline ['\n'])

/-- Any text up to the next carriage return or line feed; none is fine. -/
def lineText : Grammar :=
  optional (run .fragment fun c => !isLineBreak c)

/-! ## Lines -/

/-- The parts of a comment line: indentation, the number sign, the text, and the line end unless
the text is at its end. -/
def commentBody : Grammar :=
  optional blanks ++ exactly .commentMark ['#'] ++ lineText ++ optional newline

/-- A comment line. -/
def commentLine : Grammar :=
  node .comment commentBody

/-- A line with nothing but blanks. -/
def blankLine : Grammar :=
  optional blanks ++ newline

/-! ## Separators -/

/-- The escape character at the end of a line, with the line end.  Blanks may stand between. -/
def lineContinuation (escape : Char) : Grammar :=
  node .continuation (exactly .symbol [escape] ++ optional blanks ++ newline)

/-- A line continuation with the comment lines and blank lines that follow it. -/
def continuation (escape : Char) : Grammar :=
  lineContinuation escape ++ many (either commentLine blankLine)

/-- Blanks and continuations, at least one of them. -/
def separator (escape : Char) : Grammar :=
  nonempty (many (either blanks (continuation escape)))

/-- A separator and then what `g` reads, or nothing at all. -/
def argument (escape : Char) (g : Grammar) : Grammar :=
  attempt (separator escape ++ g)

/-- A separator and then what `g` reads; both must be there. -/
def required (escape : Char) (what : String) (g : Grammar) : Grammar :=
  commit what (separator escape) ++ commit what g

/-! ## The ends of an instruction -/

/-- The end of the text, or a line end, which is read. -/
def lineEnd : Grammar :=
  either (when List.isEmpty) newline

/-- What ends an instruction: separators, and then the end of its line or of the text. -/
def finish (escape : Char) : Grammar :=
  optional (separator escape) ++ commit "end of line" lineEnd

/-- Whether only separators are left of the line. -/
def atFinish (escape : Char) (s : Text) : Bool :=
  match optional (separator escape) s with
  | .ok _ r => r.atLineEnd
  | _ => false

/-- A keyword in any case, as it is spelled, unless it is only the start of a longer word. -/
def keyword (name : Text) : Grammar := fun s =>
  let word := s.take name.length
  let rest := s.drop name.length
  if Text.sameLetters word name && !(rest.head?.any isNameChar) then
    .ok [.leaf .keyword word] rest
  else .stuck s

/-- Indentation and a keyword. -/
def start (name : Text) : Grammar :=
  optional blanks ++ keyword name

/-- A name made of the characters of a class. -/
def identifier (p : Char → Bool) : Grammar :=
  run .identifier p

/-! ## Progress -/

theorem advances_blanks : Advances blanks :=
  advances_run _ _

theorem advances_newline : Advances newline :=
  (advances_exactly _ (by simp)).either (advances_exactly _ (by simp))

theorem advances_blankLine : Advances blankLine :=
  (advances_blanks.shrinks.optional).seq_advances advances_newline

theorem advances_commentLine : Advances commentLine := by
  refine Advances.node _ ?_
  refine Advances.seq ?_ (advances_newline.shrinks.optional)
  refine Advances.seq ?_ ((advances_run _ _).shrinks.optional)
  exact (advances_blanks.shrinks.optional).seq_advances (advances_exactly _ (by simp))

theorem advances_lineContinuation (escape : Char) : Advances (lineContinuation escape) := by
  refine Advances.node _ ?_
  refine Advances.seq ?_ advances_newline.shrinks
  exact (advances_exactly _ (by simp)).seq (advances_blanks.shrinks.optional)

/-- A continuation is never empty. -/
theorem advances_continuation (escape : Char) : Advances (continuation escape) :=
  (advances_lineContinuation escape).seq
    (advances_commentLine.either advances_blankLine).shrinks.many

end Lexeme

end Containerfile
