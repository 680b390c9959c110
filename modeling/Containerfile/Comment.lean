import Containerfile.Lexeme
import Containerfile.Token.Edit

/-!
# Comments and line continuations

A comment is a line of its own, either between the instructions of a file or within one, behind a
line continuation.

## Main definitions

* `Comment` — a comment line, with `Comment.parse`, `Comment.ofText` and `Comment.text`.
* `Token.comments` — the comments within a list of tokens.
* `Continuation.ofEscape`, `Continuation.escape` — a line continuation and its escape character.
-/

namespace Containerfile

/-- A comment line. -/
structure Comment where
  parts : List Token
deriving DecidableEq, Repr

namespace Comment

/-- The comment as a token. -/
def token (c : Comment) : Token :=
  .node .comment c.parts

/-- The line as it stands in the file. -/
def source (c : Comment) : Text :=
  Token.textAll c.parts

/-- The comment that a text is. -/
def parse (s : Text) : Except ParseError Comment :=
  ((Lexeme.commentBody s).complete s).map mk

/-- A comment line with the first line of a text.  A text that is empty gives a comment without
any. -/
def ofText (s : Text) : Comment where
  parts :=
    let content := if s.isEmpty then [] else [.fragment (' ' :: s.firstLine)]
    .leaf .commentMark ['#'] :: content ++ [.newline ['\n']]

/-- What the comment says, without the white space around it. -/
def text (c : Comment) : Text :=
  ((Children.firstLeaf? .fragment c.parts).map Text.trim).getD []

end Comment

/-- The comment that a token is. -/
def Token.comment? : Token → Option Comment
  | .node .comment ts => some ⟨ts⟩
  | _ => none

/-- The comments anywhere within a list of tokens, in the order of the text. -/
def Token.comments (ts : List Token) : List Comment :=
  (descendants ts).filterMap comment?

namespace Continuation

/-- A line continuation without blanks. -/
def ofEscape (escape : Char) : Token :=
  .node .continuation [.symbol [escape], .newline ['\n']]

/-- The escape character that a line continuation with these parts starts with. -/
def escape : List Token → Char
  | .leaf .symbol (c :: _) :: _ => c
  | _ => '\\'

end Continuation

end Containerfile
