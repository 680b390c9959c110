import Containerfile.Lexeme
import Containerfile.Literal.Style
import Containerfile.Reference.Head

/-!
# Reading literals

Literal text is read one step at a time.  A step looks at the next character, in the light of the
style, the escape character and the quote that is open, and takes a few characters or ends the
literal.  What the steps take are `Piece`s; blanks are kept apart from other text until the end of
the literal is known, because a style can leave out the blanks there.  At last the pieces are joined
to tokens, neighbouring texts to one fragment.

The word of a reference is literal text too, so reading a literal and reading a reference are one
recursion, on the length of the text.

## Main definitions

* `Literal.Piece`, `Literal.assemble`, `Literal.trimEnd` — what steps take, and what becomes of it.
* `Literal.step` — one step.
* `Literal.scan` — all steps of a literal.
* `Literal.body`, `Reference.body` — the readers; `grammar` makes a node of what they read.
-/

namespace Containerfile

namespace Literal

/-! ## Pieces -/

/-- What one step of reading takes. -/
inductive Piece where
  /-- Characters of the text; one that is escaped comes with its escape. -/
  | text (chars : Text)
  /-- A blank outside quotes that is not escaped. -/
  | blank (char : Char)
  /-- A quote, a reference, or a part of a continuation. -/
  | token (token : Token)
deriving DecidableEq, Repr

/-- Puts text in front of tokens, as part of the first one if that is a fragment. -/
def prependText (s : Text) : List Token → List Token
  | .leaf .fragment t :: ts => .fragment (s ++ t) :: ts
  | ts => .fragment s :: ts

/-- The tokens of a literal: neighbouring texts become one fragment. -/
def assemble : List Piece → List Token
  | [] => []
  | .text s :: ps => prependText s (assemble ps)
  | .blank c :: ps => prependText [c] (assemble ps)
  | .token t :: ps => t :: assemble ps

/-- The pieces without the blanks at their end, and these blanks. -/
def trimEnd : List Piece → List Piece × Text
  | [] => ([], [])
  | p :: ps =>
    match p, trimEnd ps with
    | .blank c, ([], blanks) => ([], c :: blanks)
    | p, (kept, blanks) => (p :: kept, blanks)

/-! ## Steps -/

/-- An open quote: which of the two it is, and the text from it on. -/
structure Quote where
  mark : Char
  rest : Text
deriving DecidableEq, Repr

/-- What a step does. -/
inductive Step where
  /-- The literal ends before the next character. -/
  | stop
  /-- It takes pieces, after which `quote` is open and `rest` remains. -/
  | take (pieces : List Piece) (quote : Option Quote) (rest : Text)
  /-- It takes pieces that are the last ones. -/
  | last (pieces : List Piece) (rest : Text)
  /-- It meets a reference with a word, which begins with `rest`. -/
  | reference (name : Text) (modifier : Modifier) (rest : Text)
  /-- It meets a malformed reference. -/
  | malformed (problem : Problem)
deriving DecidableEq, Repr

/-- Takes an escaping character with the character behind it, unless the line ends there. -/
def stepEscaped (quote : Option Quote) (c : Char) : Text → Step
  | [] => .take [.text [c]] quote []
  | d :: s =>
    if Text.atLineEnd (d :: s) then .take [.text [c]] quote (d :: s)
    else .take [.text [c, d]] quote s

/-- Takes a continuation that starts with the escape character, or else that character with the
next. -/
def stepEscape (quote : Option Quote) (escape : Char) (s : Text) : Step :=
  match Lexeme.continuation escape (escape :: s) with
  | .ok ts r => .take (ts.map .token) quote r
  | _ => stepEscaped quote escape s

/-- Takes a dollar sign: alone, or with the name of the reference that it starts. -/
def stepDollar (quote : Option Quote) (s : Text) : Step :=
  match Reference.head ('$' :: s) with
  | .absent _ => .take [.text ['$']] quote s
  | .whole parts r => .take [.token (.node .reference parts)] quote r
  | .modified name m r => .reference name m r
  | .malformed problem => .malformed problem

/-- Takes a character that is neither an escape, a quote nor an end.  Single quotes keep a dollar
sign from starting a reference. -/
def stepChar (style : Style) (quote : Option Quote) (c : Char) (s : Text) : Step :=
  if c = '$' && style.references && !(quote.any (·.mark = '\'')) then stepDollar quote s
  else .take [.text [c]] quote s

/-- A step inside quotes. -/
def stepQuoted (style : Style) (quote : Quote) (c : Char) (s : Text) : Step :=
  if c = quote.mark then
    if style.oneQuotedRun then .last [.token (.symbol [c])] s
    else .take [.token (.symbol [c])] none s
  else stepChar style (some quote) c s

/-- A step outside quotes. -/
def stepUnquoted (style : Style) (c : Char) (s : Text) : Step :=
  if style.quotes && isQuote c then .take [.token (.symbol [c])] (some ⟨c, c :: s⟩) s
  else if style.braceEnds && c = '}' then .stop
  else if isBlank c then
    if style.blanksEnd then .stop else .take [.blank c] none s
  else stepChar style none c s

/-- One step of reading a literal.  The escape character comes before all else, then the end of the
line. -/
def step (style : Style) (escape : Char) (quote : Option Quote) : Text → Step
  | [] => .stop
  | c :: s =>
    if c = escape then stepEscape quote escape s
    else if Text.atLineEnd (c :: s) then .stop
    else if style.jsonEscapes && c = '\\' then stepEscaped quote c s
    else
      match quote with
      | some q => stepQuoted style q c s
      | none => stepUnquoted style c s

/-! ## Progress of steps -/

theorem length_le_of_stepEscaped {quote q : Option Quote} {c : Char} {s r : Text}
    {ps : List Piece} (h : stepEscaped quote c s = .take ps q r) : r.length ≤ s.length := by
  unfold stepEscaped at h
  split at h
  · cases h
    exact Nat.le_refl _
  · split at h <;> cases h <;> simp

theorem length_le_of_stepDollar {quote q : Option Quote} {s r : Text} {ps : List Piece}
    (h : stepDollar quote s = .take ps q r) : r.length ≤ s.length := by
  unfold stepDollar at h
  split at h
  · cases h
    exact Nat.le_refl _
  · rename_i hh
    cases h
    have := Reference.length_lt_of_head_whole hh
    simp only [List.length_cons] at this
    omega
  · cases h
  · cases h

theorem length_le_of_stepChar {style : Style} {quote q : Option Quote} {c : Char} {s r : Text}
    {ps : List Piece} (h : stepChar style quote c s = .take ps q r) : r.length ≤ s.length := by
  unfold stepChar at h
  split at h
  · exact length_le_of_stepDollar h
  · cases h
    exact Nat.le_refl _

/-- A step that takes pieces takes at least one character. -/
theorem length_lt_of_step_take {style : Style} {escape : Char} {quote q : Option Quote}
    {s r : Text} {ps : List Piece} (h : step style escape quote s = .take ps q r) :
    r.length < s.length := by
  unfold step at h
  split at h
  · cases h
  · rename_i c s
    suffices r.length ≤ s.length by simp only [List.length_cons]; omega
    split at h
    · subst_vars
      unfold stepEscape at h
      split at h
      · rename_i hc
        cases h
        have := Lexeme.advances_continuation _ _ _ _ hc
        simp only [List.length_cons] at this
        omega
      · exact length_le_of_stepEscaped h
    · split at h
      · cases h
      · split at h
        · exact length_le_of_stepEscaped h
        · split at h
          · unfold stepQuoted at h
            split at h
            · split at h
              · cases h
              · cases h
                exact Nat.le_refl _
            · exact length_le_of_stepChar h
          · unfold stepUnquoted at h
            split at h
            · cases h
              exact Nat.le_refl _
            · split at h
              · cases h
              · split at h
                · split at h
                  · cases h
                  · cases h
                    exact Nat.le_refl _
                · exact length_le_of_stepChar h

theorem length_lt_of_stepChar_reference {style : Style} {quote : Option Quote} {c : Char}
    {s r name : Text} {m : Modifier} (h : stepChar style quote c s = .reference name m r) :
    r.length < s.length + 1 := by
  unfold stepChar at h
  split at h
  · unfold stepDollar at h
    split at h
    · cases h
    · cases h
    · rename_i hh
      cases h
      have := Reference.length_lt_of_head_modified hh
      simpa using this
    · cases h
  · cases h

/-- The head of a reference takes at least one character. -/
theorem length_lt_of_step_reference {style : Style} {escape : Char} {quote : Option Quote}
    {s r name : Text} {m : Modifier} (h : step style escape quote s = .reference name m r) :
    r.length < s.length := by
  unfold step at h
  split at h
  · cases h
  · rename_i c s
    rw [List.length_cons]
    split at h
    · unfold stepEscape stepEscaped at h
      split at h
      · cases h
      · split at h
        · cases h
        · split at h <;> cases h
    · split at h
      · cases h
      · split at h
        · unfold stepEscaped at h
          split at h
          · cases h
          · split at h <;> cases h
        · split at h
          · unfold stepQuoted at h
            split at h
            · split at h <;> cases h
            · exact length_lt_of_stepChar_reference h
          · unfold stepUnquoted at h
            split at h
            · cases h
            · split at h
              · cases h
              · split at h
                · split at h <;> cases h
                · exact length_lt_of_stepChar_reference h

/-! ## Literals -/

/-- What reading a literal gives: its pieces and the rest of the text, or a fault.  It is never
stuck, because a literal can end anywhere. -/
abbrev Scanned := Except Fault (List Piece × Text)

/-- The scan with pieces put in front. -/
def Scanned.prepend (ps : List Piece) : Scanned → Scanned
  | .ok (qs, r) => .ok (ps ++ qs, r)
  | .error e => .error e

/-- The parts of the reference that `start` begins with, given the scan of its word: the word must
be followed by the closing brace. -/
def closeReference (start name : Text) (m : Modifier) :
    Scanned → Except Fault (List Token × Text)
  | .ok (ps, '}' :: r) => .ok (Reference.modifiedParts name m (assemble ps), r)
  | .ok _ => .error ⟨.malformed .missingBrace, start⟩
  | .error e => .error e

/-- Reads a literal from the start of a text, while `quote` is open.  A step that takes no text
would be the last one, so the number of steps is bounded by the length of the text. -/
def scan (style : Style) (escape : Char) (quote : Option Quote) (s : Text) : Scanned :=
  match step style escape quote s with
  | .stop =>
    match quote with
    | some q => .error ⟨.malformed .unterminatedQuote, q.rest⟩
    | none => .ok ([], s)
  | .take ps q r =>
    if r.length < s.length then (scan style escape q r).prepend ps else .ok (ps, r)
  | .last ps r => .ok (ps, r)
  | .reference name m r =>
    let word := if r.length < s.length then scan .modifierWord escape none r else .ok ([], r)
    match closeReference s name m word with
    | .ok (parts, r') =>
      let piece := .token (.node .reference parts)
      if r'.length < s.length then (scan style escape quote r').prepend [piece]
      else .ok ([piece], r')
    | .error e => .error e
  | .malformed problem => .error ⟨.malformed problem, s⟩
termination_by s.length

/-- What a scan makes of the literal, in a given style. -/
def ofScanned (style : Style) : Scanned → Outcome (List Token)
  | .error e => .failed e
  | .ok (ps, r) =>
    let (kept, blanks) := if style.trimsEnd then trimEnd ps else (ps, [])
    match assemble kept with
    | [] => if style.allowsEmpty then .ok [] (blanks ++ r) else .stuck (blanks ++ r)
    | t :: ts => .ok (t :: ts) (blanks ++ r)

/-- Reads the parts of a literal of a style. -/
def body (style : Style) (escape : Char) : Grammar := fun s =>
  ofScanned style (scan style escape none s)

/-- Reads a literal of a style. -/
def grammar (style : Style) (escape : Char) : Grammar :=
  .node (.literal style.references) (body style escape)

end Literal

namespace Reference

/-- Reads the parts of a reference. -/
def body (escape : Char) : Grammar := fun s =>
  match head s with
  | .absent r => .stuck r
  | .whole ts r => .ok ts r
  | .modified name m r =>
    match Literal.closeReference s name m (Literal.scan .modifierWord escape none r) with
    | .ok (ts, r') => .ok ts r'
    | .error e => .failed e
  | .malformed problem => .failed ⟨.malformed problem, s⟩

/-- Reads a reference. -/
def grammar (escape : Char) : Grammar :=
  .node .reference (body escape)

end Reference

end Containerfile
