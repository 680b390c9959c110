import Containerfile.CommandLine.Run
import Containerfile.Proofs.Readers

/-!
# Reading loses nothing

The leaves of what a reader reads, followed by what it leaves, are the text that it was given.  This
holds of every reader, for every escape character, however the reader came to its success: text that
was looked at and given back is part of the rest, and none of it is read twice.

For a file as a whole nothing is left, so the text of a document is the text that it was read from,
and a run of the tool never reports that something was lost.

## Main definitions

* `Lossless` — what is read and what is left make up the text.
* `Literal.Step.Possible` — all that a step of reading a literal can do.
* `Literal.Scans` — the readings of literals, step by step.

## Main results

* `Literal.lossless_body`, `Instruction.lossless_read`, `Document.lossless_read` — it holds of every
  reader.
* `Document.text_of_parse` — a document has the text that it was read from.
-/

namespace Containerfile

/-- What the reader reads, followed by what it leaves, is the text that it was given. -/
def Lossless (g : Grammar) : Prop :=
  ∀ s ts r, g s = .ok ts r → Token.textAll ts ++ r = s

theorem Lossless.shrinks {g : Grammar} (hg : Lossless g) : Grammar.Shrinks g := by
  intro s ts r e
  have hlen := congrArg List.length (hg s ts r e)
  rw [List.length_append] at hlen
  omega

namespace Grammar

theorem compositional_lossless : Compositional Lossless :=
  .ofRelation (fun s => by simp [Token.textAll])
    (fun hts hus => by simpa [← hus] using hts)
    (fun kind _ hts => by simpa [Token.textAll, Token.text] using hts)

theorem lossless_when (p : Text → Bool) : Lossless (when p) := by
  intro s ts r e
  obtain ⟨-, rfl, rfl⟩ := when_eq_ok.1 e
  simp [Token.textAll]

theorem lossless_exactly (kind : LeafKind) (start : Text) : Lossless (exactly kind start) := by
  intro s ts r e
  obtain ⟨rfl, rfl⟩ := exactly_eq_ok.1 e
  simp [Token.textAll, Token.text]

theorem lossless_run (kind : LeafKind) (p : Char → Bool) : Lossless (run kind p) := by
  intro s ts r e
  obtain ⟨-, rfl, rfl⟩ := run_eq_ok.1 e
  simp [Token.textAll, Token.text]

theorem lossless_keyword (name : Text) : Lossless (Lexeme.keyword name) := by
  intro s ts r e
  obtain ⟨word, rfl, -, -, rfl⟩ := keyword_eq_ok.1 e
  simp [Token.textAll, Token.text]

end Grammar

namespace Lexeme

open Grammar

theorem lossless_blanks : Lossless blanks :=
  lossless_run _ _

theorem lossless_newline : Lossless newline :=
  compositional_lossless.either (lossless_exactly _ _) (lossless_exactly _ _)

theorem lineReaders_lossless : LineReaders Lossless where
  toSequential := compositional_lossless.toSequential
  blanks := lossless_blanks
  newline := lossless_newline
  commentMark := lossless_exactly _ _
  commentText := lossless_run _ _
  directiveName := lossless_run _ _
  equals := lossless_exactly _ _
  endAhead := lossless_when _

theorem lossless_commentBody : Lossless commentBody :=
  lineReaders_lossless.commentBody

theorem lossless_blankLine : Lossless blankLine :=
  lineReaders_lossless.blankLine

theorem lossless_continuation (escape : Char) : Lossless (continuation escape) :=
  lineReaders_lossless.continuation (lossless_exactly _ _) (compositional_lossless.node _)

end Lexeme

/-! ## References and literals -/

namespace Modifier

/-- What an operator and the text behind it start with. -/
theorem eq_of_read? {s r : Text} {m : Modifier} (h : read? s = some (m, r)) :
    s = m.operator ++ r := by
  unfold read? at h
  split at h <;> cases h <;> rfl

theorem read?_operator (op : Modifier) (s : Text) : read? (op.operator ++ s) = some (op, s) := by
  cases op <;> rfl

end Modifier

namespace Reference

theorem eq_of_headBraced {name s : Text} :
    (∀ parts r, headBraced name s = .whole parts r →
        Token.textAll parts ++ r = '$' :: '{' :: name ++ s) ∧
      ∀ n m r, headBraced name s = .modified n m r → n = name ∧ s = m.operator ++ r := by
  unfold headBraced
  split
  · refine ⟨fun parts r h => ?_, fun n m r h => by cases h⟩
    cases h
    simp [bracedParts, Token.textAll, Token.text, Token.symbol, Token.identifier]
  · split
    · rename_i hm
      refine ⟨fun parts r h => (by cases h), fun n m r h => ?_⟩
      cases h
      exact ⟨rfl, Modifier.eq_of_read? hm⟩
    · split <;> exact ⟨fun parts r h => (by cases h), fun n m r h => by cases h⟩

theorem eq_of_head_whole {s r : Text} {parts : List Token} (h : head s = .whole parts r) :
    Token.textAll parts ++ r = s := by
  unfold head at h
  split at h
  · rename_i s
    split at h
    · cases h
    · rename_i c name hn
      rw [eq_of_headBraced.1 _ _ h, ← hn]
      simp
  · rename_i s _
    split at h
    · cases h
    · rename_i c name hn
      split at h
      · cases h
      · cases h
        rw [← hn]
        simp [bareParts, Token.textAll, Token.text, Token.identifier]
  · cases h

theorem eq_of_head_modified {s r name : Text} {m : Modifier} (h : head s = .modified name m r) :
    '$' :: '{' :: name ++ m.operator ++ r = s := by
  unfold head at h
  split at h
  · rename_i s
    split at h
    · cases h
    · rename_i c n hn
      obtain ⟨rfl, hs⟩ := eq_of_headBraced.2 _ _ _ h
      rw [List.append_assoc, ← hs, ← hn]
      simp
  · split at h
    · cases h
    · split at h <;> cases h
  · cases h

end Reference

namespace Literal

/-- The text of a piece. -/
def Piece.source : Piece → Text
  | .text s => s
  | .blank c => [c]
  | .token t => t.text

/-- The text of pieces. -/
def sourceOf (ps : List Piece) : Text :=
  ps.flatMap Piece.source

@[simp] theorem sourceOf_append (ps qs : List Piece) :
    sourceOf (ps ++ qs) = sourceOf ps ++ sourceOf qs := by
  simp [sourceOf]

theorem sourceOf_tokens (ts : List Token) : sourceOf (ts.map .token) = Token.textAll ts := by
  induction ts with
  | nil => rfl
  | cons t ts ih =>
    rw [List.map_cons, Token.textAll, ← ih]
    rfl

theorem textAll_prependText (s : Text) (ts : List Token) :
    Token.textAll (prependText s ts) = s ++ Token.textAll ts := by
  unfold prependText
  split <;> simp [Token.textAll, Token.text, Token.fragment]

/-- Joining pieces to tokens changes no text. -/
theorem textAll_assemble (ps : List Piece) : Token.textAll (assemble ps) = sourceOf ps := by
  induction ps with
  | nil => rfl
  | cons p ps ih =>
    cases p with
    | text s => simp [assemble, textAll_prependText, ih, sourceOf, Piece.source]
    | blank c => simp [assemble, textAll_prependText, ih, sourceOf, Piece.source]
    | token t => simp [assemble, Token.textAll, ih, sourceOf, Piece.source]

/-- The blanks that are left out are the end of the text. -/
theorem sourceOf_trimEnd (ps : List Piece) :
    sourceOf (trimEnd ps).1 ++ (trimEnd ps).2 = sourceOf ps := by
  induction ps with
  | nil => rfl
  | cons p ps ih =>
    unfold trimEnd
    split
    · rename_i c blanks h
      rw [h] at ih
      simpa [sourceOf, Piece.source] using ih
    · rename_i kept blanks h
      rw [h] at ih
      simpa [sourceOf] using ih

/-! ## Steps -/

/-- All that a step can do at the front of a text. -/
inductive Step.Possible (style : Style) (escape : Char) : Option Quote → Text → Step → Prop where
  | stop (quote : Option Quote) (s : Text) : Possible style escape quote s .stop
  | continuation (quote : Option Quote) {s r : Text} {ts : List Token}
      (h : Lexeme.continuation escape s = .ok ts r) :
      Possible style escape quote s (.take (ts.map .token) quote r)
  /-- The escape character, or a backslash that escapes, with the next character. -/
  | pair (quote : Option Quote) {c d : Char} {s : Text}
      (hc : c = escape ∧ (∀ ts r, Lexeme.continuation escape (c :: d :: s) ≠ .ok ts r) ∨
        c ≠ escape ∧ c = '\\' ∧ style.jsonEscapes = true)
      (hs : Text.atLineEnd (d :: s) = false) :
      Possible style escape quote (c :: d :: s) (.take [.text [c, d]] quote s)
  /-- The escape character at the end of a line. -/
  | lone (quote : Option Quote) {s : Text}
      (hc : ∀ ts r, Lexeme.continuation escape (escape :: s) ≠ .ok ts r)
      (hs : Text.atLineEnd s = true) :
      Possible style escape quote (escape :: s) (.take [.text [escape]] quote s)
  | char (quote : Option Quote) {c : Char} {s : Text} (hc : c ≠ escape)
      (hs : Text.atLineEnd (c :: s) = false) :
      Possible style escape quote (c :: s) (.take [.text [c]] quote s)
  | blank {c : Char} {s : Text} (hc : c ≠ escape) (hs : Text.atLineEnd (c :: s) = false) :
      Possible style escape none (c :: s) (.take [.blank c] none s)
  | openingQuote {c : Char} {s : Text} (hc : c ≠ escape) (hs : Text.atLineEnd (c :: s) = false)
      (hquote : isQuote c = true) :
      Possible style escape none (c :: s) (.take [.token (.symbol [c])] (some ⟨c, c :: s⟩) s)
  | closingQuote (quote : Quote) {c : Char} {s : Text} (hc : c ≠ escape)
      (hs : Text.atLineEnd (c :: s) = false) :
      Possible style escape (some quote) (c :: s) (.take [.token (.symbol [c])] none s)
  | lastQuote (quote : Quote) {c : Char} {s : Text} (hc : c ≠ escape)
      (hs : Text.atLineEnd (c :: s) = false) (hrun : style.oneQuotedRun = true) :
      Possible style escape (some quote) (c :: s) (.last [.token (.symbol [c])] s)
  | reference (quote : Option Quote) {s r : Text} {parts : List Token}
      (hreferences : style.references = true) (h : Reference.head s = .whole parts r) :
      Possible style escape quote s (.take [.token (.node .reference parts)] quote r)
  | modified (quote : Option Quote) {s r name : Text} {m : Modifier}
      (hreferences : style.references = true) (h : Reference.head s = .modified name m r) :
      Possible style escape quote s (.reference name m r)
  | malformed (quote : Option Quote) {s : Text} {problem : Problem}
      (h : Reference.head s = .malformed problem) :
      Possible style escape quote s (.malformed problem)

theorem possible_stepEscape (style : Style) (quote : Option Quote) (escape : Char) (s : Text) :
    Step.Possible style escape quote (escape :: s) (stepEscape quote escape s) := by
  unfold stepEscape
  split
  · rename_i h
    exact .continuation quote h
  · rename_i hnone
    unfold stepEscaped
    split
    · exact .lone quote hnone rfl
    · split
      · rename_i hs
        exact .lone quote hnone hs
      · rename_i hs
        exact .pair quote (.inl ⟨rfl, hnone⟩) (by simpa using hs)

section OrdinaryCharacters

variable {escape c : Char} {s : Text} (hc : c ≠ escape) (hs : Text.atLineEnd (c :: s) = false)
include hc hs

theorem possible_stepEscaped {style : Style} (hj : c = '\\' ∧ style.jsonEscapes = true)
    (quote : Option Quote) :
    Step.Possible style escape quote (c :: s) (stepEscaped quote c s) := by
  unfold stepEscaped
  split
  · exact .char quote hc hs
  · split
    · exact .char quote hc hs
    · rename_i hd
      exact .pair quote (.inr ⟨hc, hj⟩) (by simpa using hd)

theorem possible_stepChar (style : Style) (quote : Option Quote) :
    Step.Possible style escape quote (c :: s) (stepChar style quote c s) := by
  unfold stepChar
  split
  · rename_i hd
    simp only [Bool.and_eq_true, decide_eq_true_eq] at hd
    obtain ⟨⟨rfl, hreferences⟩, -⟩ := hd
    unfold stepDollar
    split
    · exact .char quote hc hs
    · rename_i h
      exact .reference quote hreferences h
    · rename_i h
      exact .modified quote hreferences h
    · rename_i h
      exact .malformed quote h
  · exact .char quote hc hs

theorem possible_stepQuoted (style : Style) (quote : Quote) :
    Step.Possible style escape (some quote) (c :: s) (stepQuoted style quote c s) := by
  unfold stepQuoted
  split
  · split
    · rename_i hrun
      exact .lastQuote quote hc hs hrun
    · exact .closingQuote quote hc hs
  · exact possible_stepChar hc hs style _

theorem possible_stepUnquoted (style : Style) :
    Step.Possible style escape none (c :: s) (stepUnquoted style c s) := by
  unfold stepUnquoted
  split
  · rename_i hquote
    exact .openingQuote hc hs (Bool.and_eq_true_iff.1 hquote).2
  · split
    · exact .stop none _
    · split
      · split
        · exact .stop none _
        · exact .blank hc hs
      · exact possible_stepChar hc hs style none

end OrdinaryCharacters

/-- A step does what is possible. -/
theorem possible_step (style : Style) (escape : Char) (quote : Option Quote) (s : Text) :
    Step.Possible style escape quote s (step style escape quote s) := by
  unfold step
  split
  · exact .stop quote []
  · rename_i c s
    by_cases hc : c = escape
    · rw [if_pos hc, hc]
      exact possible_stepEscape style quote escape s
    · rw [if_neg hc]
      split
      · exact .stop quote _
      · rename_i hs
        rw [Bool.not_eq_true] at hs
        split
        · rename_i hb
          rw [Bool.and_eq_true, decide_eq_true_eq] at hb
          exact possible_stepEscaped hc hs ⟨hb.2, hb.1⟩ quote
        · split
          · exact possible_stepQuoted hc hs style _
          · exact possible_stepUnquoted hc hs style

/-- What a step takes, and what is behind it. -/
def Step.Accounts (s : Text) : Step → Prop
  | .take ps _ r => sourceOf ps ++ r = s
  | .last ps r => sourceOf ps ++ r = s
  | .reference name m r => '$' :: '{' :: name ++ m.operator ++ r = s
  | .stop => True
  | .malformed _ => True

theorem Step.Possible.accounts {style : Style} {escape : Char} {quote : Option Quote} {s : Text}
    {st : Step} (h : Possible style escape quote s st) : st.Accounts s := by
  cases h with
  | stop | malformed => trivial
  | pair | lone | char | blank | openingQuote | closingQuote | lastQuote => rfl
  | continuation _ h =>
    rw [Accounts, sourceOf_tokens]
    exact Lexeme.lossless_continuation _ _ _ _ h
  | reference _ _ h =>
    simpa [Accounts, sourceOf, Piece.source, Token.text] using Reference.eq_of_head_whole h
  | modified _ _ h => exact Reference.eq_of_head_modified h

/-- A step accounts for the text that it takes. -/
theorem accounts_step (style : Style) (escape : Char) (quote : Option Quote) (s : Text) :
    (step style escape quote s).Accounts s :=
  (possible_step style escape quote s).accounts

/-! ## Literals -/

/-- The piece that a reference with a word becomes. -/
def referencePiece (name : Text) (m : Modifier) (word : List Piece) : Piece :=
  .token (.node .reference (Reference.modifiedParts name m (assemble word)))

theorem source_referencePiece (name : Text) (m : Modifier) (word : List Piece) :
    (referencePiece name m word).source =
      '$' :: '{' :: name ++ m.operator ++ sourceOf word ++ ['}'] := by
  simp [referencePiece, Piece.source, Reference.modifiedParts, Token.textAll, Token.text,
    Token.symbol, Token.identifier, textAll_assemble]

/-- The successful readings of literals, step by step: from `s`, while `quote` is open, the pieces
are read and `r` is left. -/
inductive Scans (escape : Char) : Style → Option Quote → Text → List Piece → Text → Prop where
  | stop {style : Style} {s : Text} (hstep : step style escape none s = .stop) :
      Scans escape style none s [] s
  | take {style : Style} {quote q : Option Quote} {s m r : Text} {ps qs : List Piece}
      (hstep : step style escape quote s = .take ps q m) (hm : Scans escape style q m qs r) :
      Scans escape style quote s (ps ++ qs) r
  | last {style : Style} {quote : Option Quote} {s r : Text} {ps : List Piece}
      (hstep : step style escape quote s = .last ps r) : Scans escape style quote s ps r
  | reference {style : Style} {quote : Option Quote} {s m m' r name : Text} {op : Modifier}
      {ws qs : List Piece} (hstep : step style escape quote s = .reference name op m)
      (hw : Scans escape .modifierWord none m ws ('}' :: m'))
      (hm : Scans escape style quote m' qs r) :
      Scans escape style quote s (referencePiece name op ws :: qs) r

/-- The pieces of a literal, followed by what is behind it, are the text. -/
theorem Scans.sourceOf_append_eq {escape : Char} {style : Style} {quote : Option Quote} {s r : Text}
    {ps : List Piece} (h : Scans escape style quote s ps r) : sourceOf ps ++ r = s := by
  induction h with
  | stop => rfl
  | @take style quote q s m r ps qs hstep _ ih =>
    have hs := accounts_step style escape quote s
    rw [hstep] at hs
    rw [sourceOf_append, List.append_assoc, ih, hs]
  | @last style quote s r ps hstep =>
    have hs := accounts_step style escape quote s
    rwa [hstep] at hs
  | @reference style quote s m m' r name op ws qs hstep _ _ ihw ih =>
    have hs := accounts_step style escape quote s
    rw [hstep] at hs
    rw [← hs, ← ihw, ← ih]
    simp [sourceOf, source_referencePiece]

/-- What a reference with a word takes is not empty. -/
theorem Scans.length_lt_of_reference {escape : Char} {style : Style} {quote : Option Quote}
    {s m m' name : Text} {op : Modifier} {ws : List Piece}
    (hstep : step style escape quote s = .reference name op m)
    (hw : Scans escape .modifierWord none m ws ('}' :: m')) : m'.length < s.length := by
  have hm := length_lt_of_step_reference hstep
  have := congrArg List.length hw.sourceOf_append_eq
  simp only [List.length_append, List.length_cons] at this
  omega

theorem closeReference_eq_ok {start name r : Text} {m : Modifier} {scanned : Scanned}
    {parts : List Token} :
    closeReference start name m scanned = .ok (parts, r) ↔
      ∃ ws, scanned = .ok (ws, '}' :: r) ∧
        parts = Reference.modifiedParts name m (assemble ws) := by
  unfold closeReference
  constructor
  · intro h
    split at h
    · cases h
      exact ⟨_, rfl, rfl⟩
    · cases h
    · cases h
  · rintro ⟨ws, rfl, rfl⟩
    rfl

theorem Scanned.prepend_eq_ok {ps qs : List Piece} {scanned : Scanned} {r : Text} :
    scanned.prepend ps = .ok (qs, r) ↔ ∃ us, scanned = .ok (us, r) ∧ qs = ps ++ us := by
  unfold prepend
  constructor
  · intro h
    split at h
    · cases h
      exact ⟨_, rfl, rfl⟩
    · cases h
  · rintro ⟨us, rfl, rfl⟩
    rfl

theorem Scans.scan_eq {escape : Char} {style : Style} {quote : Option Quote} {s r : Text}
    {ps : List Piece} (h : Scans escape style quote s ps r) :
    scan style escape quote s = .ok (ps, r) := by
  induction h with
  | stop hstep =>
    rw [scan.eq_def, hstep]
  | take hstep _ ih =>
    rw [scan.eq_def, hstep]
    simp [length_lt_of_step_take hstep, ih, Scanned.prepend]
  | last hstep =>
    rw [scan.eq_def, hstep]
  | reference hstep hw _ ihw ih =>
    rw [scan.eq_def, hstep]
    simp [length_lt_of_step_reference hstep, length_lt_of_reference hstep hw, ihw, ih,
      closeReference, Scanned.prepend, referencePiece]

/-- A scan succeeds exactly with the readings that its steps make up. -/
theorem scan_eq_ok {escape : Char} {style : Style} {quote : Option Quote} {s r : Text}
    {ps : List Piece} :
    scan style escape quote s = .ok (ps, r) ↔ Scans escape style quote s ps r := by
  refine ⟨?_, Scans.scan_eq⟩
  induction hn : s.length using Nat.strongRecOn generalizing style quote s ps r with
  | ind n ih =>
    intro e
    rw [scan.eq_def] at e
    cases hstep : step style escape quote s with
    | stop =>
      rw [hstep] at e
      cases quote with
      | some q => cases e
      | none => cases e; exact .stop hstep
    | take qs q m =>
      have hm := length_lt_of_step_take hstep
      simp only [hstep, hm, if_true] at e
      obtain ⟨us, hu, rfl⟩ := Scanned.prepend_eq_ok.1 e
      exact .take hstep (ih _ (hn ▸ hm) rfl hu)
    | last qs m => rw [hstep] at e; cases e; exact .last hstep
    | reference name op m =>
      have hm := length_lt_of_step_reference hstep
      simp only [hstep, hm, if_true] at e
      split at e
      · rename_i parts m' hclose
        obtain ⟨ws, hw, rfl⟩ := closeReference_eq_ok.1 hclose
        have hw := ih _ (hn ▸ hm) rfl hw
        have hm' := Scans.length_lt_of_reference hstep hw
        simp only [hm', if_true] at e
        obtain ⟨us, hu, rfl⟩ := Scanned.prepend_eq_ok.1 e
        exact .reference hstep hw (ih _ (hn ▸ hm') rfl hu)
      · cases e
    | malformed problem => rw [hstep] at e; cases e

/-- The pieces that a style keeps, and the blanks that it leaves out. -/
def cut (style : Style) (ps : List Piece) : List Piece × Text :=
  if style.trimsEnd then trimEnd ps else (ps, [])

theorem sourceOf_cut (style : Style) (ps : List Piece) :
    sourceOf (cut style ps).1 ++ (cut style ps).2 = sourceOf ps := by
  unfold cut
  split
  · exact sourceOf_trimEnd ps
  · simp

theorem ofScanned_ok (style : Style) (ps : List Piece) (m : Text) :
    ofScanned style (.ok (ps, m)) =
      if assemble (cut style ps).1 = [] ∧ style.allowsEmpty = false then
        .stuck ((cut style ps).2 ++ m)
      else .ok (assemble (cut style ps).1) ((cut style ps).2 ++ m) := by
  unfold ofScanned cut
  dsimp only
  generalize (if style.trimsEnd = true then trimEnd ps else (ps, [])) = kept
  split
  · rename_i h
    cases style.allowsEmpty <;> simp [h]
  · rename_i h
    simp [h]

/-- A literal is what a reading keeps; what the style leaves out goes back to the rest. -/
theorem body_eq_ok {style : Style} {escape : Char} {s r : Text} {ts : List Token} :
    body style escape s = .ok ts r ↔
      ∃ ps m, Scans escape style none s ps m ∧ ts = assemble (cut style ps).1 ∧
        r = (cut style ps).2 ++ m ∧ (ts ≠ [] ∨ style.allowsEmpty = true) := by
  unfold body
  constructor
  · intro e
    cases hs : scan style escape none s with
    | error f =>
      rw [hs] at e
      cases e
    | ok scanned =>
      obtain ⟨ps, m⟩ := scanned
      rw [hs, ofScanned_ok] at e
      refine ⟨ps, m, scan_eq_ok.1 hs, ?_⟩
      split at e
      · cases e
      · rename_i hne
        cases e
        refine ⟨rfl, rfl, ?_⟩
        by_cases hnil : assemble (cut style ps).1 = []
        · exact .inr (by simpa [hnil] using hne)
        · exact .inl hnil
  · rintro ⟨ps, m, hs, rfl, rfl, hne⟩
    rw [hs.scan_eq, ofScanned_ok, if_neg]
    rintro ⟨hnil, hempty⟩
    obtain hne | hne := hne
    · exact hne hnil
    · rw [hempty] at hne
      cases hne

theorem lossless_body (style : Style) (escape : Char) : Lossless (body style escape) := by
  intro s ts r e
  obtain ⟨ps, m, hs, rfl, rfl, -⟩ := body_eq_ok.1 e
  rw [textAll_assemble, ← List.append_assoc, sourceOf_cut, hs.sourceOf_append_eq]

/-- The token that a piece is, if it is one, has a property. -/
def Piece.Holds (Q : Token → Prop) : Piece → Prop
  | .token t => Q t
  | .text _ => True
  | .blank _ => True

theorem trimEnd_subset (ps : List Piece) : (trimEnd ps).1 ⊆ ps := by
  induction ps with
  | nil => simp [trimEnd]
  | cons p ps ih =>
    unfold trimEnd
    split
    · simp
    · rename_i h
      rw [h] at ih
      exact List.cons_subset_cons _ ih

theorem cut_subset (style : Style) (ps : List Piece) : (cut style ps).1 ⊆ ps := by
  unfold cut
  split
  · exact trimEnd_subset ps
  · exact List.Subset.refl ps

/-- What holds of fragments and of the tokens among the pieces holds of all tokens of a literal. -/
theorem forall_mem_assemble {Q : Token → Prop} (hQ : ∀ s, Q (.fragment s)) {ps : List Piece}
    (h : ∀ p ∈ ps, p.Holds Q) : ∀ t ∈ assemble ps, Q t := by
  have hprepend {ts : List Token} (s : Text) (hts : ∀ t ∈ ts, Q t) :
      ∀ t ∈ prependText s ts, Q t := by
    unfold prependText
    split
    · exact List.forall_mem_cons.2 ⟨hQ _, (List.forall_mem_cons.1 hts).2⟩
    · exact List.forall_mem_cons.2 ⟨hQ _, hts⟩
  induction ps with
  | nil => simp [assemble]
  | cons p ps ih =>
    obtain ⟨hp, hps⟩ := List.forall_mem_cons.1 h
    cases p with
    | text s => exact hprepend s (ih hps)
    | blank c => exact hprepend [c] (ih hps)
    | token t => exact List.forall_mem_cons.2 ⟨hp, ih hps⟩

end Literal

namespace Reference

theorem lossless_body (escape : Char) : Lossless (body escape) := by
  intro s ts r e
  unfold body at e
  split at e
  · cases e
  · rename_i h
    cases e
    exact eq_of_head_whole h
  · rename_i name m r' h
    split at e
    · rename_i parts r'' hc
      cases e
      obtain ⟨ws, hw, rfl⟩ := Literal.closeReference_eq_ok.1 hc
      have hs := (Literal.scan_eq_ok.1 hw).sourceOf_append_eq
      have hp := Literal.source_referencePiece name m ws
      rw [← eq_of_head_modified h, ← hs]
      change Token.textAll _ ++ r = _
      simp only [Literal.referencePiece, Literal.Piece.source, Token.text] at hp
      simp [hp]
    · cases e
  · cases e

end Reference

/-! ## Instructions -/

/-- Every reader of arguments is lossless, whatever the escape character is. -/
theorem arrayReaders_lossless (escape : Char) : ArrayReaders Lossless escape where
  toSequential := Grammar.compositional_lossless.toSequential
  keyValue := Grammar.compositional_lossless.node _ rfl
  execForm := Grammar.compositional_lossless.node _ rfl
  blanks := Lexeme.lossless_blanks
  continuation := Lexeme.lossless_continuation escape
  keyword _ := Grammar.lossless_keyword _
  stageKeyword := Grammar.lossless_keyword _
  stageName := Grammar.lossless_run _ _
  flagName := Grammar.lossless_run _ _
  labelName := Grammar.lossless_run _ _
  dashes := Grammar.lossless_exactly _ _
  equals := Grammar.lossless_exactly _ _
  literal style _ := Grammar.compositional_lossless.node _ rfl (Literal.lossless_body style escape)
  openingBracket := Grammar.lossless_exactly _ _
  comma := Grammar.lossless_exactly _ _
  closingBracket := Grammar.lossless_exactly _ _
  quoteAhead := Grammar.lossless_when _
  element _ := Grammar.compositional_lossless.node _ rfl (Literal.lossless_body _ escape)
  finishAhead := Grammar.lossless_when _

theorem ExecForm.lossless_body (escape : Char) (references : Bool) :
    Lossless (ExecForm.body escape references) := by
  intro s ts r e
  have h := (arrayReaders_lossless escape).array references s _ r
    (Grammar.node_eq_ok.2 ⟨ts, e, rfl⟩)
  simpa [Token.textAll, Token.text] using h

namespace Lexeme

open Grammar

theorem lossless_finish (escape : Char) : Lossless (finish escape) :=
  (arrayReaders_lossless escape).finish (lossless_when _) lossless_newline

theorem text_of_finish {escape : Char} {s : Text} {ts : List Token}
    (h : finish escape s = .ok ts []) : Token.textAll ts = s := by
  simpa using lossless_finish escape _ _ _ h

end Lexeme

namespace Instruction

open Grammar Lexeme

/-- What the reader makes an instruction of, followed by what it leaves, is the text. -/
def LosslessRead (f : Text → Outcome Instruction) : Prop :=
  ∀ s i r, f s = .ok i r → i.text ++ r = s

theorem lossless_trigger {f : Text → Outcome Instruction} (hf : LosslessRead f) :
    Lossless (trigger f) := by
  intro s ts r e
  obtain ⟨i, hi, -, rfl⟩ := trigger_eq_ok.1 e
  simpa [Token.textAll, Token.text, token, text] using hf s i r hi

theorem lossless_onBuildBody (escape : Char) {f : Text → Outcome Instruction}
    (hf : LosslessRead f) : Lossless (onBuildBody escape f) := by
  have h := arrayReaders_lossless escape
  exact h.seq h.deferral (lossless_trigger hf)

theorem lossless_body (escape : Char) {f : Text → Outcome Instruction} (hf : LosslessRead f)
    (k : Keyword) : Lossless (body escape f k) := by
  by_cases hk : k = .ONBUILD
  · subst hk
    exact lossless_onBuildBody escape hf
  · exact (arrayReaders_lossless escape).body (lossless_finish escape) f hk

theorem lossless_read (escape : Char) : LosslessRead (read escape) := by
  refine read_induction fun f hf s i r e => ?_
  obtain ⟨k, ts, -, hb, rfl⟩ := readWith_eq_ok.1 e
  exact lossless_body escape hf k s ts r hb

theorem lossless_formBody (escape : Char) (form : Form) : Lossless (formBody escape form) := by
  have h := arrayReaders_lossless escape
  have hbody := lossless_body escape (lossless_read escape)
  cases form with
  | stage => exact hbody .FROM
  | arg => exact hbody .ARG
  | env => exact hbody .ENV
  | label => exact hbody .LABEL
  | command => exact h.attempt (h.either (hbody .RUN) (h.either (hbody .CMD) (hbody .ENTRYPOINT)))
  | onBuild => exact hbody .ONBUILD
  | generic =>
    intro s ts r (e : anyGenericBody escape s = .ok ts r)
    unfold anyGenericBody at e
    split at e
    · exact h.seq (h.seq (h.opening _) (h.argumentsBody _)) (lossless_finish escape) s ts r e
    · cases e

theorem lossless_readAs (form : Form) (escape : Char) : LosslessRead (readAs form escape) := by
  intro s i r e
  obtain ⟨ts, hts, rfl⟩ := Outcome.map_eq_ok.1 e
  exact lossless_formBody escape form s ts r hts

end Instruction

/-! ## Documents -/

namespace Directive

open Grammar Lexeme

theorem textAll_lineBlanks (line : Text) :
    Token.textAll (lineBlanks line) = (line.reverse.takeWhile isBlank).reverse := by
  unfold lineBlanks
  split
  · rename_i h
    simp [h, Token.textAll]
  · rename_i c cs h
    simp [h, Token.textAll, Token.text, Token.blank]

/-- A line is its value and the blanks behind it. -/
theorem lineValue_append_lineBlanks (line : Text) :
    lineValue line ++ Token.textAll (lineBlanks line) = line := by
  rw [textAll_lineBlanks, lineValue, ← List.reverse_append, List.takeWhile_append_dropWhile,
    List.reverse_reverse]

theorem lossless_valueBody (name : DirectiveName) : Lossless (valueBody name) := by
  intro s ts r e
  unfold valueBody at e
  dsimp only at e
  split at e
  · cases e
  · rename_i c cs hv
    split at e
    · cases e
      have hl := lineValue_append_lineBlanks (s.takeWhile fun c => !isLineBreak c)
      rw [hv] at hl
      simp only [Token.textAll, Token.text, Token.fragment, List.append_nil]
      rw [hl, List.takeWhile_append_dropWhile]
    · cases e

theorem lossless_assignment : Lossless assignment := by
  intro s ts r e
  unfold assignment at e
  split at e
  · cases e
  · rename_i name _
    exact lineReaders_lossless.assignmentOf (lossless_valueBody name) s ts r e

theorem lossless_body : Lossless body :=
  lineReaders_lossless.directive lossless_assignment

end Directive

theorem BlankLines.lossless_body : Lossless BlankLines.body :=
  Lexeme.lineReaders_lossless.blankLines

namespace Document

@[simp] theorem textOf_cons (item : Item) (items : List Item) :
    textOf (item :: items) = item.text ++ textOf items :=
  rfl

@[simp] theorem textOf_append (items others : List Item) :
    textOf (items ++ others) = textOf items ++ textOf others := by
  simp [textOf]

/-- The text of an item, followed by what is behind it, is the text. -/
theorem lossless_readItem (escape : Char) {s r : Text} {item : Item}
    (h : readItem escape s = .ok item r) : item.text ++ r = s := by
  unfold readItem at h
  split at h
  · rename_i ts m hb
    cases h
    exact BlankLines.lossless_body _ _ _ hb
  · cases h
  · split at h
    · rename_i ts m hc
      cases h
      exact Lexeme.lossless_commentBody _ _ _ hc
    · cases h
    · obtain ⟨i, hi, rfl⟩ := Outcome.map_eq_ok.1 h
      exact Instruction.lossless_read escape _ _ _ hi

/-- The text of the directives, followed by what is behind them, is the text. -/
theorem lossless_readDirectives (seen : List Text) (s : Text) :
    ∀ ds r, readDirectives seen s = .ok ds r → textOf (ds.map .directive) ++ r = s := by
  fun_induction readDirectives seen s with
  | case1 seen s ts m hb name hseen => intro ds r e; cases e; rfl
  | case2 seen s ts m hb name hseen hlt ih =>
    intro ds r e
    obtain ⟨ds, hd, rfl⟩ := Outcome.map_eq_ok.1 e
    have hm : Token.textAll ts ++ m = s := Directive.lossless_body _ _ _ hb
    simpa [Item.text, Item.parts, ih _ _ hd] using hm
  | case3 seen s ts m hb name hseen hlt =>
    intro ds r e
    cases e
    simpa [textOf, Item.text, Item.parts] using Directive.lossless_body _ _ _ hb
  | case4 seen s m hb => intro ds r e; cases e; rfl
  | case5 => intro ds r e; cases e

/-- The text of the items, followed by what is behind them, is the text. -/
theorem lossless_readItems (escape : Char) (s : Text) :
    ∀ items r, readItems escape s = .ok items r → textOf items ++ r = s := by
  fun_induction readItems escape s with
  | case1 s hs => intro items r e; cases e; rfl
  | case2 s hs item m hi hlt ih =>
    intro items r e
    obtain ⟨items, hm, rfl⟩ := Outcome.map_eq_ok.1 e
    rw [textOf_cons, List.append_assoc, ih _ _ hm, lossless_readItem escape hi]
  | case3 s hs item m hi hlt =>
    intro items r e
    cases e
    simpa [textOf] using lossless_readItem escape hi
  | case4 => intro items r e; cases e
  | case5 => intro items r e; cases e

theorem lossless_read {s r : Text} {items : List Item} (h : read s = .ok items r) :
    textOf items ++ r = s := by
  unfold read at h
  split at h
  · rename_i ds m hd
    obtain ⟨rest, hm, rfl⟩ := Outcome.map_eq_ok.1 h
    rw [textOf_append, List.append_assoc, lossless_readItems _ _ _ _ hm,
      lossless_readDirectives _ _ _ _ hd]
  · cases h
  · cases h

theorem parse_eq_ok {s : Text} {d : Document} : parse s = .ok d ↔ read s = .ok d.items [] := by
  unfold parse
  rw [← @Outcome.complete_eq_ok _ s]
  cases (read s).complete s with
  | error e => simp [Except.map]
  | ok items => cases d; simp [Except.map]

/-- A document has the text that it was read from. -/
theorem text_of_parse {s : Text} {d : Document} (h : parse s = .ok d) : d.text = s := by
  simpa [text] using lossless_read (parse_eq_ok.1 h)

end Document

/-! ## Runs of the tool -/

theorem loadConfig_ne_roundTrip (view : FileView) (userPath path : Text) (explicit : Option Text) :
    loadConfig view userPath explicit ≠ .error (.roundTrip path) := by
  unfold loadConfig
  split
  · unfold readConfig
    split
    · split
      · simp
      · split
        · simp
        · split <;> simp
    · simp
  · simp

namespace Invocation

/-- Without other wishes, a run gives back the text of the file. -/
theorem process_eq_source {inv : Invocation} {config : Config} {source : Text} {d : Document}
    (hd : Document.parse source = .ok d) (hs : inv.stages = false) (hr : inv.resolve = false) :
    inv.process config source d = .ok source := by
  simp [process, hs, hr, Document.text_of_parse hd]

theorem process_ne_roundTrip {inv : Invocation} {config : Config} {source : Text} {d : Document}
    (hd : Document.parse source = .ok d) (path : Text) :
    inv.process config source d ≠ .error (.roundTrip path) := by
  unfold process
  split
  · simp
  · split
    · split <;> simp
    · simp [Document.text_of_parse hd]

theorem compute_ne_roundTrip (inv : Invocation) (view : FileView) (userPath path : Text) :
    inv.compute view userPath ≠ .error (.roundTrip path) := by
  unfold compute
  cases hc : loadConfig view userPath inv.config with
  | error e =>
    have := loadConfig_ne_roundTrip view userPath path inv.config
    simpa [hc, bind, Except.bind] using this
  | ok config =>
    cases view inv.input with
    | error e => simp [bind, Except.bind]
    | ok source =>
      cases hd : Document.parse source with
      | error e => simp [bind, Except.bind, Config.parse, hd]
      | ok d => simpa [bind, Except.bind, Config.parse, hd] using process_ne_roundTrip hd path

theorem runIn_ne_roundTrip (inv : Invocation) (tree : FileTree) (userPath path : Text) :
    inv.runIn tree userPath ≠ .error (.roundTrip path) := by
  unfold runIn
  cases hc : inv.compute tree.read userPath with
  | error e =>
    have := compute_ne_roundTrip inv tree.read userPath path
    simpa [hc, bind, Except.bind] using this
  | ok s =>
    cases inv.output with
    | none => simp [bind, Except.bind, pure, Except.pure]
    | some target =>
      cases hw : tree.write target s <;> simp [bind, Except.bind, pure, Except.pure, hw]

end Invocation

/-- **Reading loses nothing.**  A document has the text that it was read from, so a run that only
checks a file gives back its text and no run reports a loss; and for every reader and every escape
character, what is read followed by what is left is the text. -/
theorem reading_loses_nothing :
    (∀ s d, Document.parse s = .ok d → d.text = s) ∧
      (∀ (inv : Invocation) config s d, Document.parse s = .ok d → inv.stages = false →
        inv.resolve = false → inv.process config s d = .ok s) ∧
      (∀ (inv : Invocation) view userPath path,
        inv.compute view userPath ≠ .error (.roundTrip path)) ∧
      (∀ (inv : Invocation) tree userPath path,
        inv.runIn tree userPath ≠ .error (.roundTrip path)) ∧
      (∀ escape s i r, Instruction.read escape s = .ok i r → i.text ++ r = s) ∧
      (∀ form escape s i r, Instruction.readAs form escape s = .ok i r → i.text ++ r = s) ∧
      (∀ s ts r, Directive.body s = .ok ts r → Token.textAll ts ++ r = s) ∧
      (∀ s ts r, BlankLines.body s = .ok ts r → Token.textAll ts ++ r = s) ∧
      (∀ s ts r, Lexeme.commentBody s = .ok ts r → Token.textAll ts ++ r = s) ∧
      (∀ style escape s ts r,
        Literal.body style escape s = .ok ts r → Token.textAll ts ++ r = s) ∧
      (∀ escape s ts r, Reference.body escape s = .ok ts r → Token.textAll ts ++ r = s) ∧
      ∀ escape references s ts r,
        ExecForm.body escape references s = .ok ts r → Token.textAll ts ++ r = s :=
  ⟨fun _ _ => Document.text_of_parse,
    fun _ _ _ _ hd hs hr => Invocation.process_eq_source hd hs hr,
    Invocation.compute_ne_roundTrip, Invocation.runIn_ne_roundTrip,
    Instruction.lossless_read, Instruction.lossless_readAs,
    Directive.lossless_body, BlankLines.lossless_body, Lexeme.lossless_commentBody,
    Literal.lossless_body, Reference.lossless_body, ExecForm.lossless_body⟩

end Containerfile
